set_option autoImplicit false

/-! # Reading a numeral

A numeral is a run of decimal digits, with a point between two of them or none. Its value is
the double nearest to the decimal it writes, a tie going to the even mantissa.
-/

namespace Lox.Number

/-- The digits of a numeral before its point, and those after it. -/
def splitNumeral (cs : List Char) : List Char × List Char :=
  (cs.takeWhile (· != '.'), (cs.dropWhile (· != '.')).drop 1)

/-- The value of a numeral. -/
def ofNumeral (cs : List Char) : Float :=
  let (whole, fraction) := splitNumeral cs
  .ofModel (.ofScientific (Nat.ofDigitChars 10 (whole ++ fraction) 0) (-(fraction.length : Int)))

end Lox.Number
