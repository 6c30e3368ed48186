import Lox.Number.Shortest

set_option autoImplicit false

/-! # The four texts of a number

A number is written in four places, each with rules of its own: by `print` (`printed`), in
the literal column of the list of tokens (`literal`), in the record form of a token
(`record`) and in the prefix form of a tree (`tree`). Each is a value of the one type
`Format`; `Format.text` writes a number in a format.

Digits are those of the shortest decimal that reads back, except that a format may ask for
whole numbers to be written exactly, followed by `.0`. A decimal is written with its point in
place (`positional`) or with one digit before the point and an exponent (`scientific`).
-/

namespace Lox.Number

namespace Decimal

/-- The digits of the coefficient. -/
def digits (d : Decimal) : List Char := Nat.toDigits 10 d.coefficient

/-- The power of ten of the first digit. -/
def leadingExponent (d : Decimal) : Int := d.exponent + d.digits.length - 1

/-- The decimal with its point in place, padded with zeros; `.0` closes a whole number if
`keepsPoint`. -/
def positional (d : Decimal) (keepsPoint : Bool) : List Char :=
  let digits := d.digits
  if 0 ≤ d.exponent then
    digits ++ List.replicate d.exponent.toNat '0' ++ (if keepsPoint then ['.', '0'] else [])
  else
    let places := (-d.exponent).toNat
    if places < digits.length then
      digits.take (digits.length - places) ++ '.' :: digits.drop (digits.length - places)
    else
      '0' :: '.' :: List.replicate (places - digits.length) '0' ++ digits

/-- The decimal with one digit before the point and a signed exponent. -/
def scientific (d : Decimal) : List Char :=
  let mantissa :=
    match d.digits with
    | [] => []
    | [c] => [c]
    | c :: rest => c :: '.' :: rest
  let exponent := d.leadingExponent
  mantissa ++ 'e' :: (if 0 ≤ exponent then '+' else '-') :: Nat.toDigits 10 exponent.natAbs

end Decimal

/-- How a place of the output writes numbers. -/
structure Format where
  /-- Which of two equally near shortest decimals is written. -/
  tie : Tie
  /-- A whole number of this size is written with all its digits and `.0`. -/
  isExact : Nat → Bool
  /-- A number whose first digit has this power of ten is written without an exponent. -/
  isPositional : Int → Bool
  /-- Whether a whole number in its shortest digits ends in `.0`. -/
  keepsPoint : Bool
  /-- Whether a zero shows its sign. -/
  signsZero : Bool
  /-- The text of an infinity, the negative one at `true`. -/
  infinity : Bool → String
  nan : String

namespace Format

/-- The text of an absolute value. -/
def magnitude (f : Format) (b : Binary) : List Char :=
  match b.whole?.filter f.isExact with
  | some n => Nat.toDigits 10 n ++ ['.', '0']
  | none =>
    let d := b.shortest f.tie
    if b.mantissa = 0 || f.isPositional d.leadingExponent then d.positional f.keepsPoint
    else d.scientific

/-- Whether a number has a sign in its text. -/
def signs (f : Format) (b : Binary) : Bool := b.negative && (f.signsZero || b.mantissa != 0)

/-- The text of what a double stands for. -/
def ofDenotation (f : Format) : Denotation → String
  | .nan => f.nan
  | .infinite negative => f.infinity negative
  | .finite b => String.ofList (if f.signs b then '-' :: f.magnitude b else f.magnitude b)

/-- The text of a number. -/
def text (f : Format) (x : Float) : String := f.ofDenotation (.ofFloat x)

/-- The `print` statement writes shortest digits, with an exponent from `1e21` up and below
`1e-6`. -/
def printed : Format where
  tie := .away
  isExact _ := false
  isPositional e := -6 ≤ e && e < 21
  keepsPoint := false
  signsZero := true
  infinity negative := if negative then "-Infinity" else "Infinity"
  nan := "NaN"

/-- The literal column of a token writes whole numbers below `2^63` exactly, as integers, which
have no negative zero, and never an exponent. -/
def literal : Format where
  tie := .away
  isExact n := n < Nat.pow 2 63
  isPositional _ := true
  keepsPoint := false
  signsZero := false
  infinity negative := if negative then "-inf" else "inf"
  nan := "NaN"

/-- The record of a token has an exponent from `1e16` up and below `1e-5`, and `null` for
what is not finite. -/
def record : Format where
  tie := .even
  isExact _ := false
  isPositional e := -5 ≤ e && e < 16
  keepsPoint := true
  signsZero := true
  infinity _ := "null"
  nan := "null"

/-- The prefix form of a tree writes every whole number exactly, and never an exponent. -/
def tree : Format where
  tie := .away
  isExact _ := true
  isPositional _ := true
  keepsPoint := false
  signsZero := true
  infinity negative := if negative then "-inf" else "inf"
  nan := "NaN"

end Format

end Lox.Number
