set_option autoImplicit false

/-! # Numbers in base two

A Lox number is a double. Its text depends only on the number that the double stands for, so
this file takes the sixty-four bits apart once: a double is no number at all, an infinity, or

    (-1)^negative · mantissa · 2^exponent

with natural `mantissa`. The texts of `Lox.Number.Text` and the digits of
`Lox.Number.Shortest` are computed from these three parts in exact integer arithmetic.
-/

namespace Lox.Number

/-- The finite number `(-1)^negative · mantissa · 2^exponent`. -/
@[ext]
structure Binary where
  negative : Bool
  mantissa : Nat
  exponent : Int
deriving DecidableEq, Inhabited

/-- A number, an infinity, or no number at all. -/
inductive Denotation
  | nan
  | infinite (negative : Bool)
  | finite (number : Binary)
deriving DecidableEq, Inhabited

/-- The leading bit of a mantissa, which the fifty-two bits of fraction leave out. -/
def implicitBit : Nat := Nat.pow 2 52

/-- What a double with these bits stands for: sign, eleven bits of exponent, fifty-two bits
of fraction. A zero exponent field has no implicit leading bit. -/
def Denotation.ofBits (bits : Nat) : Denotation :=
  let negative := bits.testBit 63
  let field : Nat := (bits >>> 52) % Nat.pow 2 11
  let fraction : Nat := bits % implicitBit
  if field + 1 = Nat.pow 2 11 then
    if fraction = 0 then .infinite negative else .nan
  else if field = 0 then
    .finite ⟨negative, fraction, -1074⟩
  else
    .finite ⟨negative, implicitBit + fraction, (field : Int) - 1075⟩

/-- What a double stands for. -/
def Denotation.ofFloat (x : Float) : Denotation := .ofBits x.toBits.toNat

namespace Binary

/-- The absolute value as a natural number, when the number is whole. -/
def whole? (b : Binary) : Option Nat :=
  if 0 ≤ b.exponent then
    some (b.mantissa * Nat.pow 2 b.exponent.toNat)
  else
    let unit := Nat.pow 2 (-b.exponent).toNat
    if b.mantissa % unit = 0 then some (b.mantissa / unit) else none

/-- Below a power of two the doubles lie twice as dense as above it. -/
def isNarrowBelow (b : Binary) : Bool :=
  b.mantissa == implicitBit && b.exponent != -1074

end Binary

end Lox.Number
