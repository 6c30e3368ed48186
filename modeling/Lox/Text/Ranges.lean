set_option autoImplicit false

/-! # Ranges of characters

A property of characters is a list of ranges of code points, both ends included, in increasing
order.
-/

namespace Lox.Text

/-- Ranges of code points, both ends included. -/
abbrev Ranges := List (Nat × Nat)

/-- The character lies in one of the ranges. -/
def Ranges.contains (ranges : Ranges) (c : Char) : Bool :=
  ranges.any fun range => range.1 ≤ c.toNat && c.toNat ≤ range.2

end Lox.Text
