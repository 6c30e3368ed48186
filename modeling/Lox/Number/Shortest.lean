import Lox.Number.Binary

set_option autoImplicit false

/-! # The shortest decimal that reads back

The reals that round to a double `b` form an interval around it: half the distance to each
neighbour, with both ends included exactly when the mantissa is even. `shortest` returns the
decimal `coefficient · 10^exponent` of that interval on the coarsest grid `10^exponent · ℕ` that
meets it, so no decimal with fewer digits reads back; of two candidates on the grid it takes the
nearer one, and an exact tie is settled by a `Tie` rule, which the format of the text chooses.

All comparisons are made between natural numbers. The interval is measured in quarters of the
unit of the mantissa, and a grid point and an end of the interval are brought to one
denominator before they are compared.
-/

namespace Lox.Number

/-- The decimal `coefficient · 10^exponent`. -/
structure Decimal where
  coefficient : Nat
  exponent : Int
deriving DecidableEq, Inhabited

/-- Which of two equally near decimals is taken. -/
inductive Tie
  /-- The larger one. -/
  | away
  /-- The one with the even coefficient. -/
  | even
deriving DecidableEq, Inhabited

/-- Whether the larger neighbour of a tie is taken, `below` being the smaller one. -/
def Tie.takesAbove : Tie → Nat → Bool
  | .away, _ => true
  | .even, below => below % 2 == 1

/-- The interval of a double, seen from the grid of multiples of `10^exponent`: the point
with coefficient `c` is at `c * step`, and the double and the ends of its interval are at
`centre`, `low` and `high`. -/
structure Grid where
  step : Nat
  low : Nat
  centre : Nat
  high : Nat
  closed : Bool

namespace Grid

/-- The grid of multiples of `10^exponent` around a double. -/
def of (b : Binary) (exponent : Int) : Grid :=
  let quarter := b.exponent - 2
  let scale := Nat.pow 2 quarter.toNat * Nat.pow 10 (-exponent).toNat
  { step := Nat.pow 10 exponent.toNat * Nat.pow 2 (-quarter).toNat
    low := (4 * b.mantissa - (if b.isNarrowBelow then 1 else 2)) * scale
    centre := 4 * b.mantissa * scale
    high := (4 * b.mantissa + 2) * scale
    closed := b.mantissa % 2 == 0 }

/-- The point with coefficient `c` lies in the interval. -/
def contains (g : Grid) (c : Nat) : Bool :=
  let p := c * g.step
  if g.closed then g.low ≤ p && p ≤ g.high else g.low < p && p < g.high

/-- The point of the grid that lies in the interval, the nearer one if there are two. Only
the two neighbours of the double need to be looked at. -/
def nearest? (g : Grid) (tie : Tie) : Option Nat :=
  let below := g.centre / g.step
  let rest := g.centre % g.step
  match g.contains below, g.contains (below + 1) with
  | false, false => none
  | true, false => some below
  | false, true => some (below + 1)
  | true, true =>
    if 2 * rest < g.step then some below
    else if g.step < 2 * rest then some (below + 1)
    else if tie.takesAbove below then some (below + 1) else some below

end Grid

namespace Binary

/-- All digits of the absolute value. -/
def exactDecimal (b : Binary) : Decimal :=
  if 0 ≤ b.exponent then ⟨b.mantissa * Nat.pow 2 b.exponent.toNat, 0⟩
  else ⟨b.mantissa * Nat.pow 5 (-b.exponent).toNat, b.exponent⟩

/-- An exponent of ten whose power is above the interval of the double. -/
def ceilingExponent (b : Binary) : Int :=
  ((b.mantissa.log2 : Int) + 1 + b.exponent) * 30103 / 100000 + 1

/-- The first grid that meets the interval, from `exponent` down for `count` grids. -/
def searchGrids (b : Binary) (tie : Tie) : Nat → Int → Option Decimal
  | 0, _ => none
  | count + 1, exponent =>
    match (Grid.of b exponent).nearest? tie with
    | some c => some ⟨c, exponent⟩
    | none => searchGrids b tie count (exponent - 1)

/-- The absolute value of a double with the fewest digits that read back as this double. -/
def shortest (b : Binary) (tie : Tie) : Decimal :=
  if b.mantissa = 0 then ⟨0, 0⟩
  else (b.searchGrids tie 20 b.ceilingExponent).getD b.exactDecimal

end Binary

end Lox.Number
