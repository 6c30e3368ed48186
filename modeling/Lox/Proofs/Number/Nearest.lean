import Lox.Number.Shortest
import Lox.Proofs.Number.Rounding

set_option autoImplicit false

/-! # Decimals near a double

The decimals that stand for a double are near to it: the shortest one, which the grids find
(`Binary.near_shortest`), and the one that is exact.
-/

namespace Lox.Number

/-- The number that a decimal is. -/
def Decimal.value (d : Decimal) : ℚ := d.coefficient * 10 ^ d.exponent

/-- The absolute value of a double. -/
def Binary.value (b : Binary) : ℚ := b.mantissa * 2 ^ b.exponent

/-- A power in two parts, of which one is a power of a natural number. -/
theorem natPow_eq {a : Nat} (ha : a ≠ 0) (e : Int) :
    ((Nat.pow a e.toNat : Nat) : ℚ) = (a : ℚ) ^ e * ((Nat.pow a (-e).toNat : Nat) : ℚ) := by
  have ha : (a : ℚ) ≠ 0 := Nat.cast_ne_zero.2 ha
  show ((a ^ e.toNat : Nat) : ℚ) = (a : ℚ) ^ e * ((a ^ (-e).toNat : Nat) : ℚ)
  push_cast
  rw [← zpow_natCast, ← zpow_natCast, ← zpow_add₀ ha]
  congr 1
  omega

namespace Grid

variable {b : Binary} {e : Int} {c : Nat}

/-- What a grid multiplies everything with. -/
def denominator (b : Binary) (e : Int) : ℚ :=
  ((Nat.pow 10 (-e).toNat * Nat.pow 2 (-(b.exponent - 2)).toNat : Nat) : ℚ)

theorem denominator_pos (b : Binary) (e : Int) : 0 < denominator b e := by
  have hpos : 0 < 10 ^ (-e).toNat * 2 ^ (-(b.exponent - 2)).toNat := by positivity
  exact Nat.cast_pos.2 hpos

theorem point_eq (b : Binary) (e : Int) (c : Nat) :
    ((c * (Grid.of b e).step : Nat) : ℚ) = c * 10 ^ e * denominator b e := by
  simp only [Grid.of, denominator]
  push_cast [natPow_eq (a := 10) (by decide) e]
  ring

/-- A multiple of a quarter of the unit of the mantissa. -/
theorem scale_eq (b : Binary) (e : Int) (n : ℚ) :
    4 * n * ((Nat.pow 2 (b.exponent - 2).toNat * Nat.pow 10 (-e).toNat : Nat) : ℚ) =
      n * 2 ^ b.exponent * denominator b e := by
  have hquarter : (2 : ℚ) ^ b.exponent = 4 * 2 ^ (b.exponent - 2) := by
    rw [zpow_sub₀ (by norm_num)]
    norm_num
    ring
  simp only [denominator]
  push_cast [natPow_eq (a := 2) (by decide) (b.exponent - 2), hquarter]
  ring

theorem low_eq (hpos : 0 < b.mantissa) (e : Int) :
    ((Grid.of b e).low : ℚ) = b.low * denominator b e := by
  have hcast : ((4 * b.mantissa - (if b.isNarrowBelow then 1 else 2) : Nat) : ℚ) =
      4 * (b.mantissa - b.reach) := by
    have hle : (if b.isNarrowBelow then 1 else 2) ≤ 4 * b.mantissa := by
      split <;> omega
    rw [Nat.cast_sub hle, Binary.reach]
    split <;> push_cast <;> ring
  rw [Binary.low, ← scale_eq, ← hcast]
  exact Nat.cast_mul _ _

theorem high_eq (b : Binary) (e : Int) : ((Grid.of b e).high : ℚ) = b.high * denominator b e := by
  have hcast : ((4 * b.mantissa + 2 : Nat) : ℚ) = 4 * (b.mantissa + 1 / 2) := by
    push_cast
    ring
  rw [Binary.high, ← scale_eq, ← hcast]
  exact Nat.cast_mul _ _

/-- Natural numbers are compared as what they are multiples of. -/
theorem lt_iff_of_eq_mul {m n : Nat} {x y d : ℚ} (hd : 0 < d) (hm : (m : ℚ) = x * d)
    (hn : (n : ℚ) = y * d) : m < n ↔ x < y := by
  rw [← (Nat.cast_lt : (m : ℚ) < n ↔ m < n), hm, hn, mul_lt_mul_iff_left₀ hd]

/-- A point of a grid that the interval has is near to the double. -/
theorem near_of_contains (hpos : 0 < b.mantissa) (h : (Grid.of b e).contains c = true) :
    b.Near (c * 10 ^ e) := by
  have hdenominator := denominator_pos b e
  have hpoint := point_eq b e c
  have hlow := low_eq hpos e
  have hhigh := high_eq b e
  have hclosed : (Grid.of b e).closed = (b.mantissa % 2 == 0) := rfl
  rw [contains, hclosed] at h
  by_cases heven : b.mantissa % 2 = 0
  · simp only [heven, beq_self_eq_true, if_true, Bool.and_eq_true, decide_eq_true_eq] at h
    refine ⟨?_, ?_, fun hodd => absurd hodd (by omega)⟩
    · rw [← not_lt, ← lt_iff_of_eq_mul hdenominator hpoint hlow]
      exact not_lt.2 h.1
    · rw [← not_lt, ← lt_iff_of_eq_mul hdenominator hhigh hpoint]
      exact not_lt.2 h.2
  · have hodd : (b.mantissa % 2 == 0) = false := beq_false_of_ne heven
    simp only [hodd, Bool.false_eq_true, if_false, Bool.and_eq_true, decide_eq_true_eq] at h
    have hbelow := (lt_iff_of_eq_mul hdenominator hlow hpoint).1 h.1
    have habove := (lt_iff_of_eq_mul hdenominator hpoint hhigh).1 h.2
    exact ⟨hbelow.le, habove.le, fun _ => ⟨hbelow, habove⟩⟩

/-- The point that is chosen is one that the interval has. -/
theorem contains_of_nearest? {g : Grid} {tie : Tie} (h : g.nearest? tie = some c) :
    g.contains c = true := by
  unfold nearest? at h
  dsimp only at h
  split at h
  · cases h
  · cases h
    assumption
  · cases h
    assumption
  · split at h
    · cases h
      assumption
    · split at h
      · cases h
        assumption
      · split at h <;> cases h <;> assumption

end Grid

namespace Binary

variable {b : Binary}

theorem low_lt_value (b : Binary) : b.low < b.value := by
  have hreach : 0 < b.reach := by
    rw [reach]
    split <;> norm_num
  exact mul_lt_mul_of_pos_right (by linarith) (two_zpow_pos b.exponent)

theorem value_lt_high (b : Binary) : b.value < b.high :=
  mul_lt_mul_of_pos_right (by linarith) (two_zpow_pos b.exponent)

theorem near_value (b : Binary) : b.Near b.value :=
  ⟨b.low_lt_value.le, b.value_lt_high.le, fun _ => ⟨b.low_lt_value, b.value_lt_high⟩⟩

theorem value_exactDecimal (b : Binary) : b.exactDecimal.value = b.value := by
  unfold exactDecimal Decimal.value value
  split <;> rename_i hexponent
  · obtain ⟨n, hn⟩ := Int.eq_ofNat_of_zero_le hexponent
    rw [hn]
    show ((b.mantissa * 2 ^ n : Nat) : ℚ) * 10 ^ (0 : Int) = b.mantissa * 2 ^ (n : Int)
    push_cast
    rw [mul_one, zpow_natCast]
  · obtain ⟨n, hn⟩ := Int.eq_ofNat_of_zero_le (Int.neg_nonneg.2 (le_of_not_ge hexponent))
    rw [hn, ← neg_neg b.exponent, hn]
    show ((b.mantissa * 5 ^ n : Nat) : ℚ) * 10 ^ (-(n : Int)) = b.mantissa * 2 ^ (-(n : Int))
    have hten : (10 : ℚ) ^ n = 2 ^ n * 5 ^ n := by
      rw [← mul_pow]
      norm_num
    push_cast
    rw [zpow_neg, zpow_neg, zpow_natCast, zpow_natCast, hten]
    field_simp

theorem value_of_whole? {n : Nat} (h : b.whole? = some n) : (n : ℚ) = b.value := by
  unfold whole? at h
  rw [value]
  split at h <;> rename_i hexponent
  · obtain ⟨k, hk⟩ := Int.eq_ofNat_of_zero_le hexponent
    rw [hk] at h ⊢
    obtain rfl : b.mantissa * 2 ^ k = n := Option.some.inj h
    push_cast
    rw [zpow_natCast]
  · obtain ⟨k, hk⟩ := Int.eq_ofNat_of_zero_le (Int.neg_nonneg.2 (le_of_not_ge hexponent))
    rw [← neg_neg b.exponent, hk]
    rw [hk] at h
    have hunit : Nat.pow 2 (k : Int).toNat = 2 ^ k := rfl
    simp only [hunit] at h
    split at h
    · rename_i hmod
      obtain rfl : b.mantissa / 2 ^ k = n := Option.some.inj h
      have hmantissa : b.mantissa = b.mantissa / 2 ^ k * 2 ^ k :=
        (Nat.div_mul_cancel (Nat.dvd_of_mod_eq_zero hmod)).symm
      have hcast : (b.mantissa : ℚ) = (b.mantissa / 2 ^ k : Nat) * 2 ^ k := by
        exact_mod_cast hmantissa
      rw [zpow_neg, zpow_natCast, hcast]
      field_simp
    · cases h

theorem near_of_searchGrids (hpos : 0 < b.mantissa) {tie : Tie} {count : Nat} {e : Int}
    {d : Decimal} (h : b.searchGrids tie count e = some d) : b.Near d.value := by
  induction count generalizing e with
  | zero => cases h
  | succ count ih =>
      rw [searchGrids] at h
      cases hnearest : (Grid.of b e).nearest? tie with
      | some c =>
          rw [hnearest] at h
          obtain rfl := Option.some.inj h
          exact Grid.near_of_contains hpos (Grid.contains_of_nearest? hnearest)
      | none =>
          rw [hnearest] at h
          exact ih h

/-- The shortest decimal is near to the double. -/
theorem near_shortest (hpos : 0 < b.mantissa) (tie : Tie) : b.Near (b.shortest tie).value := by
  rw [shortest, if_neg hpos.ne']
  cases hsearch : b.searchGrids tie 20 b.ceilingExponent with
  | some d => exact near_of_searchGrids hpos hsearch
  | none =>
      rw [Option.getD_none, value_exactDecimal]
      exact b.near_value

end Binary

end Lox.Number
