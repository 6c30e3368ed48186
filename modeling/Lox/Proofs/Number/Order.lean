import Lox.Number.Text
import Lox.Proofs.Number.Bits
import Lox.Proofs.Number.Nearest

set_option autoImplicit false

/-! # Doubles in order

The interval of a double ends where that of a larger one begins, or before
(`Binary.Below.high_le_low`). So the digits of a double are on the side of a bound that the double
is on: `print` writes what is not below `1e-6` and is below `1e21` without an exponent
(`Format.isPositional_printed`).
-/

namespace Lox.Number

open Float.Model Float.Model.UnpackedFloat

namespace Binary

variable {b b' : Binary}

/-- The absolute value is the smaller one. -/
def Below (b b' : Binary) : Prop :=
  b.exponent < b'.exponent ∨ b.exponent = b'.exponent ∧ b.mantissa < b'.mantissa

theorem Below.high_le_low (h : b.Below b') (hb : b.Proper) (hb' : b'.Proper) : b.high ≤ b'.low := by
  have hreach := b'.reach_le
  rcases h with hexponent | ⟨hexponent, hmantissa⟩
  · -- The mantissa is full in the smaller unit, and at least half full in the larger one.
    have hnormal := hb'.normal.resolve_left (by have := hb.le_exponent; omega)
    have hfull : (b.mantissa : ℚ) + 1 ≤ 2 ^ 53 := by exact_mod_cast hb.mantissa_lt
    have hhalf : (2 : ℚ) ^ 52 - 1 / 4 ≤ b'.mantissa - b'.reach := by
      by_cases hfirst : b'.mantissa = 2 ^ 52
      · have hnarrow : b'.reach = 1 / 4 :=
          if_pos (isNarrowBelow_iff.2 ⟨hfirst, by have := hb.le_exponent; omega⟩)
        rw [hnarrow, hfirst]
        push_cast
        exact le_refl _
      · have hmore : (2 : ℚ) ^ 52 + 1 ≤ b'.mantissa := by
          exact_mod_cast Nat.succ_le_of_lt (lt_of_le_of_ne hnormal (Ne.symm hfirst))
        linarith
    have hunit : (2 : ℚ) * 2 ^ b.exponent ≤ 2 ^ b'.exponent := by
      rw [← zpow_one_add₀ (by norm_num)]
      exact zpow_le_zpow_right₀ (by norm_num) (by omega)
    have hpos := two_zpow_pos b.exponent
    calc b.high ≤ (2 ^ 53 - 1 / 2) * 2 ^ b.exponent :=
          mul_le_mul_of_nonneg_right (by linarith) hpos.le
      _ = (2 ^ 52 - 1 / 4) * (2 * 2 ^ b.exponent) := by ring
      _ ≤ b'.low := mul_le_mul hhalf hunit (by positivity) (by linarith)
  · have hnext : (b.mantissa : ℚ) + 1 ≤ b'.mantissa := by exact_mod_cast hmantissa
    rw [high, low, hexponent]
    exact mul_le_mul_of_nonneg_right (by linarith) (two_zpow_pos _).le

end Binary

/-! ## Comparison -/

section Comparison

variable {x y : Float} {b b' : Binary}

theorem compare_finite {m m' : Nat} {e e' : Int} (hm : 0 < m) (hm' : 0 < m') :
    UnpackedFloat.compare (.finite .positive m e hm) (.finite .positive m' e' hm') =
      some ((compare e e').then (compare m m')) := rfl

/-- What is not below a positive double is positive. -/
theorem pos_of_le (hx : Denotation.ofFloat x = .finite b) (hsign : b.negative = false)
    (hpos : 0 < b.mantissa) (hy : Denotation.ofFloat y = .finite b') (hsign' : b'.negative = false)
    (h : x ≤ y) : 0 < b'.mantissa := by
  by_contra hzero
  have hle : UnpackedFloat.le x.toModel.unpack y.toModel.unpack = true := of_decide_eq_true h
  rw [unpack_of_pos hx hsign hpos, unpack_of_zero hy hsign' (Nat.eq_zero_of_not_pos hzero)] at hle
  cases hle

variable (hx : Denotation.ofFloat x = .finite b) (hsign : b.negative = false)
  (hpos : 0 < b.mantissa) (hy : Denotation.ofFloat y = .finite b') (hsign' : b'.negative = false)
  (hpos' : 0 < b'.mantissa)

include hx hsign hpos hy hsign' hpos'

theorem below_of_lt (h : x < y) : b.Below b' := by
  have hlt : UnpackedFloat.lt x.toModel.unpack y.toModel.unpack = true := of_decide_eq_true h
  rw [unpack_of_pos hx hsign hpos, unpack_of_pos hy hsign' hpos', UnpackedFloat.lt,
    compare_finite, beq_iff_eq, Option.some.injEq, Ordering.then_eq_lt, compare_lt_iff_lt,
    compare_eq_iff_eq, compare_lt_iff_lt] at hlt
  exact hlt

theorem below_or_eq_of_le (h : x ≤ y) : b.Below b' ∨ b = b' := by
  have hle : UnpackedFloat.le x.toModel.unpack y.toModel.unpack = true := of_decide_eq_true h
  rw [unpack_of_pos hx hsign hpos, unpack_of_pos hy hsign' hpos', UnpackedFloat.le,
    compare_finite, Option.any_some, Ordering.isLE_iff_eq_lt_or_eq_eq, Ordering.then_eq_lt,
    Ordering.then_eq_eq, compare_lt_iff_lt, compare_eq_iff_eq, compare_lt_iff_lt,
    compare_eq_iff_eq] at hle
  exact hle.imp_right fun ⟨hexponent, hmantissa⟩ =>
    Binary.ext (hsign.trans hsign'.symm) hmantissa hexponent

end Comparison

/-! ## The power of ten of the first digit -/

namespace Decimal

variable {d : Decimal}

theorem pow_leadingExponent_le (h : 0 < d.coefficient) :
    (10 : ℚ) ^ d.leadingExponent ≤ d.value := by
  have hlength : 0 < d.digits.length := Nat.length_toDigits_pos
  have hcoefficient : 10 ^ (d.digits.length - 1) ≤ d.coefficient := by
    by_contra hlt
    rcases Nat.eq_zero_or_pos (d.digits.length - 1) with hone | hmore
    · rw [hone] at hlt
      omega
    · have hle := (Nat.length_toDigits_le_iff (by decide) hmore).2 (not_le.1 hlt)
      rw [← digits] at hle
      omega
  have hexponent : d.leadingExponent = ((d.digits.length - 1 : Nat) : Int) + d.exponent := by
    rw [leadingExponent]
    omega
  rw [hexponent, zpow_add₀ (by norm_num), zpow_natCast, value]
  gcongr
  exact_mod_cast hcoefficient

theorem lt_pow_leadingExponent (d : Decimal) : d.value < (10 : ℚ) ^ (d.leadingExponent + 1) := by
  have hcoefficient : d.coefficient < 10 ^ d.digits.length :=
    (Nat.length_toDigits_le_iff (by decide) Nat.length_toDigits_pos).1 (Nat.le_refl _)
  have hexponent : d.leadingExponent + 1 = (d.digits.length : Int) + d.exponent := by
    rw [leadingExponent]
    omega
  rw [hexponent, zpow_add₀ (by norm_num), zpow_natCast, value]
  gcongr
  exact_mod_cast hcoefficient

end Decimal

/-- The double that is nearest to `1e-6`. -/
def Binary.millionth : Binary := ⟨false, 4722366482869645, -72⟩

/-- The double `1e21`. -/
def Binary.sextillion : Binary := ⟨false, 7629394531250000, 17⟩

theorem ofFloat_millionth : Denotation.ofFloat 1e-6 = .finite .millionth := by decide +kernel

theorem ofFloat_sextillion : Denotation.ofFloat 1e21 = .finite .sextillion := by decide +kernel

theorem value_sextillion : Binary.sextillion.value = 10 ^ (21 : Int) := by
  rw [Binary.value, Binary.sextillion]
  norm_num

theorem shortest_millionth : Binary.millionth.shortest .away = ⟨1, -6⟩ := by decide +kernel

/-- `print` writes an exponent from `1e21` up and below `1e-6` only. -/
theorem Format.isPositional_printed {x : Float} {b : Binary}
    (hx : Denotation.ofFloat x = .finite b) (hsign : b.negative = false) (hle : 1e-6 ≤ x)
    (hlt : x < 1e21) : printed.isPositional (b.shortest .away).leadingExponent = true := by
  have hpos := pos_of_le ofFloat_millionth rfl (by decide) hx hsign hle
  have hb := proper_of_ofBits hx
  have hnear := Binary.near_shortest hpos .away
  have hvalue := hnear.pos hpos
  have hcoefficient : 0 < (b.shortest .away).coefficient := by
    rw [Nat.pos_iff_ne_zero]
    intro hzero
    rw [Decimal.value, hzero, Nat.cast_zero, zero_mul] at hvalue
    exact lt_irrefl 0 hvalue
  have hlow : (10 : ℚ) ^ (-6 : Int) ≤ (b.shortest .away).value := by
    rcases below_or_eq_of_le ofFloat_millionth rfl (by decide) hx hsign hpos hle with hbelow | rfl
    · have hfirst := (Binary.near_shortest (b := .millionth) (by decide) .away).le_high
      rw [shortest_millionth, Decimal.value, Nat.cast_one, one_mul] at hfirst
      exact (hfirst.trans (hbelow.high_le_low (proper_of_ofBits ofFloat_millionth) hb)).trans
        hnear.low_le
    · rw [shortest_millionth, Decimal.value, Nat.cast_one, one_mul]
  have hhigh : (b.shortest .away).value < (10 : ℚ) ^ (21 : Int) := by
    have hbelow := below_of_lt hx hsign hpos ofFloat_sextillion rfl (by decide) hlt
    rw [← value_sextillion]
    exact (hnear.le_high.trans (hbelow.high_le_low hb
      (proper_of_ofBits ofFloat_sextillion))).trans_lt Binary.sextillion.low_lt_value
  have hlow' := hlow.trans_lt (Decimal.lt_pow_leadingExponent _)
  have hhigh' := (Decimal.pow_leadingExponent_le hcoefficient).trans_lt hhigh
  rw [zpow_lt_zpow_iff_right₀ (by norm_num)] at hlow' hhigh'
  simp only [printed, Bool.and_eq_true, decide_eq_true_eq]
  omega

end Lox.Number
