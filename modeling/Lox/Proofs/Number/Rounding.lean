import Lox.Number.Binary
import Mathlib

set_option autoImplicit false

/-! # Rounding to the nearest double

The reals nearest to a positive double form an interval around it (`Binary.Near`): up to half the
distance to each neighbour, with the ends if the mantissa is even. Rounding any real of the interval
gives this double (`roundWithAccuracy_eq`). Rounding keeps a mantissa and two bits that stand for
the digits after it, and the invariant is what the three of them say of the real (`Represents`).
-/

namespace Lox.Number

open Float.Model Float.Model.UnpackedFloat

/-! ## Intervals -/

namespace Binary

/-- The mantissa and the exponent are those of a double. -/
structure Proper (b : Binary) : Prop where
  mantissa_lt : b.mantissa < 2 ^ 53
  le_exponent : -1074 ≤ b.exponent
  exponent_le : b.exponent ≤ 971
  normal : b.exponent = -1074 ∨ 2 ^ 52 ≤ b.mantissa

/-- How far the interval goes below the mantissa, in units of the mantissa. -/
def reach (b : Binary) : ℚ := if b.isNarrowBelow then 1 / 4 else 1 / 2

/-- The lower end of the interval. -/
def low (b : Binary) : ℚ := (b.mantissa - b.reach) * 2 ^ b.exponent

/-- The upper end of the interval. -/
def high (b : Binary) : ℚ := (b.mantissa + 1 / 2) * 2 ^ b.exponent

/-- No double is nearer to the number than the absolute value of this one, and if another one is as
near, this one is even. -/
structure Near (b : Binary) (v : ℚ) : Prop where
  low_le : b.low ≤ v
  le_high : v ≤ b.high
  inside : b.mantissa % 2 = 1 → b.low < v ∧ v < b.high

variable {b : Binary} {v : ℚ}

theorem isNarrowBelow_iff : b.isNarrowBelow = true ↔ b.mantissa = 2 ^ 52 ∧ b.exponent ≠ -1074 := by
  simp [isNarrowBelow, implicitBit]

theorem reach_le (b : Binary) : b.reach ≤ 1 / 2 := by
  rw [reach]
  split <;> norm_num

theorem two_zpow_pos (e : Int) : (0 : ℚ) < 2 ^ e := zpow_pos (by norm_num) e

theorem two_pow_mul_zpow (n : Nat) (e : Int) : (2 : ℚ) ^ n * 2 ^ e = 2 ^ ((n : Int) + e) := by
  rw [zpow_add₀ (by norm_num), zpow_natCast]

/-- The mantissa and half a unit around it, unless the double is narrow below. -/
theorem Near.div_bounds (h : b.Near v) :
    (b.mantissa : ℚ) - b.reach ≤ v / 2 ^ b.exponent ∧
      v / 2 ^ b.exponent ≤ (b.mantissa : ℚ) + 1 / 2 := by
  have hpos := two_zpow_pos b.exponent
  exact ⟨(le_div_iff₀ hpos).2 h.low_le, (div_le_iff₀ hpos).2 h.le_high⟩

theorem Near.pos (h : b.Near v) (hmantissa : 0 < b.mantissa) : 0 < v := by
  have hmantissa : (1 : ℚ) ≤ b.mantissa := by exact_mod_cast hmantissa
  have hreach := b.reach_le
  have hlow : 0 < b.low := mul_pos (by linarith) (two_zpow_pos _)
  exact hlow.trans_le h.low_le

end Binary

/-! ## Residual bits -/

/-- The mantissa is the whole part of the number, and the two bits place the rest: at zero, below a
half, at a half or above it. -/
def Represents (em : ExtendedMantissa) (y : ℚ) : Prop :=
  match em.roundBit, em.stickyBit with
  | false, false => y = em.mantissa
  | false, true => (em.mantissa : ℚ) < y ∧ y < em.mantissa + 1 / 2
  | true, false => y = em.mantissa + 1 / 2
  | true, true => (em.mantissa : ℚ) + 1 / 2 < y ∧ y < em.mantissa + 1

namespace Represents

variable {em : ExtendedMantissa} {y : ℚ}

theorem bounds (h : Represents em y) : (em.mantissa : ℚ) ≤ y ∧ y < em.mantissa + 1 := by
  obtain ⟨m, r, s⟩ := em
  cases r <;> cases s <;> simp only [Represents] at h <;> constructor <;> linarith

theorem exact (m : Nat) : Represents (.ofMantissaAndAccuracy m .exact) m := rfl

/-- A fraction that is left of a division. -/
theorem fraction (m : Nat) {num den : Nat} (h : num < den) :
    Represents (.ofMantissaAndAccuracy m (accuracyOfFraction num den)) (m + num / den) := by
  have hden : (0 : ℚ) < den := by exact_mod_cast (Nat.zero_le num).trans_lt h
  have hlt : (num : ℚ) / den < 1 := by
    rw [div_lt_iff₀ hden, one_mul]
    exact_mod_cast h
  unfold accuracyOfFraction
  by_cases hnum : num = 0
  · rw [if_pos hnum, hnum]
    simp [Represents, ExtendedMantissa.ofMantissaAndAccuracy]
  · have hpos : (0 : ℚ) < num / den :=
      div_pos (by exact_mod_cast Nat.pos_of_ne_zero hnum) hden
    rw [if_neg hnum]
    rcases Nat.lt_trichotomy (2 * num) den with hcmp | hcmp | hcmp
    · have hhalf : (num : ℚ) / den < 1 / 2 := by
        have hcast : (2 : ℚ) * num < den := by exact_mod_cast hcmp
        rw [div_lt_iff₀ hden]
        linarith
      rw [Nat.compare_eq_lt.2 hcmp]
      exact ⟨lt_add_of_pos_right _ hpos, add_lt_add_right hhalf _⟩
    · have hhalf : (num : ℚ) / den = 1 / 2 := by
        have hcast : (2 : ℚ) * num = den := by exact_mod_cast hcmp
        rw [div_eq_iff hden.ne']
        linarith
      rw [Nat.compare_eq_eq.2 hcmp, hhalf]
      rfl
    · have hhalf : 1 / 2 < (num : ℚ) / den := by
        have hcast : (den : ℚ) < 2 * num := by exact_mod_cast hcmp
        rw [lt_div_iff₀ hden]
        linarith
      rw [Nat.compare_eq_gt.2 hcmp]
      exact ⟨add_lt_add_right hhalf _, add_lt_add_right hlt _⟩

theorem shiftRightOne (h : Represents em y) : Represents em.shiftRightOne (y / 2) := by
  obtain ⟨m, r, s⟩ := em
  -- The bit that is shifted out becomes the round bit, and the other two become the sticky bit.
  have hcast : (m : ℚ) = 2 * (m / 2 : Nat) + (m % 2 : Nat) := by
    exact_mod_cast (Nat.div_add_mod m 2).symm
  have hone : ((1 : Nat) != 0) = true := rfl
  rcases Nat.mod_two_eq_zero_or_one m with hmod | hmod <;> cases r <;> cases s <;>
    simp only [Represents, ExtendedMantissa.shiftRightOne, hmod, hone, bne_self_eq_false,
      Bool.or_false, Bool.or_true] at h hcast ⊢ <;>
    push_cast at hcast <;> first | linarith | constructor <;> linarith

theorem shiftRight (h : Represents em y) (n : Nat) : Represents (em >>> n) (y / 2 ^ n) := by
  induction n with
  | zero =>
      rw [pow_zero, div_one]
      exact h
  | succ n ih =>
      have hstep := ih.shiftRightOne
      rw [div_div, ← pow_succ] at hstep
      exact hstep

/-- What lies within half a unit of a number is rounded to it, at the ends if it is even. -/
theorem roundedMantissa_eq (h : Represents em y) {n : Nat} (hlow : (n : ℚ) - 1 / 2 ≤ y)
    (hhigh : y ≤ n + 1 / 2) (hodd : n % 2 = 1 → (n : ℚ) - 1 / 2 < y ∧ y < n + 1 / 2) :
    em.roundedMantissa = n := by
  -- The whole part is the number itself or the one before it.
  have hbounds := h.bounds
  have hle : em.mantissa ≤ n := by
    have hlt : (em.mantissa : ℚ) < (n + 1 : Nat) := by push_cast; linarith
    exact Nat.le_of_lt_succ (by exact_mod_cast hlt)
  have hge : n ≤ em.mantissa + 1 := by
    have hlt : (n : ℚ) < (em.mantissa + 2 : Nat) := by push_cast; linarith
    exact Nat.le_of_lt_succ (by exact_mod_cast hlt)
  obtain ⟨m, r, s⟩ := em
  rcases Nat.eq_or_lt_of_le hle with hm | hm
  · subst hm
    cases r <;> cases s <;> simp only [Represents] at h
    · rfl
    · rfl
    · rcases Nat.mod_two_eq_zero_or_one m with hmod | hmod
      · simp [ExtendedMantissa.roundedMantissa, ExtendedMantissa.accuracy,
          Accuracy.roundToNearestEven, hmod]
      · linarith [(hodd hmod).2]
    · linarith
  · obtain rfl : n = m + 1 := by
      simp only at hge hm
      omega
    push_cast at hlow hodd
    cases r <;> cases s <;> simp only [Represents] at h
    · linarith
    · linarith
    · rcases Nat.mod_two_eq_zero_or_one m with hmod | hmod
      · have hmod : (m + 1) % 2 = 1 := by omega
        linarith [(hodd hmod).1]
      · simp [ExtendedMantissa.roundedMantissa, ExtendedMantissa.accuracy,
          Accuracy.roundToNearestEven, hmod]
    · rfl

end Represents

/-! ## The unit of the result -/

/-- Numbers of the size of `v` are rounded to multiples of two to the power of `t`. -/
structure RoundsAt (t : Int) (v : ℚ) : Prop where
  le : -1074 ≤ t
  lt : v < 2 ^ (53 + t)
  normal : t = -1074 ∨ 2 ^ (52 + t) ≤ v

theorem targetExponent_eq (m : Nat) (e : Int) :
    Format.binary64.targetExponent (totalExponent m e) = max (m.log2 + e - 52) (-1074) := by
  simp only [Format.targetExponent, totalExponent, Format.mantissaBits, Format.minExponent]
  norm_num
  omega

theorem mantissa_ofMantissaAndAccuracy (m : Nat) (accuracy : Accuracy) :
    (ExtendedMantissa.ofMantissaAndAccuracy m accuracy).mantissa = m := by
  cases accuracy with
  | exact => rfl
  | inexact ordering => cases ordering <;> rfl

theorem Represents.roundsAt {m : Nat} {e : Int} {accuracy : Accuracy} {v : ℚ}
    (h : Represents (.ofMantissaAndAccuracy m accuracy) (v / 2 ^ e))
    (he : e ≤ Format.binary64.targetExponent (totalExponent m e)) :
    RoundsAt (Format.binary64.targetExponent (totalExponent m e)) v := by
  have htwo : (2 : ℚ) ≠ 0 := by norm_num
  obtain ⟨hle, hlt⟩ := h.bounds
  rw [mantissa_ofMantissaAndAccuracy, le_div_iff₀ (Binary.two_zpow_pos e)] at hle
  rw [mantissa_ofMantissaAndAccuracy, div_lt_iff₀ (Binary.two_zpow_pos e)] at hlt
  rw [targetExponent_eq] at he ⊢
  refine ⟨le_max_right _ _, ?_, ?_⟩
  · have hm : ((m : ℚ) + 1) ≤ 2 ^ ((m.log2 : Int) + 1) := by
      exact_mod_cast Nat.lt_log2_self
    calc v < (m + 1) * 2 ^ e := hlt
      _ ≤ 2 ^ ((m.log2 : Int) + 1) * 2 ^ e := by gcongr
      _ = 2 ^ ((m.log2 : Int) + 1 + e) := (zpow_add₀ htwo _ _).symm
      _ ≤ 2 ^ (53 + max ((m.log2 : Int) + e - 52) (-1074)) :=
        zpow_le_zpow_right₀ (by norm_num) (by omega)
  · rcases le_or_gt ((m.log2 : Int) + e - 52) (-1074) with hmin | hmin
    · exact .inl (max_eq_right hmin)
    · -- There are fifty-three bits at least, so the first one says how large the number is.
      rw [max_eq_left hmin.le] at he ⊢
      have hm : (2 : ℚ) ^ (m.log2 : Int) ≤ m := by
        have hne : m ≠ 0 := by
          rintro rfl
          simp at he
        exact_mod_cast Nat.log2_self_le hne
      refine .inr ?_
      calc (2 : ℚ) ^ (52 + ((m.log2 : Int) + e - 52)) = 2 ^ (m.log2 : Int) * 2 ^ e := by
            rw [← zpow_add₀ htwo]
            congr 1
            omega
        _ ≤ m * 2 ^ e := by gcongr
        _ ≤ v := hle

namespace Binary.Near

variable {b : Binary} {v : ℚ} {t : Int}

/-- What is near to a double is not rounded in a larger unit. -/
theorem le_exponent_of_roundsAt (h : b.Near v) (hb : b.Proper) (ht : RoundsAt t v) :
    t ≤ b.exponent := by
  by_contra hgt
  have hmantissa : (b.mantissa : ℚ) + 1 ≤ 2 ^ 53 := by exact_mod_cast hb.mantissa_lt
  have hunit := two_zpow_pos b.exponent
  have hnormal := ht.normal.resolve_left (by have := hb.le_exponent; omega)
  have : v < v := by
    calc v ≤ (b.mantissa + 1 / 2) * 2 ^ b.exponent := h.le_high
      _ < 2 ^ 53 * 2 ^ b.exponent := by gcongr; linarith
      _ = 2 ^ (53 + b.exponent) := two_pow_mul_zpow 53 _
      _ ≤ 2 ^ (52 + t) := zpow_le_zpow_right₀ (by norm_num) (by omega)
      _ ≤ v := hnormal
  exact lt_irrefl v this

/-- Of what is near to a double, only what lies below a power of two is rounded in a smaller unit.
-/
theorem mantissa_of_roundsAt_lt (h : b.Near v) (hb : b.Proper) (ht : RoundsAt t v)
    (hlt : t < b.exponent) : b.mantissa = 2 ^ 52 := by
  have hnormal := hb.normal.resolve_left (by have := ht.le; omega)
  have hbelow : v < 2 ^ 52 * 2 ^ b.exponent := by
    calc v < 2 ^ (53 + t) := ht.lt
      _ ≤ 2 ^ (52 + b.exponent) := zpow_le_zpow_right₀ (by norm_num) (by omega)
      _ = 2 ^ 52 * 2 ^ b.exponent := (two_pow_mul_zpow 52 _).symm
  have hdiv : v / 2 ^ b.exponent < 2 ^ 52 := (div_lt_iff₀ (two_zpow_pos b.exponent)).2 hbelow
  have hlow := h.div_bounds.1
  have hreach := b.reach_le
  have hcast : (b.mantissa : ℚ) < (2 ^ 52 + 1 : Nat) := by
    push_cast
    linarith
  have hle : b.mantissa < 2 ^ 52 + 1 := by exact_mod_cast hcast
  omega

/-- What is near to a double is rounded in its unit, unless it lies below a power of two, where the
unit is half as large. -/
theorem exponent_of_roundsAt (h : b.Near v) (hb : b.Proper) (ht : RoundsAt t v) :
    t = b.exponent ∨ t + 1 = b.exponent ∧ b.mantissa = 2 ^ 52 := by
  rcases (h.le_exponent_of_roundsAt hb ht).lt_or_eq with hlt | heq
  · have hmantissa := h.mantissa_of_roundsAt_lt hb ht hlt
    refine .inr ⟨?_, hmantissa⟩
    by_contra hne
    -- A quarter of a unit does not reach down to where the unit is a fourth.
    have hlarge : (2 : ℚ) ^ 51 < v / 2 ^ b.exponent := by
      have hlow := h.div_bounds.1
      have hreach := b.reach_le
      rw [hmantissa] at hlow
      push_cast at hlow
      linarith
    have : v < v := by
      calc v < 2 ^ (53 + t) := ht.lt
        _ ≤ 2 ^ (51 + b.exponent) := zpow_le_zpow_right₀ (by norm_num) (by omega)
        _ = 2 ^ 51 * 2 ^ b.exponent := (two_pow_mul_zpow 51 _).symm
        _ < v := (lt_div_iff₀ (two_zpow_pos b.exponent)).1 hlarge
    exact lt_irrefl v this
  · exact .inl heq

end Binary.Near

/-! ## Rounding -/

/-- Up to fifty-three bits stay as they are. -/
theorem shiftToTargetExponent_of_lt {m : Nat} {e : Int} (hm : m < 2 ^ 53) (he : -1074 ≤ e) :
    shiftToTargetExponent .binary64 m e .exact = (⟨m, false, false⟩, e) := by
  have hlog : m.log2 ≤ 52 := by
    by_cases hzero : m = 0
    · rw [hzero]
      decide
    · exact Nat.le_of_lt_succ ((Nat.log2_lt hzero).2 hm)
  have hshift : (Format.binary64.targetExponent (totalExponent m e) - e).toNat = 0 := by
    rw [targetExponent_eq]
    omega
  rw [shiftToTargetExponent, shiftToExponent, hshift]
  exact congrArg (Prod.mk _) (Int.add_zero e)

/-- A carry out of fifty-three bits leaves one bit. -/
theorem shiftToTargetExponent_carry {e : Int} (he : -1074 ≤ e) :
    shiftToTargetExponent .binary64 (2 ^ 53) e .exact = (⟨2 ^ 52, false, false⟩, e + 1) := by
  have hshift : (Format.binary64.targetExponent (totalExponent (2 ^ 53) e) - e).toNat = 1 := by
    rw [targetExponent_eq, Nat.log2_two_pow]
    omega
  rw [shiftToTargetExponent, shiftToExponent, hshift]
  rfl

variable {b : Binary} {v : ℚ} {m : Nat} {e : Int} {accuracy : Accuracy}

/-- What is near to a double is rounded to its mantissa in its unit. -/
theorem roundedMantissa_of_near {em : ExtendedMantissa} (hv : b.Near v)
    (h : Represents em (v / 2 ^ b.exponent)) : em.roundedMantissa = b.mantissa := by
  obtain ⟨hlow, hhigh⟩ := hv.div_bounds
  have hreach := b.reach_le
  refine h.roundedMantissa_eq (by linarith) hhigh fun hodd => ?_
  have hinside := hv.inside hodd
  have hunit := Binary.two_zpow_pos b.exponent
  have hbelow := (lt_div_iff₀ hunit).2 hinside.1
  have habove := (div_lt_iff₀ hunit).2 hinside.2
  exact ⟨by linarith, habove⟩

/-- Just below a power of two, the mantissa is rounded up to the next power of two. -/
theorem roundedMantissa_of_carry {em : ExtendedMantissa} {t : Int} (hv : b.Near v)
    (ht : RoundsAt t v) (hnext : t + 1 = b.exponent) (hmantissa : b.mantissa = 2 ^ 52)
    (h : Represents em (v / 2 ^ t)) : em.roundedMantissa = 2 ^ 53 := by
  have htwo : (2 : ℚ) ≠ 0 := by norm_num
  have hnarrow : b.reach = 1 / 4 :=
    if_pos (Binary.isNarrowBelow_iff.2 ⟨hmantissa, by have := ht.le; omega⟩)
  have hunit : v / 2 ^ t = 2 * (v / 2 ^ b.exponent) := by
    rw [← hnext, zpow_add₀ htwo, zpow_one, ← div_div]
    ring
  have hbelow : v / 2 ^ t < 2 ^ 53 := by
    rw [div_lt_iff₀ (Binary.two_zpow_pos t), Binary.two_pow_mul_zpow]
    exact ht.lt
  have hlow := hv.div_bounds.1
  rw [hnarrow, hmantissa] at hlow
  push_cast at hlow
  refine h.roundedMantissa_eq ?_ ?_ fun hodd => absurd hodd (by decide)
  · push_cast
    linarith
  · push_cast
    linarith

/-- What is near to a positive double is rounded to it. The mantissa at hand must have enough
digits: its exponent is not above that of the result. -/
theorem roundWithAccuracy_eq (hb : b.Proper) (hpos : 0 < b.mantissa) (hv : b.Near v) (s : Sign)
    (h : Represents (.ofMantissaAndAccuracy m accuracy) (v / 2 ^ e))
    (he : e ≤ Format.binary64.targetExponent (totalExponent m e)) :
    roundWithAccuracy .binary64 s m e accuracy = .finite s b.mantissa b.exponent hpos := by
  have htwo : (2 : ℚ) ≠ 0 := by norm_num
  have hrounds := h.roundsAt he
  generalize htarget : Format.binary64.targetExponent (totalExponent m e) = t at he hrounds
  -- The first shift.
  have hexponent : e + ((t - e).toNat : Int) = t := by omega
  have hfirst : shiftToTargetExponent .binary64 m e accuracy =
      (ExtendedMantissa.ofMantissaAndAccuracy m accuracy >>> (t - e).toNat, t) := by
    rw [shiftToTargetExponent, htarget, shiftToExponent, hexponent]
  have hshifted := h.shiftRight (t - e).toNat
  rw [div_div, ← zpow_natCast, ← zpow_add₀ htwo, hexponent] at hshifted
  generalize ExtendedMantissa.ofMantissaAndAccuracy m accuracy >>> (t - e).toNat = em
    at hfirst hshifted
  rcases hv.exponent_of_roundsAt hb hrounds with rfl | ⟨hnext, hmantissa⟩
  · simp only [roundWithAccuracy, hfirst, roundedMantissa_of_near hv hshifted,
      shiftToTargetExponent_of_lt hb.mantissa_lt hb.le_exponent, hpos.ne', dite_false]
  · have hne : (2 ^ 52 : Nat) ≠ 0 := by decide
    simp only [roundWithAccuracy, hfirst,
      roundedMantissa_of_carry hv hrounds hnext hmantissa hshifted,
      shiftToTargetExponent_carry hrounds.le, hne, dite_false, hnext, hmantissa]

end Lox.Number
