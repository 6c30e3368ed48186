import Lox.Number.Numeral
import Lox.Proofs.Number.Bits
import Lox.Proofs.Number.Nearest

set_option autoImplicit false

/-! # Reading a decimal

A decimal that is near to a double reads as the double (`ofScientific_eq`, `ofModel_ofScientific`):
a product or a quotient of natural numbers is rounded, and it has enough digits to be rounded right.
So no decimal is near to two doubles (`Binary.Near.unique`).
-/

namespace Lox.Number

open Float.Model Float.Model.UnpackedFloat

variable {b : Binary} {m : Nat} {e : Int}

/-! ## The guards against huge powers -/

theorem le_of_near (hb : b.Proper) (h : b.Near (m * 10 ^ e)) (hm : m ≠ 0) : e ≤ 2 ^ 11 := by
  by_contra hgt
  have hmantissa : (b.mantissa : ℚ) + 1 ≤ 2 ^ 53 := by exact_mod_cast hb.mantissa_lt
  have hone : (1 : ℚ) ≤ m := by exact_mod_cast Nat.one_le_iff_ne_zero.2 hm
  obtain ⟨n, rfl⟩ := Int.eq_ofNat_of_zero_le (a := e) (by omega)
  have : (2 : ℚ) ^ (1024 : Int) < 2 ^ (1024 : Int) := by
    calc (2 : ℚ) ^ (1024 : Int) ≤ 2 ^ (n : Int) := zpow_le_zpow_right₀ (by norm_num) (by omega)
      _ ≤ 10 ^ (n : Int) := by
        rw [zpow_natCast, zpow_natCast]
        exact pow_le_pow_left₀ (by norm_num) (by norm_num) n
      _ ≤ m * 10 ^ (n : Int) := le_mul_of_one_le_left (zpow_pos (by norm_num) _).le hone
      _ ≤ (b.mantissa + 1 / 2) * 2 ^ b.exponent := h.le_high
      _ < 2 ^ 53 * 2 ^ (971 : Int) := by
        have hle := zpow_le_zpow_right₀ (by norm_num : (1 : ℚ) ≤ 2) hb.exponent_le
        refine mul_lt_mul (by linarith) hle (Binary.two_zpow_pos _) (by positivity)
      _ = 2 ^ (1024 : Int) := by
        rw [← zpow_natCast, ← zpow_add₀ (by norm_num)]
        rfl
  exact lt_irrefl _ this

theorem ge_of_near (hb : b.Proper) (hpos : 0 < b.mantissa) (h : b.Near (m * 10 ^ e)) :
    -((2 ^ 11 : Int) + m.log2) ≤ e := by
  by_contra hlt
  have hmantissa : (1 : ℚ) ≤ b.mantissa := by exact_mod_cast hpos
  have hreach := b.reach_le
  have hm : (m : ℚ) ≤ 2 ^ ((m.log2 : Int) + 1) := by exact_mod_cast Nat.lt_log2_self.le
  obtain ⟨n, hn⟩ := Int.eq_ofNat_of_zero_le (a := -e) (by omega)
  obtain rfl : e = -(n : Int) := by omega
  have : (2 : ℚ) ^ (-1075 : Int) < 2 ^ (-1075 : Int) := by
    calc (2 : ℚ) ^ (-1075 : Int) = 1 / 2 * 2 ^ (-1074 : Int) := by
          rw [one_div, ← zpow_neg_one, ← zpow_add₀ (by norm_num)]
          rfl
      _ ≤ (b.mantissa - b.reach) * 2 ^ b.exponent :=
        mul_le_mul (by linarith) (zpow_le_zpow_right₀ (by norm_num) hb.le_exponent)
          (Binary.two_zpow_pos _).le (by linarith)
      _ ≤ m * 10 ^ (-(n : Int)) := h.low_le
      _ ≤ 2 ^ ((m.log2 : Int) + 1) * 2 ^ (-(n : Int)) := by
        refine mul_le_mul hm ?_ (zpow_pos (by norm_num) _).le (Binary.two_zpow_pos _).le
        rw [zpow_neg, zpow_neg, zpow_natCast, zpow_natCast]
        exact inv_anti₀ (by positivity) (pow_le_pow_left₀ (by norm_num) (by norm_num) n)
      _ = 2 ^ ((m.log2 : Int) + 1 + -(n : Int)) := (zpow_add₀ (by norm_num) _ _).symm
      _ < 2 ^ (-1075 : Int) := zpow_lt_zpow_right₀ (by norm_num) (by omega)
  exact lt_irrefl _ this

/-! ## Products and quotients -/

/-- A decimal without places is a product. -/
theorem mul_eq (hb : b.Proper) (hpos : 0 < b.mantissa) {n : Nat} (h : b.Near (m * 10 ^ (n : Int)))
    (hm : m ≠ 0) :
    roundWithAccuracy .binary64 .positive (m <<< 53 * 10 ^ n) (-53) .exact =
      .finite .positive b.mantissa b.exponent hpos := by
  refine roundWithAccuracy_eq hb hpos h _ ?_ ?_
  · have hvalue : ((m : ℚ) * 10 ^ (n : Int) / 2 ^ (-53 : Int) : ℚ) =
        ((m <<< 53 * 10 ^ n : Nat) : ℚ) := by
      rw [Nat.shiftLeft_eq, zpow_neg, zpow_natCast, div_inv_eq_mul]
      push_cast
      ring
    rw [hvalue]
    exact .exact _
  · have hone : 0 < m * 10 ^ n := by positivity
    have hfifty : 2 ^ 53 ≤ m <<< 53 * 10 ^ n := by
      calc 2 ^ 53 ≤ m * 10 ^ n * 2 ^ 53 := Nat.le_mul_of_pos_left _ hone
        _ = m <<< 53 * 10 ^ n := by
          rw [Nat.shiftLeft_eq]
          ring
    have hlog := (Nat.le_log2 (Nat.pos_of_ne_zero (by omega : m <<< 53 * 10 ^ n ≠ 0)).ne').2 hfifty
    rw [targetExponent_eq]
    omega

/-- A division goes on until there are fifty-three bits. -/
theorem le_log2_quotient {n : Nat} {t : Int} (hm : m ≠ 0)
    (ht : t ≤ (m.log2 : Int) - (10 ^ n : Nat).log2 - 53) (htpos : t ≤ 0) :
    52 ≤ (m <<< (-t).toNat / 10 ^ n).log2 := by
  have hten : 0 < 10 ^ n := by positivity
  have hpow : 2 ^ 52 ≤ m <<< (-t).toNat / 10 ^ n := by
    rw [Nat.le_div_iff_mul_le hten, Nat.shiftLeft_eq]
    have hexponent : 52 + ((10 ^ n).log2 + 1) ≤ m.log2 + (-t).toNat := by omega
    calc 2 ^ 52 * 10 ^ n ≤ 2 ^ 52 * 2 ^ ((10 ^ n).log2 + 1) :=
          Nat.mul_le_mul_left _ Nat.lt_log2_self.le
      _ = 2 ^ (52 + ((10 ^ n).log2 + 1)) := (pow_add _ _ _).symm
      _ ≤ 2 ^ (m.log2 + (-t).toNat) := Nat.pow_le_pow_right (by decide) hexponent
      _ = 2 ^ m.log2 * 2 ^ (-t).toNat := pow_add _ _ _
      _ ≤ m * 2 ^ (-t).toNat := Nat.mul_le_mul_right _ (Nat.log2_self_le hm)
  exact (Nat.le_log2 (by omega)).2 hpow

/-- The exponent that a quotient by a power of ten is divided at. -/
def quotientExponent (m n : Nat) : Int :=
  min 0 (max ((m.log2 : Int) - (10 ^ n : Nat).log2 - 53) (-1074))

theorem divCore_eq (m n : Nat) :
    divCore .binary64 m 0 (10 ^ n) 0 =
      (m <<< (-quotientExponent m n).toNat / 10 ^ n, quotientExponent m n,
        accuracyOfFraction (m <<< (-quotientExponent m n).toNat % 10 ^ n) (10 ^ n)) := by
  have ht : min (0 - 0)
      (Format.binary64.targetExponent (totalExponent m 0 - totalExponent (10 ^ n) 0)) =
        quotientExponent m n := by
    simp only [quotientExponent, Format.targetExponent, totalExponent, Format.mantissaBits,
      Format.minExponent]
    norm_num
  rw [divCore, ht]
  simp only [Int.sub_zero, Int.zero_sub]

/-- A division with a rest, in the unit of the quotient. -/
theorem quotient_eq (m n : Nat) {t : Int} (ht : t ≤ 0) :
    (m : ℚ) * 10 ^ (-(n : Int)) / 2 ^ t =
      ((m <<< (-t).toNat / 10 ^ n : Nat) : ℚ) +
        ((m <<< (-t).toNat % 10 ^ n : Nat) : ℚ) / ((10 ^ n : Nat) : ℚ) := by
  have hshift : (2 : ℚ) ^ t = ((2 : ℚ) ^ (-t).toNat)⁻¹ := by
    rw [← zpow_natCast, ← zpow_neg]
    congr 1
    omega
  have hdivision : (m : ℚ) * 2 ^ (-t).toNat = (10 ^ n : Nat) *
      (m <<< (-t).toNat / 10 ^ n : Nat) + (m <<< (-t).toNat % 10 ^ n : Nat) := by
    have hmod := Nat.div_add_mod (m <<< (-t).toNat) (10 ^ n)
    have hshifted : m * 2 ^ (-t).toNat = m <<< (-t).toNat := (Nat.shiftLeft_eq _ _).symm
    exact_mod_cast hshifted.trans hmod.symm
  have hne : ((10 ^ n : Nat) : ℚ) ≠ 0 := Nat.cast_ne_zero.2 (by positivity)
  rw [hshift, div_inv_eq_mul, zpow_neg, zpow_natCast, mul_right_comm, hdivision]
  push_cast at hne ⊢
  field_simp

/-- A decimal with places is a quotient. -/
theorem div_eq (hb : b.Proper) (hpos : 0 < b.mantissa) {n : Nat}
    (h : b.Near (m * 10 ^ (-(n : Int)))) (hm : m ≠ 0) :
    roundWithAccuracy .binary64 .positive (divCore .binary64 m 0 (10 ^ n) 0).1
        (divCore .binary64 m 0 (10 ^ n) 0).2.1 (divCore .binary64 m 0 (10 ^ n) 0).2.2 =
      .finite .positive b.mantissa b.exponent hpos := by
  have hten : 0 < 10 ^ n := by positivity
  have hle : quotientExponent m n ≤ 0 := min_le_left _ _
  have htarget : quotientExponent m n =
      min 0 (max ((m.log2 : Int) - (10 ^ n : Nat).log2 - 53) (-1074)) := rfl
  rw [divCore_eq]
  generalize quotientExponent m n = t at hle htarget
  refine roundWithAccuracy_eq hb hpos h _ ?_ ?_
  · rw [quotient_eq m n hle]
    exact .fraction _ (Nat.mod_lt _ hten)
  · rw [targetExponent_eq]
    dsimp only
    rcases le_or_gt ((m.log2 : Int) - (10 ^ n : Nat).log2 - 53) (-1074) with hmin | hmin
    · omega
    · have hlog := le_log2_quotient (n := n) (t := t) hm (by omega) hle
      omega

/-! ## Decimals -/

/-- A decimal that is near to a positive double reads as the double. -/
theorem ofScientific_eq (hb : b.Proper) (hpos : 0 < b.mantissa) (h : b.Near (m * 10 ^ e)) :
    UnpackedFloat.ofScientific .binary64 m e = .finite .positive b.mantissa b.exponent hpos := by
  have hm : m ≠ 0 := by
    rintro rfl
    simpa using h.pos hpos
  have hlarge : ¬ e > (2 : Int) ^ Format.binary64.exponentBits := not_lt.2 (le_of_near hb h hm)
  have hsmall : ¬ e < -((2 : Int) ^ Format.binary64.exponentBits + m.log2) :=
    not_lt.2 (ge_of_near hb hpos h)
  rw [UnpackedFloat.ofScientific, dif_neg hm, if_neg hlarge, if_neg hsmall]
  cases e with
  | ofNat n => exact mul_eq hb hpos h hm
  | negSucc n => exact div_eq hb hpos h hm

/-- A decimal that is near to a double without a sign reads as the double. -/
theorem ofModel_ofScientific {x : Float} (hx : Denotation.ofFloat x = .finite b)
    (hsign : b.negative = false) (hpos : 0 < b.mantissa) (h : b.Near (m * 10 ^ e)) :
    Float.ofModel (.ofScientific m e) = x := by
  have hmodel : Float.Model.ofScientific m e =
      .pack (.finite .positive b.mantissa b.exponent hpos) := by
    rw [← ofScientific_eq (proper_of_ofBits hx) hpos h]
    rfl
  rw [hmodel]
  exact ofModel_pack hx hsign hpos

/-- A decimal is near to one double only. -/
theorem Binary.Near.unique {b' : Binary} (hb : b.Proper) (hpos : 0 < b.mantissa) (hb' : b'.Proper)
    (hpos' : 0 < b'.mantissa) (h : b.Near (m * 10 ^ e)) (h' : b'.Near (m * 10 ^ e)) :
    b.mantissa = b'.mantissa ∧ b.exponent = b'.exponent := by
  have heq := (ofScientific_eq hb hpos h).symm.trans (ofScientific_eq hb' hpos' h')
  simpa using heq

/-! ## Signs -/

/-- Neither below zero nor the negative zero. -/
inductive Unsigned : UnpackedFloat → Prop
  | zero : Unsigned (.zero .positive)
  | infinity : Unsigned (.infinity .positive)
  | finite (m : Nat) (e : Int) (h : 0 < m) : Unsigned (.finite .positive m e h)

namespace Unsigned

theorem roundWithAccuracy (m : Nat) (e : Int) (accuracy : Accuracy) :
    Unsigned (roundWithAccuracy .binary64 .positive m e accuracy) := by
  unfold UnpackedFloat.roundWithAccuracy
  dsimp only
  split
  · exact .zero
  · exact .finite _ _ _

/-- What a decimal reads as has no sign. -/
theorem ofScientific (m : Nat) (e : Int) : Unsigned (.ofScientific .binary64 m e) := by
  unfold UnpackedFloat.ofScientific
  split
  · exact .zero
  split
  · exact .infinity
  split
  · exact .zero
  split
  · exact roundWithAccuracy _ _ _
  · exact roundWithAccuracy _ _ _

theorem unpackSign_pack {u : UnpackedFloat} (h : Unsigned u) :
    @unpackSign .binary64 (UnpackedFloat.pack .binary64 u) = 0#1 := by
  cases h with
  | zero | infinity => exact unpackSign_packComponents .positive _ _
  | finite m e h =>
      unfold UnpackedFloat.pack
      dsimp only
      split
      · exact unpackSign_packComponents .positive _ _
      · split <;> exact unpackSign_packComponents .positive _ _

end Unsigned

/-- A decimal reads as a double without a sign. -/
theorem negative_ofScientific (hx : Denotation.ofFloat (.ofModel (.ofScientific m e)) = .finite b) :
    b.negative = false := by
  have hsign := toNat_unpackSign (Float.ofModel (.ofScientific m e)).toBits.toBitVec
  have hpack : @unpackSign .binary64 (Float.ofModel (.ofScientific m e)).toBits.toBitVec = 0#1 :=
    (Unsigned.ofScientific m e).unpackSign_pack
  rw [hpack] at hsign
  rw [negative_of_ofBits hx]
  by_contra hnegative
  rw [Bool.not_eq_false] at hnegative
  rw [UInt64.toNat_toBitVec, hnegative] at hsign
  cases hsign

end Lox.Number
