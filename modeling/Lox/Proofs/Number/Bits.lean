import Lox.Proofs.Number.Rounding

set_option autoImplicit false

/-! # The bits of a double

What a double stands for tells its bits (`eq_of_ofFloat_eq`). It is what the bits unpack to
(`unpack_of_ofBits`), so packing what a positive double stands for gives the double back
(`ofModel_pack`).
-/

namespace Lox.Number

open Float.Model Float.Model.UnpackedFloat

/-! ## Fields -/

/-- The exponent field of a double's bits. -/
def fieldOf (bits : Nat) : Nat := bits / 2 ^ 52 % 2 ^ 11

/-- The bits of a double from its fields. -/
theorem eq_of_fields {bits : Nat} (hbits : bits < 2 ^ 64) :
    bits = (if bits.testBit 63 then 2 ^ 63 else 0) + fieldOf bits * 2 ^ 52 + bits % 2 ^ 52 := by
  have hsign : bits.testBit 63 = decide (bits / 2 ^ 63 % 2 = 1) := Nat.testBit_eq_decide_div_mod_eq
  rw [hsign, fieldOf]
  split <;> rename_i h <;> simp only [decide_eq_true_eq] at h <;> omega

theorem ofBits_eq (bits : Nat) :
    Denotation.ofBits bits =
      if fieldOf bits = 2047 then
        if bits % 2 ^ 52 = 0 then .infinite (bits.testBit 63) else .nan
      else if fieldOf bits = 0 then .finite ⟨bits.testBit 63, bits % 2 ^ 52, -1074⟩
      else .finite ⟨bits.testBit 63, 2 ^ 52 + bits % 2 ^ 52, (fieldOf bits : Int) - 1075⟩ := by
  have himplicit : implicitBit = 2 ^ 52 := rfl
  have hfield : (bits >>> 52) % Nat.pow 2 11 = fieldOf bits := by
    rw [Nat.shiftRight_eq_div_pow]
    rfl
  have hlast : fieldOf bits + 1 = Nat.pow 2 11 ↔ fieldOf bits = 2047 :=
    ⟨fun h => Nat.succ.inj h, fun h => congrArg Nat.succ h⟩
  unfold Denotation.ofBits
  simp only [himplicit, hfield, hlast]

section Finite

variable {bits : Nat} {b : Binary}

/-- The mantissa and the exponent of a double are in their ranges. -/
theorem proper_of_ofBits (h : Denotation.ofBits bits = .finite b) : b.Proper := by
  have hfield : fieldOf bits < 2 ^ 11 := Nat.mod_lt _ (by decide)
  have hfraction : bits % 2 ^ 52 < 2 ^ 52 := Nat.mod_lt _ (by decide)
  rw [ofBits_eq] at h
  split at h
  · split at h <;> cases h
  · split at h <;> cases h
    · exact ⟨hfraction.trans (by decide), Int.le_refl _, (by decide : (-1074 : Int) ≤ 971),
        .inl rfl⟩
    · exact ⟨by simp only; omega, by simp only; omega, by simp only; omega,
        .inr (by simp only; omega)⟩

/-- The bits of a finite double from what it stands for. -/
theorem bits_of_ofBits (hbits : bits < 2 ^ 64) (h : Denotation.ofBits bits = .finite b) :
    bits =
      (if b.negative then 2 ^ 63 else 0) + (b.exponent + 1074).toNat * 2 ^ 52 + b.mantissa := by
  have hfields := eq_of_fields hbits
  rw [ofBits_eq] at h
  split at h
  · split at h <;> cases h
  · split at h <;> cases h
    · rename_i hzero
      rw [hzero] at hfields
      simpa using hfields
    · rename_i hzero
      have hexponent : ((fieldOf bits : Int) - 1075 + 1074).toNat + 1 = fieldOf bits := by omega
      rw [← hexponent] at hfields
      refine hfields.trans ?_
      dsimp only
      ring

theorem negative_of_ofBits (h : Denotation.ofBits bits = .finite b) :
    b.negative = bits.testBit 63 := by
  rw [ofBits_eq] at h
  split at h
  · split at h <;> cases h
  · split at h <;> cases h <;> rfl

end Finite

/-- The bits of an infinity. -/
theorem bits_of_infinite {bits : Nat} {negative : Bool} (hbits : bits < 2 ^ 64)
    (h : Denotation.ofBits bits = .infinite negative) :
    bits = (if negative then 2 ^ 63 else 0) + 2047 * 2 ^ 52 := by
  have hfields := eq_of_fields hbits
  rw [ofBits_eq] at h
  split at h
  · rename_i hfull
    split at h <;> cases h
    rename_i hzero
    rwa [hfull, hzero, Nat.add_zero] at hfields
  · split at h <;> cases h

/-! ## Unpacking -/

section Unpacking

variable (bits : BitVec 64)

theorem toNat_unpackExponent :
    (@unpackExponent .binary64 bits).toNat = fieldOf bits.toNat := by
  rw [unpackExponent, BitVec.toNat_cast, BitVec.extractLsb_toNat, Nat.shiftRight_eq_div_pow]
  rfl

theorem toNat_unpackMantissa :
    (@unpackMantissa .binary64 bits).toNat = bits.toNat % 2 ^ 52 := by
  rw [unpackMantissa, BitVec.toNat_cast, BitVec.extractLsb_toNat, Nat.shiftRight_zero]
  rfl

theorem toNat_unpackSign :
    (@unpackSign .binary64 bits).toNat = if bits.toNat.testBit 63 then 1 else 0 := by
  rw [unpackSign, BitVec.toNat_cast, BitVec.extractLsb_toNat, Nat.shiftRight_eq_div_pow,
    Nat.testBit_eq_decide_div_mod_eq]
  show bits.toNat / 2 ^ 63 % 2 ^ 1 = _
  split <;> rename_i h <;> simp only [decide_eq_true_eq] at h <;> omega

end Unpacking

/-- A finite double stands for a number. -/
theorem exists_of_isFinite {x : Float} (h : x.isFinite = true) :
    ∃ b, Denotation.ofFloat x = .finite b := by
  by_cases hfield : fieldOf x.toBits.toNat = 2047
  · -- The exponent field of what is not finite is full.
    have hfull : @unpackExponent .binary64 x.toModel.toBits.toBitVec = -1#_ := by
      apply BitVec.eq_of_toNat_eq
      rw [toNat_unpackExponent]
      exact hfield
    have hnot : x.toModel.unpack.isFinite = false := by
      rw [Float.Model.unpack, UnpackedFloat.unpack, if_pos hfull]
      split <;> rfl
    exact absurd (hnot.symm.trans h) Bool.false_ne_true
  · unfold Denotation.ofFloat
    rw [ofBits_eq, if_neg hfield]
    split <;> exact ⟨_, rfl⟩

/-- What stands for no number is no number. -/
theorem isNaN_of_ofFloat {x : Float} (h : Denotation.ofFloat x = .nan) : x.isNaN = true := by
  unfold Denotation.ofFloat at h
  rw [ofBits_eq] at h
  split at h
  · rename_i hfull
    split at h
    · cases h
    rename_i hfraction
    have hexponent : @unpackExponent .binary64 x.toModel.toBits.toBitVec = -1#_ := by
      apply BitVec.eq_of_toNat_eq
      rw [toNat_unpackExponent]
      exact hfull
    have hmantissa : @unpackMantissa .binary64 x.toModel.toBits.toBitVec ≠ 0#_ := by
      intro hzero
      have hzero := congrArg BitVec.toNat hzero
      rw [toNat_unpackMantissa] at hzero
      exact hfraction hzero
    have hunpack : x.toModel.unpack = .notANumber := by
      rw [Float.Model.unpack, UnpackedFloat.unpack, if_pos hexponent, if_neg hmantissa]
    show x.toModel.unpack.isNaN = true
    rw [hunpack]
    rfl
  · split at h <;> cases h

/-- What stands for the same number is the same double. -/
theorem eq_of_ofFloat_eq {x y : Float} (hx : x.isNaN = false)
    (h : Denotation.ofFloat x = Denotation.ofFloat y) : x = y := by
  apply Float.toBits_inj.1
  apply UInt64.toNat_inj.1
  have hxbits := x.toBits.toNat_lt
  have hybits := y.toBits.toNat_lt
  cases hdenotation : Denotation.ofFloat x with
  | nan =>
      rw [isNaN_of_ofFloat hdenotation] at hx
      cases hx
  | infinite negative =>
      rw [bits_of_infinite hxbits hdenotation, bits_of_infinite hybits (h.symm.trans hdenotation)]
  | finite b =>
      rw [bits_of_ofBits hxbits hdenotation, bits_of_ofBits hybits (h.symm.trans hdenotation)]

/-- What the bits of a double without a sign unpack to. -/
theorem unpack_of_ofBits {bits : BitVec 64} {b : Binary}
    (h : Denotation.ofBits bits.toNat = .finite b) (hsign : b.negative = false) :
    UnpackedFloat.unpack .binary64 bits =
      if h : b.mantissa = 0 then .zero .positive
      else .finite .positive b.mantissa b.exponent (Nat.pos_of_ne_zero h) := by
  have hexponent := toNat_unpackExponent bits
  have hmantissa := toNat_unpackMantissa bits
  have hpositive : @unpackSign .binary64 bits = 0#1 := by
    apply BitVec.eq_of_toNat_eq
    rw [toNat_unpackSign, ← negative_of_ofBits h, hsign]
    rfl
  have hsigned : Sign.ofBitVec (@unpackSign .binary64 bits) = .positive := by
    rw [hpositive]
    rfl
  have hzero : @unpackMantissa .binary64 bits = 0#_ ↔ bits.toNat % 2 ^ 52 = 0 := by
    rw [← BitVec.toNat_inj, hmantissa]
    rfl
  rw [ofBits_eq] at h
  simp only [UnpackedFloat.unpack, hsigned]
  split at h
  · split at h <;> cases h
  · rename_i hfull
    have hne : @unpackExponent .binary64 bits ≠ -1#_ := by
      intro heq
      rw [heq] at hexponent
      exact hfull hexponent.symm
    rw [if_neg hne]
    split at h <;> rename_i hfield <;> cases h
    · have hsubnormal : @unpackExponent .binary64 bits = 0#_ := by
        apply BitVec.eq_of_toNat_eq
        rw [hexponent, hfield]
        rfl
      rw [if_pos hsubnormal]
      by_cases hfraction : bits.toNat % 2 ^ 52 = 0
      · rw [dif_pos (hzero.2 hfraction), dif_pos hfraction]
      · rw [dif_neg (hzero.not.2 hfraction), dif_neg hfraction]
        simp only [hmantissa, hsubnormal]
        rfl
    · have hnormal : @unpackExponent .binary64 bits ≠ 0#_ := by
        intro heq
        rw [heq] at hexponent
        exact hfield hexponent.symm
      have hne : 2 ^ 52 + bits.toNat % 2 ^ 52 ≠ 0 := by omega
      have hbits : (1#1 ++ @unpackMantissa .binary64 bits).toNat =
          2 ^ 52 + bits.toNat % 2 ^ 52 := by
        rw [BitVec.toNat_append, ← Nat.shiftLeft_add_eq_or_of_lt (BitVec.isLt _), hmantissa]
        rfl
      rw [if_neg hnormal, dif_neg hne]
      simp only [hbits, hexponent]
      rfl

section Unsigned

variable {x : Float} {b : Binary} (hx : Denotation.ofFloat x = .finite b)
  (hsign : b.negative = false)

include hx hsign

theorem unpack_of_pos (hpos : 0 < b.mantissa) :
    x.toModel.unpack = .finite .positive b.mantissa b.exponent hpos :=
  (unpack_of_ofBits hx hsign).trans (dif_neg hpos.ne')

theorem unpack_of_zero (hzero : b.mantissa = 0) : x.toModel.unpack = .zero .positive :=
  (unpack_of_ofBits hx hsign).trans (dif_pos hzero)

/-- Packing what a positive double stands for. -/
theorem ofModel_pack (hpos : 0 < b.mantissa) :
    Float.ofModel (.pack (.finite .positive b.mantissa b.exponent hpos)) = x := by
  rw [← unpack_of_pos hx hsign hpos]
  apply Float.toBits_inj.1
  exact congrArg UInt64.ofBitVec (pack_unpack_of_valid x.toModel.valid)

end Unsigned

end Lox.Number
