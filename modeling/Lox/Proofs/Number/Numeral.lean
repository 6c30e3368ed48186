import Lox.Number.Text
import Lox.Proofs.Number.Reading
import Lox.Proofs.Scanning.Lexeme

set_option autoImplicit false

/-! # Decimals as numerals

A decimal with its point in place is a numeral of the number that the decimal is
(`Writes.positional`). If this number is near to a double, the value of the numeral is the double
(`Writes.ofNumeral_eq`).
-/

namespace Lox

namespace Number

/-- The decimal that a numeral writes. -/
def Decimal.ofNumeral (cs : List Char) : Decimal where
  coefficient := Nat.ofDigitChars 10 ((splitNumeral cs).1 ++ (splitNumeral cs).2) 0
  exponent := -((splitNumeral cs).2.length : Int)

/-- The text is a numeral of this number. -/
structure Writes (text : List Char) (v : ℚ) : Prop where
  numeral : Numeral text
  value : (Decimal.ofNumeral text).value = v

theorem splitNumeral_whole {digits : List Char} (h : ∀ c ∈ digits, c.isDigit = true) :
    splitNumeral digits = (digits, []) := by
  have hne : ∀ c ∈ digits, (c != '.') = true := fun c hc =>
    bne_iff_ne.2 (ne_of_class (by decide) (h c hc))
  rw [splitNumeral, ← List.append_nil digits, List.takeWhile_append_of_pos hne,
    List.dropWhile_append_of_pos hne]
  rfl

theorem splitNumeral_decimal {digits : List Char} (h : ∀ c ∈ digits, c.isDigit = true)
    (fraction : List Char) : splitNumeral (digits ++ '.' :: fraction) = (digits, fraction) := by
  have hne : ∀ c ∈ digits, (c != '.') = true := fun c hc =>
    bne_iff_ne.2 (ne_of_class (by decide) (h c hc))
  rw [splitNumeral, List.takeWhile_append_of_pos hne, List.dropWhile_append_of_pos hne]
  simp

namespace Writes

variable {text : List Char} {v : ℚ}

/-- A numeral is of one number only. -/
theorem unique {v' : ℚ} (h : Writes text v) (h' : Writes text v') : v = v' :=
  h.value.symm.trans h'.value

theorem whole {digits : List Char} (hne : digits ≠ []) (h : ∀ c ∈ digits, c.isDigit = true) :
    Writes digits (Nat.ofDigitChars 10 digits 0) where
  numeral := .whole hne h
  value := by
    rw [Decimal.ofNumeral, splitNumeral_whole h]
    simp [Decimal.value]

theorem decimal {digits fraction : List Char} (hne : digits ≠ [])
    (h : ∀ c ∈ digits, c.isDigit = true) (hne' : fraction ≠ [])
    (h' : ∀ c ∈ fraction, c.isDigit = true) :
    Writes (digits ++ '.' :: fraction)
      (Nat.ofDigitChars 10 (digits ++ fraction) 0 * 10 ^ (-(fraction.length : Int))) where
  numeral := .decimal hne h hne' h'
  value := by
    rw [Decimal.ofNumeral, splitNumeral_decimal h]
    rfl

end Writes

/-! ## Texts of decimals -/

theorem forall_isDigit_toDigits (n : Nat) : ∀ c ∈ Nat.toDigits 10 n, c.isDigit = true :=
  fun _ => Nat.isDigit_of_mem_toDigits (by decide) (by decide)

theorem forall_isDigit_zeros (n : Nat) : ∀ c ∈ List.replicate n '0', c.isDigit = true := by
  intro c hc
  rw [List.eq_of_mem_replicate hc]
  rfl

theorem forall_isDigit_append {ds es : List Char} (h : ∀ c ∈ ds, c.isDigit = true)
    (h' : ∀ c ∈ es, c.isDigit = true) : ∀ c ∈ ds ++ es, c.isDigit = true := by
  intro c hc
  rcases List.mem_append.1 hc with hc | hc
  · exact h c hc
  · exact h' c hc

namespace Decimal

theorem digits_ne_nil (d : Decimal) : d.digits ≠ [] := Nat.toDigits_ne_nil

theorem forall_isDigit_digits (d : Decimal) : ∀ c ∈ d.digits, c.isDigit = true :=
  forall_isDigit_toDigits _

theorem ofDigitChars_digits (d : Decimal) : Nat.ofDigitChars 10 d.digits 0 = d.coefficient :=
  Nat.ofDigitChars_ten_toDigits

/-- Zeros after the digits multiply by a power of ten. -/
theorem ofDigitChars_digits_zeros (d : Decimal) (n : Nat) :
    Nat.ofDigitChars 10 (d.digits ++ List.replicate n '0') 0 = d.coefficient * 10 ^ n := by
  rw [Nat.ofDigitChars_append, d.ofDigitChars_digits, Nat.ofDigitChars_replicate_zero, mul_comm]

/-- Zeros before the digits do not count. -/
theorem ofDigitChars_zeros_digits (d : Decimal) (n : Nat) :
    Nat.ofDigitChars 10 (['0'] ++ (List.replicate n '0' ++ d.digits)) 0 = d.coefficient := by
  rw [Nat.ofDigitChars_append, Nat.ofDigitChars_append, Nat.ofDigitChars_replicate_zero]
  exact d.ofDigitChars_digits

end Decimal

namespace Writes

/-- `.0` after the digits of a whole number does not change it. -/
theorem pointZero {digits : List Char} (hne : digits ≠ []) (h : ∀ c ∈ digits, c.isDigit = true) :
    Writes (digits ++ ['.', '0']) (Nat.ofDigitChars 10 digits 0) := by
  have hwrites := decimal hne h (List.cons_ne_nil '0' []) (forall_isDigit_zeros 1)
  have hzero : Nat.ofDigitChars 10 (digits ++ ['0']) 0 = 10 * Nat.ofDigitChars 10 digits 0 :=
    Nat.ofDigitChars_append 0
  refine ⟨hwrites.numeral, hwrites.value.trans ?_⟩
  rw [hzero]
  push_cast
  norm_num
  ring

/-- A whole number with `.0` after it. -/
theorem exact (n : Nat) : Writes (Nat.toDigits 10 n ++ ['.', '0']) n := by
  have hwrites := pointZero Nat.toDigits_ne_nil (forall_isDigit_toDigits n)
  rwa [Nat.ofDigitChars_ten_toDigits] at hwrites

/-- The digits with zeros after them, with a point or without one. -/
theorem padded (d : Decimal) (n : Nat) (keepsPoint : Bool) :
    Writes (d.digits ++ List.replicate n '0' ++ (if keepsPoint then ['.', '0'] else []))
      (d.coefficient * 10 ^ (n : Int)) := by
  have hvalue : ((Nat.ofDigitChars 10 (d.digits ++ List.replicate n '0') 0 : Nat) : ℚ) =
      d.coefficient * 10 ^ (n : Int) := by
    rw [d.ofDigitChars_digits_zeros, zpow_natCast]
    push_cast
    rfl
  have hne : d.digits ++ List.replicate n '0' ≠ [] :=
    List.append_ne_nil_of_left_ne_nil d.digits_ne_nil _
  have hall := forall_isDigit_append d.forall_isDigit_digits (forall_isDigit_zeros n)
  rw [← hvalue]
  cases keepsPoint with
  | false =>
      rw [if_neg Bool.false_ne_true, List.append_nil]
      exact whole hne hall
  | true => exact pointZero hne hall

/-- The digits with a point between two of them. -/
theorem pointed (d : Decimal) {places : Nat} (hpos : 0 < places)
    (hlength : places < d.digits.length) :
    Writes (d.digits.take (d.digits.length - places) ++
        '.' :: d.digits.drop (d.digits.length - places))
      (d.coefficient * 10 ^ (-(places : Int))) := by
  have hleft : d.digits.take (d.digits.length - places) ≠ [] := by
    rw [Ne, List.take_eq_nil_iff]
    exact not_or.2 ⟨by omega, d.digits_ne_nil⟩
  have hright : (d.digits.drop (d.digits.length - places)).length = places := by
    rw [List.length_drop]
    omega
  have hright' : d.digits.drop (d.digits.length - places) ≠ [] := by
    apply List.ne_nil_of_length_pos
    omega
  have hwrites := decimal hleft (fun c hc => d.forall_isDigit_digits c (List.mem_of_mem_take hc))
    hright' (fun c hc => d.forall_isDigit_digits c (List.mem_of_mem_drop hc))
  rwa [List.take_append_drop, d.ofDigitChars_digits, hright] at hwrites

/-- The digits after the point, with zeros between. -/
theorem afterPoint (d : Decimal) {places : Nat} (hlength : d.digits.length ≤ places) :
    Writes ('0' :: '.' :: (List.replicate (places - d.digits.length) '0' ++ d.digits))
      (d.coefficient * 10 ^ (-(places : Int))) := by
  have hplaces : (List.replicate (places - d.digits.length) '0' ++ d.digits).length = places := by
    rw [List.length_append, List.length_replicate]
    omega
  have hall := forall_isDigit_append (forall_isDigit_zeros (places - d.digits.length))
    d.forall_isDigit_digits
  have hwrites := decimal (List.cons_ne_nil '0' []) (forall_isDigit_zeros 1)
    (List.append_ne_nil_of_right_ne_nil _ d.digits_ne_nil) hall
  rwa [d.ofDigitChars_zeros_digits, hplaces] at hwrites

/-- A decimal with its point in place. -/
theorem positional (d : Decimal) (keepsPoint : Bool) :
    Writes (d.positional keepsPoint) d.value := by
  rw [Decimal.positional, Decimal.value]
  dsimp only
  split <;> rename_i hexponent
  · obtain ⟨n, hn⟩ := Int.eq_ofNat_of_zero_le hexponent
    rw [hn, Int.toNat_natCast]
    exact padded d n keepsPoint
  · obtain ⟨places, hplaces⟩ := Int.eq_ofNat_of_zero_le (a := -d.exponent) (by omega)
    have hexponent' : d.exponent = -(places : Int) := by omega
    rw [hplaces, Int.toNat_natCast, hexponent']
    split <;> rename_i hlength
    · exact pointed d (by omega) hlength
    · exact afterPoint d (not_lt.1 hlength)

end Writes

/-! ## Reading back -/

/-- What a decimal must be to read as a double without a sign. -/
structure Binary.Reads (b : Binary) (v : ℚ) : Prop where
  near : b.Near v
  zero : b.mantissa = 0 → v = 0

/-- All digits of a double read as the double. -/
theorem Binary.Reads.value (b : Binary) : b.Reads b.value where
  near := b.near_value
  zero hzero := by rw [Binary.value, hzero, Nat.cast_zero, zero_mul]

theorem Binary.Reads.pos_iff {b : Binary} {v : ℚ} (h : b.Reads v) : 0 < v ↔ 0 < b.mantissa := by
  constructor
  · intro hv
    rw [Nat.pos_iff_ne_zero]
    exact fun hzero => hv.ne' (h.zero hzero)
  · exact h.near.pos

/-- The double of which all bits are clear. -/
theorem ofModel_zero {x : Float} {b : Binary} (hx : Denotation.ofFloat x = .finite b)
    (hsign : b.negative = false) (hzero : b.mantissa = 0) : x = 0 := by
  have hbits := bits_of_ofBits x.toBits.toNat_lt hx
  have hexponent := (proper_of_ofBits hx).normal.resolve_right (by rw [hzero]; decide)
  rw [hsign, hexponent, hzero] at hbits
  apply Float.toBits_inj.1
  apply UInt64.toNat_inj.1
  rw [hbits]
  rfl

/-- The value of a numeral is the double that its number is near to. -/
theorem Writes.ofNumeral_eq {x : Float} {b : Binary} {text : List Char} {v : ℚ}
    (h : Writes text v) (hx : Denotation.ofFloat x = .finite b) (hsign : b.negative = false)
    (hv : b.Reads v) : ofNumeral text = x := by
  have hvalue : b.Reads (Decimal.ofNumeral text).value := h.value ▸ hv
  by_cases hzero : b.mantissa = 0
  · have hcoefficient : (Decimal.ofNumeral text).coefficient = 0 := by
      have hv := hvalue.zero hzero
      rw [Decimal.value, mul_eq_zero] at hv
      exact_mod_cast hv.resolve_right (zpow_ne_zero _ (by norm_num))
    show Float.ofModel (.ofScientific (Decimal.ofNumeral text).coefficient _) = x
    rw [hcoefficient, ofModel_zero hx hsign hzero]
    rfl
  · exact ofModel_ofScientific hx hsign (Nat.pos_of_ne_zero hzero) hvalue.near

end Number

end Lox
