import Lox.Proofs.Number.Numeral

set_option autoImplicit false

/-! # The number that a text spells

The digits of a text are a numeral, with or without a power of ten (`Spells`), and in every format
they spell a number that reads as the double (`Format.magnitude_spells`). A text spells one number
only (`Spells.unique`), and the number is near to one double only, so no two doubles have the same
digits (`Format.magnitude_injective`).
-/

namespace Lox.Number

/-- The sign before the digits of an exponent. -/
def exponentSign (e : Int) : Char := if 0 ≤ e then '+' else '-'

/-- The text is a numeral of the number, or one of a multiple by the power of ten at its end. -/
inductive Spells : List Char → ℚ → Prop
  | plain {text : List Char} {v : ℚ} (h : Writes text v) : Spells text v
  | scaled {text : List Char} {v : ℚ} (h : Writes text v) (e : Int) :
      Spells (text ++ 'e' :: exponentSign e :: Nat.toDigits 10 e.natAbs) (v * 10 ^ e)

theorem notMem_of_isDigit {digits : List Char} (h : ∀ c ∈ digits, c.isDigit = true) {c : Char}
    (hc : c.isDigit = false) : c ∉ digits := by
  intro hmem
  rw [h c hmem] at hc
  cases hc

theorem notMem_of_numeral {text : List Char} (h : Numeral text) {c : Char}
    (hc : c.isDigit = false) (hpoint : c ≠ '.') : c ∉ text := by
  cases h with
  | whole hne h => exact notMem_of_isDigit h hc
  | decimal hne h hne' h' =>
      rw [List.mem_append, List.mem_cons]
      rintro (hmem | hmem | hmem)
      · exact notMem_of_isDigit h hc hmem
      · exact hpoint hmem
      · exact notMem_of_isDigit h' hc hmem

/-- The digits of an exponent with their sign. -/
theorem exponent_inj {e e' : Int}
    (h : exponentSign e :: Nat.toDigits 10 e.natAbs =
      exponentSign e' :: Nat.toDigits 10 e'.natAbs) :
    e = e' := by
  obtain ⟨hsign, hdigits⟩ := List.cons.inj h
  have habs := congrArg (Nat.ofDigitChars 10 · 0) hdigits
  simp only [Nat.ofDigitChars_ten_toDigits] at habs
  unfold exponentSign at hsign
  split at hsign <;> split at hsign <;> first | omega | cases hsign

theorem notMem_exponent (e : Int) : 'e' ∉ exponentSign e :: Nat.toDigits 10 e.natAbs := by
  rw [List.mem_cons, not_or]
  refine ⟨?_, notMem_of_isDigit (forall_isDigit_toDigits _) (by decide)⟩
  unfold exponentSign
  split <;> decide

namespace Spells

variable {text : List Char} {v : ℚ}

/-- There is no `e` in a numeral. -/
theorem not_scaled {text' : List Char} {e : Int} (h : Numeral text) :
    text ≠ text' ++ 'e' :: exponentSign e :: Nat.toDigits 10 e.natAbs := by
  rintro rfl
  exact notMem_of_numeral h (by decide) (by decide)
    (List.mem_append_right _ List.mem_cons_self)

/-- A text spells one number only. -/
theorem unique {v' : ℚ} (h : Spells text v) (h' : Spells text v') : v = v' := by
  cases h with
  | plain h =>
      generalize htext : text = text' at h'
      cases h' with
      | plain h' =>
          subst htext
          exact h.unique h'
      | scaled h' e => exact absurd htext (not_scaled h.numeral)
  | @scaled mantissa u h e =>
      generalize htext : mantissa ++ _ = text' at h'
      cases h' with
      | plain h' => exact absurd htext.symm (not_scaled h'.numeral)
      | @scaled mantissa' u' h' e' =>
          have hnone : 'e' ∉ mantissa := notMem_of_numeral h.numeral (by decide) (by decide)
          obtain ⟨rfl, -, hexponent⟩ :=
            (List.append_cons_inj_of_notMem hnone (notMem_exponent e)).1 htext
          rw [exponent_inj hexponent, h.unique h']

/-- The first character is a digit. -/
theorem exists_digit (h : Spells text v) : ∃ c cs, text = c :: cs ∧ c.isDigit = true := by
  have hnumeral : ∀ {numeral : List Char}, Numeral numeral →
      ∃ c cs, numeral = c :: cs ∧ c.isDigit = true := by
    intro numeral hnumeral
    obtain ⟨c, cs, rfl⟩ := List.exists_cons_of_ne_nil (Lexeme.number hnumeral).ne_nil
    exact ⟨c, cs, rfl, hnumeral.isDigit_head⟩
  cases h with
  | plain h => exact hnumeral h.numeral
  | scaled h e =>
      obtain ⟨c, cs, rfl, hc⟩ := hnumeral h.numeral
      exact ⟨c, _, rfl, hc⟩

/-- One digit before the point, and a power of ten. -/
theorem scientific (d : Decimal) : Spells d.scientific d.value := by
  have hdigits := d.forall_isDigit_digits
  have hcoefficient := d.ofDigitChars_digits
  have hten : (10 : ℚ) ≠ 0 := by norm_num
  unfold Decimal.scientific Decimal.leadingExponent
  cases hd : d.digits with
  | nil => exact absurd hd d.digits_ne_nil
  | cons c rest =>
      rw [hd] at hdigits hcoefficient
      have hexponent : d.exponent + ((c :: rest).length : Nat) - 1 = d.exponent + rest.length := by
        rw [List.length_cons]
        omega
      dsimp only
      rw [hexponent]
      cases rest with
      | nil =>
          have hwrites := Writes.whole (List.cons_ne_nil c []) hdigits
          rw [hcoefficient] at hwrites
          have hvalue :
              d.value = d.coefficient * 10 ^ (d.exponent + (([] : List Char).length : Int)) := by
            rw [Decimal.value, List.length_nil, Nat.cast_zero, add_zero]
          rw [hvalue]
          exact .scaled hwrites _
      | cons c' rest =>
          obtain ⟨hc, hrest⟩ := List.forall_mem_cons.1 hdigits
          have hwrites := Writes.decimal (List.cons_ne_nil c []) (by simpa using hc)
            (List.cons_ne_nil c' rest) hrest
          have hsplit : [c] ++ c' :: rest = c :: c' :: rest := rfl
          rw [hsplit, hcoefficient] at hwrites
          have hvalue : d.value = d.coefficient * 10 ^ (-((c' :: rest).length : Int)) *
              10 ^ (d.exponent + ((c' :: rest).length : Int)) := by
            rw [Decimal.value, mul_assoc, ← zpow_add₀ hten]
            congr 2
            omega
          rw [hvalue]
          exact .scaled hwrites _

end Spells

/-- The shortest decimal reads as the double. -/
theorem Binary.reads_shortest (b : Binary) (tie : Tie) : b.Reads (b.shortest tie).value := by
  rcases Nat.eq_zero_or_pos b.mantissa with hzero | hpos
  · have hvalue : (b.shortest tie).value = b.value := by
      rw [shortest, if_pos hzero, Decimal.value, value, hzero, Nat.cast_zero, zero_mul, zero_mul]
    rw [hvalue]
    exact .value b
  · exact ⟨near_shortest hpos tie, fun hzero => absurd hzero hpos.ne'⟩

/-- A number is near to one double only. -/
theorem Binary.Reads.unique {b b' : Binary} {d : Decimal} (hb : b.Proper) (hb' : b'.Proper)
    (h : b.Reads d.value) (h' : b'.Reads d.value) :
    b.mantissa = b'.mantissa ∧ b.exponent = b'.exponent := by
  have hsame : 0 < b.mantissa ↔ 0 < b'.mantissa := h.pos_iff.symm.trans h'.pos_iff
  rcases Nat.eq_zero_or_pos b.mantissa with hzero | hpos
  · have hzero' : b'.mantissa = 0 := Nat.eq_zero_of_not_pos (hsame.not.1 (by omega))
    refine ⟨hzero.trans hzero'.symm, ?_⟩
    rw [hb.normal.resolve_right (by rw [hzero]; decide),
      hb'.normal.resolve_right (by rw [hzero']; decide)]
  · exact h.near.unique hb hpos hb' (hsame.1 hpos) h'.near

namespace Format

variable (f : Format)

/-- The digits of a double are a numeral that reads as the double, or they have an exponent. -/
theorem magnitude_cases (b : Binary) :
    ∃ d : Decimal, b.Reads d.value ∧ (Writes (f.magnitude b) d.value ∨
      f.isPositional (b.shortest f.tie).leadingExponent = false ∧ b.mantissa ≠ 0 ∧
        Spells (f.magnitude b) d.value) := by
  unfold magnitude
  split
  · rename_i n hwhole
    have hvalue := Binary.value_of_whole? (Option.filter_eq_some_iff.1 hwhole).1
    refine ⟨⟨n, 0⟩, ?_, .inl ?_⟩ <;> rw [Decimal.value, zpow_zero, mul_one]
    · rw [hvalue]
      exact .value b
    · exact .exact n
  · dsimp only
    refine ⟨b.shortest f.tie, b.reads_shortest f.tie, ?_⟩
    split <;> rename_i hpositional
    · exact .inl (.positional _ _)
    · rw [Bool.or_eq_true, not_or, decide_eq_true_eq, Bool.not_eq_true] at hpositional
      exact .inr ⟨hpositional.2, hpositional.1, .scientific _⟩

/-- The digits of a double spell a number that reads as the double. -/
theorem magnitude_spells (b : Binary) :
    ∃ d : Decimal, b.Reads d.value ∧ Spells (f.magnitude b) d.value := by
  obtain ⟨d, hreads, h | ⟨-, -, h⟩⟩ := f.magnitude_cases b
  · exact ⟨d, hreads, .plain h⟩
  · exact ⟨d, hreads, h⟩

/-- No two doubles have the same digits. -/
theorem magnitude_injective {b b' : Binary} (hb : b.Proper) (hb' : b'.Proper)
    (h : f.magnitude b = f.magnitude b') : b.mantissa = b'.mantissa ∧ b.exponent = b'.exponent := by
  obtain ⟨d, hreads, hspells⟩ := f.magnitude_spells b
  obtain ⟨d', hreads', hspells'⟩ := f.magnitude_spells b'
  rw [← h] at hspells'
  rw [← hspells.unique hspells'] at hreads'
  exact hreads.unique hb hb' hreads'

/-- The digits begin with a digit. -/
theorem exists_digit_magnitude (b : Binary) :
    ∃ c cs, f.magnitude b = c :: cs ∧ c.isDigit = true := by
  obtain ⟨d, -, hspells⟩ := f.magnitude_spells b
  exact hspells.exists_digit

end Format

end Lox.Number
