import Lox.Store.Object
import Lox.Token.Listing
import Lox.Tree.Form
import Lox.Proofs.Number.Order
import Lox.Proofs.Number.Spelling
import Lox.Proofs.Scanning.Spaced

set_option autoImplicit false

/-! # Texts of numbers

The text of a number reads back as the number in the literal column of a token, in the form of a
tree and where `print` writes no exponent, and no two numbers are printed alike (`texts_read_back`).
-/

namespace Lox

/-- The text reads as one number and as nothing else, wherever it stands. -/
def Number.ScansAs (text : String) (x : Float) : Prop :=
  ∀ offset, (Scan.ofText text offset).tokens = [⟨.number x, text, 1, offset⟩] ∧
    (Scan.ofText text offset).errors = []

namespace Number

theorem Writes.scansAs {text : List Char} {v : ℚ} (h : Writes text v) {x : Float}
    (hvalue : ofNumeral text = x) : ScansAs (String.ofList text) x := by
  intro offset
  have hlexeme := Lexeme.number h.numeral
  rw [hvalue] at hlexeme
  have hsplit := Piece.split_lexeme hlexeme .nil
  rw [List.append_nil, Piece.split_nil] at hsplit
  have hline : text.count '\n' = 0 :=
    List.count_eq_zero.2 (notMem_of_numeral h.numeral (by decide) (by decide))
  have hitems : (Scan.ofText (String.ofList text) offset).items =
      [.token ⟨.number x, String.ofList text, 1, offset⟩] := by
    show Item.locate 1 offset (Piece.split (String.ofList text).toList) = _
    rw [String.toList_ofList, hsplit, Item.locate, Item.locate_nil, List.append_nil, hline]
    rfl
  rw [Scan.tokens, Scan.errors, hitems]
  exact ⟨rfl, rfl⟩

namespace Format

variable (f : Format) {x : Float} {b : Binary}

/-- A text without an exponent is a numeral of the double. -/
theorem exists_numeral (hx : Denotation.ofFloat x = .finite b) (hsign : b.negative = false)
    (h : b.mantissa = 0 ∨ f.isPositional (b.shortest f.tie).leadingExponent = true) :
    ∃ numeral v, f.text x = String.ofList numeral ∧ Writes numeral v ∧ ofNumeral numeral = x := by
  have htext : f.text x = String.ofList (f.magnitude b) := by
    unfold text ofDenotation
    rw [hx]
    dsimp only
    rw [signs, hsign, Bool.false_and, if_neg Bool.false_ne_true]
  obtain ⟨d, hreads, hwrites | ⟨hpositional, hmantissa, -⟩⟩ := f.magnitude_cases b
  · exact ⟨_, _, htext, hwrites, hwrites.ofNumeral_eq hx hsign hreads⟩
  · rcases h with hzero | h
    · exact absurd hzero hmantissa
    · rw [h] at hpositional
      cases hpositional

theorem scansAs_text (hx : Denotation.ofFloat x = .finite b) (hsign : b.negative = false)
    (h : b.mantissa = 0 ∨ f.isPositional (b.shortest f.tie).leadingExponent = true) :
    ScansAs (f.text x) x := by
  obtain ⟨numeral, v, htext, hwrites, hvalue⟩ := f.exists_numeral hx hsign h
  rw [htext]
  exact hwrites.scansAs hvalue

/-! ## Signs -/

/-- A sign is no digit and no letter. -/
theorem sign_inj {s s' : Bool} {c c' : Char} {cs cs' : List Char} (hc : c ≠ '-') (hc' : c' ≠ '-')
    (h : (if s then '-' :: c :: cs else c :: cs) = if s' then '-' :: c' :: cs' else c' :: cs') :
    s = s' ∧ c :: cs = c' :: cs' := by
  cases s <;> cases s' <;> simp only [Bool.false_eq_true, if_true, if_false] at h
  · exact ⟨rfl, h⟩
  · exact absurd (List.cons.inj h).1 hc
  · exact absurd (List.cons.inj h).1.symm hc'
  · exact ⟨rfl, (List.cons.inj h).2⟩

/-- The text of a finite number is a sign or none, and then its digits. -/
theorem toList_finite (hf : f.signsZero = true) (b : Binary) :
    ∃ c cs, c ≠ '-' ∧ c ≠ 'I' ∧ f.magnitude b = c :: cs ∧
      (String.toList <| f.ofDenotation (.finite b)) =
        if b.negative then '-' :: c :: cs else c :: cs := by
  obtain ⟨c, cs, hmagnitude, hdigit⟩ := f.exists_digit_magnitude b
  refine ⟨c, cs, ne_of_class (by decide) hdigit, ne_of_class (by decide) hdigit, hmagnitude, ?_⟩
  unfold ofDenotation
  rw [String.toList_ofList, signs, hf, Bool.true_or, Bool.and_true, hmagnitude]

theorem finite_injective (hf : f.signsZero = true) {b' : Binary} (hb : b.Proper) (hb' : b'.Proper)
    (h : f.ofDenotation (.finite b) = f.ofDenotation (.finite b')) : b = b' := by
  obtain ⟨c, cs, hc, -, hmagnitude, htext⟩ := f.toList_finite hf b
  obtain ⟨c', cs', hc', -, hmagnitude', htext'⟩ := f.toList_finite hf b'
  rw [h, htext'] at htext
  obtain ⟨hsign, hcs⟩ := sign_inj hc' hc htext
  rw [← hmagnitude, ← hmagnitude'] at hcs
  obtain ⟨hmantissa, hexponent⟩ := f.magnitude_injective hb hb' hcs.symm
  exact Binary.ext hsign.symm hmantissa hexponent

/-- The printed text of an infinity is a sign or none, and then a word. -/
theorem toList_infinite_printed (s : Bool) :
    (String.toList <| printed.ofDenotation (.infinite s)) =
      if s then '-' :: 'I' :: "nfinity".toList else 'I' :: "nfinity".toList := by
  cases s <;> rfl

theorem finite_ne_infinite_printed (b : Binary) (s : Bool) :
    printed.ofDenotation (.finite b) ≠ printed.ofDenotation (.infinite s) := by
  intro h
  obtain ⟨c, cs, hc, hletter, -, htext⟩ := printed.toList_finite rfl b
  rw [h, toList_infinite_printed] at htext
  exact hletter (List.cons.inj (sign_inj (by decide) hc htext).2).1.symm

theorem infinite_injective_printed {s s' : Bool}
    (h : printed.ofDenotation (.infinite s) = printed.ofDenotation (.infinite s')) : s = s' := by
  have htext := congrArg String.toList h
  rw [toList_infinite_printed, toList_infinite_printed] at htext
  exact (sign_inj (by decide) (by decide) htext).1

/-- No two numbers are printed alike. -/
theorem text_printed_injective {y : Float} (hx : x.isNaN = false) (hy : y.isNaN = false)
    (h : printed.text x = printed.text y) : x = y := by
  have hnan : ∀ {z : Float}, z.isNaN = false → Denotation.ofFloat z ≠ .nan := by
    intro z hz hdenotation
    rw [isNaN_of_ofFloat hdenotation] at hz
    cases hz
  apply eq_of_ofFloat_eq hx
  unfold text at h
  cases hdx : Denotation.ofFloat x with
  | nan => exact absurd hdx (hnan hx)
  | infinite s =>
      rw [hdx] at h
      cases hdy : Denotation.ofFloat y with
      | nan => exact absurd hdy (hnan hy)
      | infinite s' =>
          rw [hdy] at h
          rw [infinite_injective_printed h]
      | finite b' =>
          rw [hdy] at h
          exact absurd h.symm (finite_ne_infinite_printed b' s)
  | finite b =>
      rw [hdx] at h
      cases hdy : Denotation.ofFloat y with
      | nan => exact absurd hdy (hnan hy)
      | infinite s' =>
          rw [hdy] at h
          exact absurd h (finite_ne_infinite_printed b s')
      | finite b' =>
          rw [hdy] at h
          rw [printed.finite_injective rfl (proper_of_ofBits hdx) (proper_of_ofBits hdy) h]

end Format

/-- A double whose sign bit is clear. -/
theorem negative_eq_false {x : Float} {b : Binary} (hx : Denotation.ofFloat x = .finite b)
    (hsign : x.toBits < 0x8000000000000000) : b.negative = false := by
  rw [negative_of_ofBits hx]
  exact Nat.testBit_lt_two_pow hsign

/-- Numbers read back from their texts. Of a finite double that is not negative, and not the
negative zero, the literal column of a token and the form of a tree read as the double and as
nothing else, and so does the printed text of zero and of what is between `1e-6` and `1e21`. Of all
doubles, the negative zero and the infinities among them, no two that are numbers are printed alike.
-/
theorem texts_read_back {ε : Type} :
    (∀ x : Float, x.isFinite = true → x.toBits < 0x8000000000000000 →
      (∀ t : Token, t.kind = .number x → ScansAs t.literalColumn x) ∧
      ScansAs (Expr.literal (.number x)).form x ∧
      (x = 0 ∨ 1e-6 ≤ x ∧ x < 1e21 → ∀ h : Heap ε, ScansAs (h.text (.number x)) x)) ∧
    ∀ x y : Float, x.isNaN = false → y.isNaN = false → x.toBits ≠ y.toBits →
      ∀ h : Heap ε, h.text (.number x) ≠ h.text (.number y) := by
  refine ⟨fun x hfinite hsign => ?_, fun x y hx hy hbits h htext => ?_⟩
  · obtain ⟨b, hb⟩ := exists_of_isFinite hfinite
    have hnegative := negative_eq_false hb hsign
    refine ⟨fun t ht => ?_, Format.tree.scansAs_text hb hnegative (.inr rfl), fun hrange h => ?_⟩
    · rw [Token.literalColumn, ht]
      exact Format.literal.scansAs_text hb hnegative (.inr rfl)
    · refine Format.printed.scansAs_text hb hnegative ?_
      rcases hrange with rfl | ⟨hle, hlt⟩
      · obtain rfl : ⟨false, 0, -1074⟩ = b := Denotation.finite.inj hb
        exact .inl rfl
      · exact .inr (Format.isPositional_printed hb hnegative hle hlt)
  · rw [Format.text_printed_injective hx hy htext] at hbits
    exact hbits rfl

/-- Where the formats change: the least whole number that a token does not write exactly, the least
number that `print` writes without an exponent, and the two zeros. -/
theorem texts_read_back_bounds :
    ScansAs (Token.literalColumn ⟨.number 9223372036854775808, "9223372036854775808", 1, 0⟩)
        9223372036854775808 ∧
      ScansAs (Expr.literal (.number 9223372036854775808)).form 9223372036854775808 ∧
      ScansAs (Store.empty.text (.number 1e-6)) 1e-6 ∧
      Store.empty.text (.number 0) ≠ Store.empty.text (.number (-0)) := by
  obtain ⟨hreads, hdiffer⟩ := texts_read_back (ε := EnvId)
  obtain ⟨hliteral, htree, -⟩ := hreads 9223372036854775808 (by decide +kernel) (by decide +kernel)
  obtain ⟨-, -, hprinted⟩ := hreads 1e-6 (by decide +kernel) (by decide +kernel)
  exact ⟨hliteral _ rfl, htree, hprinted (.inr ⟨by decide +kernel, by decide +kernel⟩) _,
    hdiffer 0 (-0) (by decide +kernel) (by decide +kernel) (by decide +kernel) _⟩

end Number

end Lox
