import Lox.Proofs.Scanning.Lexeme

set_option autoImplicit false

/-! # Texts that are cut alike

What is cut off a text depends on the piece itself and on a look at what stands after it. This look
never goes beyond the first character of a word, and no word is told from another one by it. So if
after a piece another word stands, or other words further down, then the same piece is cut off
(`Piece.cut_alike`); and if a word itself is replaced, then the other word is (`Piece.cut_word`).
-/

namespace Lox

/-- Two texts are the same, at least up to a place where a word starts in both. -/
inductive Alike : List Char → List Char → Prop
  | nil : Alike [] []
  | word {c c' : Char} (cs cs' : List Char) (hc : startsWord c = true) (hc' : startsWord c' = true) :
      Alike (c :: cs) (c' :: cs')
  | cons (c : Char) {cs cs' : List Char} (h : Alike cs cs') : Alike (c :: cs) (c :: cs')

namespace Alike

variable {cs cs' : List Char} {f : Char → Bool}

theorem append (xs : List Char) (h : Alike cs cs') : Alike (xs ++ cs) (xs ++ cs') := by
  induction xs with
  | nil => exact h
  | cons x xs ih => exact .cons x ih

/-- A look at the first character sees the same, if it does not tell words apart. -/
theorem any_head? {b : Bool} (h : Alike cs cs') (hf : ∀ c, startsWord c = true → f c = b) :
    cs'.head?.any f = cs.head?.any f := by
  cases h with
  | nil => rfl
  | word cs cs' hc hc' =>
      simp only [List.head?_cons, Option.any_some]
      rw [hf _ hc, hf _ hc']
  | cons c h => rfl

/-- So does a look at the second one, if the first one starts no word. -/
theorem cons_inv {c : Char} (h : Alike cs (c :: cs')) (hc : startsWord c = false) :
    ∃ cs₀, cs = c :: cs₀ ∧ Alike cs₀ cs' := by
  cases h with
  | word _ _ _ hc' =>
      rw [hc] at hc'
      cases hc'
  | cons _ h => exact ⟨_, rfl, h⟩

/-- A character that starts no word stands first in both, or in none. -/
theorem forall_ne_cons {c : Char} (h : Alike cs cs') (hc : startsWord c = false)
    (hcs : ∀ tail, cs ≠ c :: tail) : ∀ tail, cs' ≠ c :: tail := by
  rintro tail rfl
  obtain ⟨tail₀, rfl, -⟩ := h.cons_inv hc
  exact hcs tail₀ rfl

end Alike

/-! ## Spans -/

section Span

variable {p : Char → Bool} {xs rest : List Char}

/-- A span ends where its condition fails. -/
theorem takeWhile_span (hxs : ∀ x ∈ xs, p x = true) (hrest : rest.head?.any p = false) :
    (xs ++ rest).takeWhile p = xs := by
  rw [List.takeWhile_append_of_pos hxs]
  cases rest with
  | nil => exact List.append_nil xs
  | cons c rest =>
      rw [List.head?_cons, Option.any_some] at hrest
      rw [List.takeWhile_cons, hrest, if_neg Bool.false_ne_true, List.append_nil]

theorem dropWhile_span (hxs : ∀ x ∈ xs, p x = true) (hrest : rest.head?.any p = false) :
    (xs ++ rest).dropWhile p = rest := by
  rw [List.dropWhile_append_of_pos hxs]
  cases rest with
  | nil => rfl
  | cons c rest =>
      rw [List.head?_cons, Option.any_some] at hrest
      rw [List.dropWhile_cons, hrest, if_neg Bool.false_ne_true]

theorem any_head?_dropWhile (p : Char → Bool) (cs : List Char) :
    (cs.dropWhile p).head?.any p = false := by
  have hstop := List.head?_dropWhile_not p cs
  cases hhead : (cs.dropWhile p).head? with
  | none => rfl
  | some c =>
      rw [hhead] at hstop
      simpa using hstop

theorem of_mem_takeWhile {c : Char} {cs : List Char} (h : c ∈ cs.takeWhile p) : p c = true :=
  List.all_eq_true.1 List.all_takeWhile c h

end Span

/-! ## Numerals -/

/-- No numeral goes on here: no digit, and no point with a digit after it. -/
structure EndsNumeral (rest : List Char) : Prop where
  digit : rest.head?.any Char.isDigit = false
  point : ∀ d tail, rest = '.' :: d :: tail → d.isDigit = false

theorem cutNumeral_whole {digits rest : List Char} (hdigits : ∀ d ∈ digits, d.isDigit = true)
    (hrest : EndsNumeral rest) : cutNumeral (digits ++ rest) = (digits, rest) := by
  unfold cutNumeral
  rw [takeWhile_span hdigits hrest.digit, dropWhile_span hdigits hrest.digit]
  split
  · rename_i d tail
    have hd : d.isDigit = false := hrest.point d tail rfl
    rw [hd, if_neg Bool.false_ne_true]
  · rfl

theorem cutNumeral_decimal {digits fraction rest : List Char} {d : Char}
    (hdigits : ∀ d ∈ digits, d.isDigit = true) (hd : d.isDigit = true)
    (hfraction : ∀ d ∈ fraction, d.isDigit = true) (hrest : rest.head?.any Char.isDigit = false) :
    cutNumeral (digits ++ '.' :: d :: (fraction ++ rest)) =
      (digits ++ '.' :: d :: fraction, rest) := by
  have hpoint : ('.' :: d :: (fraction ++ rest)).head?.any Char.isDigit = false := by
    rw [List.head?_cons, Option.any_some]
    decide
  have hall : ∀ c ∈ d :: fraction, c.isDigit = true := List.forall_mem_cons.2 ⟨hd, hfraction⟩
  unfold cutNumeral
  rw [takeWhile_span hdigits hpoint, dropWhile_span hdigits hpoint]
  simp only [hd, if_true]
  rw [← List.cons_append, takeWhile_span hall hrest, dropWhile_span hall hrest]

theorem Alike.endsNumeral {rest rest' : List Char} (h : Alike rest rest') (hrest : EndsNumeral rest) :
    EndsNumeral rest' where
  digit := by rw [h.any_head? fun c => isDigit_eq_false_of_startsWord, hrest.digit]
  point d tail hrest' := by
    subst hrest'
    obtain ⟨rest₀, rfl, htail⟩ := h.cons_inv (by decide)
    have hd := htail.any_head? fun c => isDigit_eq_false_of_startsWord
    rw [List.head?_cons, Option.any_some] at hd
    rw [hd]
    cases rest₀ with
    | nil => rfl
    | cons e tail' => exact hrest.point e tail' rfl

/-- The numeral that is cut off a text is cut off another text that goes on alike. -/
theorem cutNumeral_alike {cs rest' : List Char} (h : Alike (cutNumeral cs).2 rest') :
    cutNumeral ((cutNumeral cs).1 ++ rest') = ((cutNumeral cs).1, rest') := by
  have hdigits : ∀ d ∈ cs.takeWhile Char.isDigit, d.isDigit = true := fun d => of_mem_takeWhile
  have hdigit := any_head?_dropWhile Char.isDigit cs
  unfold cutNumeral at h
  rw [cutNumeral.eq_def cs]
  generalize cs.dropWhile Char.isDigit = dropped at h hdigit ⊢
  split at h
  · rename_i d rest
    by_cases hd : d.isDigit = true
    · rw [if_pos hd] at h ⊢
      have hfraction : (d :: rest).takeWhile Char.isDigit = d :: rest.takeWhile Char.isDigit := by
        rw [List.takeWhile_cons, if_pos hd]
      have hrest' : rest'.head?.any Char.isDigit = false := by
        rw [h.any_head? fun c => isDigit_eq_false_of_startsWord]
        exact any_head?_dropWhile Char.isDigit (d :: rest)
      have hmore : ∀ e ∈ rest.takeWhile Char.isDigit, e.isDigit = true :=
        fun e => of_mem_takeWhile
      have hcut := cutNumeral_decimal hdigits hd hmore hrest'
      simp only [hfraction, List.append_assoc, List.cons_append]
      exact hcut
    · rw [if_neg hd] at h ⊢
      refine cutNumeral_whole hdigits (h.endsNumeral ⟨hdigit, fun e tail htail => ?_⟩)
      cases htail
      exact Bool.eq_false_iff.2 hd
  · rename_i hpoint
    refine cutNumeral_whole hdigits (h.endsNumeral ⟨hdigit, fun e tail htail => ?_⟩)
    exact absurd htail (hpoint e tail)

/-! ## Pieces -/

variable {c : Char} {cs rest rest' : List Char} {p : Piece}

namespace Start

/-- The piece is cut off again where another rest stands after it. -/
def CutsAgain (start : Start) (c : Char) (p : Piece) (rest' : List Char) : Prop :=
  ∃ text, p.text = c :: text ∧ start.cut c (text ++ rest') = (p, rest')

theorem cut_alone {alone extended : Mark} (hcs : ∀ tail, cs ≠ '=' :: tail) :
    (pair alone extended).cut c cs = (.ofMark [c] alone, cs) := by
  unfold cut
  dsimp only
  split
  · exact absurd rfl (hcs _)
  · rfl

theorem cut_slash (hcs : ∀ tail, cs ≠ '/' :: tail) :
    slash.cut c cs = (.ofMark [c] .slash, cs) := by
  unfold cut
  dsimp only
  split
  · exact absurd rfl (hcs _)
  · rfl

theorem cut_comment {text : List Char} (htext : ∀ d ∈ text, (d != '\n') = true)
    (hend : rest.head?.any (· != '\n') = false) :
    slash.cut c ('/' :: (text ++ rest)) = (⟨c :: '/' :: text, .gap⟩, rest) := by
  have htake := takeWhile_span htext hend
  have hstop := dropWhile_span htext hend
  simp only [cut, htake, hstop]

theorem cut_string {contents : List Char} (hcontents : ∀ d ∈ contents, (d != '"') = true)
    (rest : List Char) :
    quote.cut c (contents ++ '"' :: rest) =
      (⟨c :: (contents ++ ['"']), .token (.string (String.ofList contents))⟩, rest) := by
  have hend : ('"' :: rest).head?.any (· != '"') = false := rfl
  have htake := takeWhile_span hcontents hend
  have hstop := dropWhile_span hcontents hend
  simp only [cut, htake, hstop]

theorem cut_unterminated {contents : List Char} (hcontents : ∀ d ∈ contents, (d != '"') = true) :
    quote.cut c contents = (⟨c :: contents, .error .unterminatedString⟩, []) := by
  have hend : ([] : List Char).head?.any (· != '"') = false := rfl
  have htake := takeWhile_span hcontents hend
  have hstop := dropWhile_span hcontents hend
  rw [List.append_nil] at htake hstop
  simp only [cut, htake, hstop]

theorem cut_letter {text : List Char} (htext : ∀ d ∈ text, continuesWord d = true)
    (hend : rest.head?.any continuesWord = false) :
    letter.cut c (text ++ rest) =
      (⟨c :: text, .token (.ofWord (String.ofList (c :: text)))⟩, rest) := by
  rw [cut, takeWhile_span htext hend, dropWhile_span htext hend]

/-- A mark that is not extended by what stands after it, or is extended by itself. -/
theorem cutsAgain_pair {alone extended : Mark}
    (hcut : (pair alone extended).cut c cs = (p, rest)) (h : Alike rest rest') :
    (pair alone extended).CutsAgain c p rest' := by
  by_cases hcs : ∃ tail, cs = '=' :: tail
  · obtain ⟨tail, rfl⟩ := hcs
    cases hcut
    exact ⟨['='], rfl, rfl⟩
  · have hne : ∀ tail, cs ≠ '=' :: tail := not_exists.1 hcs
    rw [cut_alone hne] at hcut
    cases hcut
    exact ⟨[], rfl, cut_alone (h.forall_ne_cons (by decide) hne)⟩

theorem cutsAgain_slash (hcut : slash.cut c cs = (p, rest)) (h : Alike rest rest') :
    slash.CutsAgain c p rest' := by
  by_cases hcs : ∃ tail, cs = '/' :: tail
  · -- A comment ends at a line end, and no word starts with one.
    obtain ⟨tail, rfl⟩ := hcs
    cases hcut
    have htext : ∀ d ∈ tail.takeWhile (· != '\n'), (d != '\n') = true := fun d => of_mem_takeWhile
    have hword : ∀ d, startsWord d = true → (d != '\n') = true :=
      fun d hd => bne_iff_ne.2 (ne_of_class (by decide) hd)
    have hend : rest'.head?.any (· != '\n') = false := by
      rw [h.any_head? hword]
      exact any_head?_dropWhile _ tail
    exact ⟨'/' :: tail.takeWhile (· != '\n'), rfl, cut_comment htext hend⟩
  · have hne : ∀ tail, cs ≠ '/' :: tail := not_exists.1 hcs
    rw [cut_slash hne] at hcut
    cases hcut
    exact ⟨[], rfl, cut_slash (h.forall_ne_cons (by decide) hne)⟩

theorem cutsAgain_quote (hcut : quote.cut c cs = (p, rest)) (h : Alike rest rest') :
    quote.CutsAgain c p rest' := by
  have hcontents : ∀ d ∈ cs.takeWhile (· != '"'), (d != '"') = true := fun d => of_mem_takeWhile
  have hcs : cs.takeWhile (· != '"') ++ cs.dropWhile (· != '"') = cs :=
    List.takeWhile_append_dropWhile
  generalize cs.takeWhile (· != '"') = contents at hcontents hcs
  cases hdrop : cs.dropWhile (· != '"') with
  | nil =>
      rw [hdrop, List.append_nil] at hcs
      rw [← hcs, cut_unterminated hcontents] at hcut
      cases hcut
      cases h
      refine ⟨contents, rfl, ?_⟩
      rw [List.append_nil]
      exact cut_unterminated hcontents
  | cons d tail =>
      obtain rfl := Piece.eq_of_dropWhile hdrop
      rw [hdrop] at hcs
      rw [← hcs, cut_string hcontents] at hcut
      cases hcut
      refine ⟨contents ++ ['"'], rfl, ?_⟩
      rw [List.append_assoc]
      exact cut_string hcontents rest'

theorem cutsAgain_digit (hdigit : c.isDigit = true) (hcut : digit.cut c cs = (p, rest))
    (h : Alike rest rest') : digit.CutsAgain c p rest' := by
  obtain ⟨hp, rfl⟩ := Prod.mk.inj hcut
  have hne := Piece.cutNumeral_ne_nil cs hdigit
  obtain ⟨d, text, htext⟩ := List.exists_cons_of_ne_nil hne
  have happend := Piece.cutNumeral_append (c :: cs)
  rw [htext] at happend
  obtain rfl : d = c := (List.cons.inj happend).1
  have hnumeral := cutNumeral_alike h
  rw [htext] at hnumeral
  refine ⟨text, by rw [← hp, htext], ?_⟩
  rw [cut, ← List.cons_append, hnumeral, ← hp, htext]

/-- No word goes on where another word starts. -/
theorem cutsAgain_letter (hcut : letter.cut c cs = (p, rest)) (h : Alike rest rest') :
    letter.CutsAgain c p rest' ∧ rest'.head?.any continuesWord = false := by
  obtain ⟨hp, rfl⟩ := Prod.mk.inj hcut
  have htext : ∀ d ∈ cs.takeWhile continuesWord, continuesWord d = true :=
    fun d => of_mem_takeWhile
  have hword : ∀ d, startsWord d = true → continuesWord d = true := by
    intro d hd
    rw [continuesWord, hd]
    rfl
  have hend : rest'.head?.any continuesWord = false := by
    rw [h.any_head? hword]
    exact any_head?_dropWhile _ cs
  refine ⟨⟨cs.takeWhile continuesWord, ?_, ?_⟩, hend⟩
  · rw [← hp]
  · rw [cut_letter htext hend, hp]

/-- The piece that is cut off a text is cut off another text that goes on alike. -/
theorem cut_alike {start : Start} (hholds : start.Holds c) (hcut : start.cut c cs = (p, rest))
    (h : Alike rest rest') : start.CutsAgain c p rest' := by
  cases start with
  | single m | blank | other =>
      cases hcut
      exact ⟨[], rfl, rfl⟩
  | pair alone extended => exact cutsAgain_pair hcut h
  | slash => exact cutsAgain_slash hcut h
  | quote => exact cutsAgain_quote hcut h
  | digit => exact cutsAgain_digit hholds hcut h
  | letter => exact (cutsAgain_letter hcut h).1

end Start

namespace Piece

theorem cut_alike (hcut : cut c cs = (p, rest)) (h : Alike rest rest') :
    ∃ text, p.text = c :: text ∧ cut c (text ++ rest') = (p, rest') := by
  rw [cut_eq] at hcut
  obtain ⟨text, htext, hcut'⟩ := Start.cut_alike (Start.holds_of c) hcut h
  exact ⟨text, htext, by rw [cut_eq, hcut']⟩

/-- Another word is cut off where a word was. -/
theorem cut_word {word : String} {c' : Char} {cs' : List Char} (hc : startsWord c = true)
    (hcut : cut c cs = (p, rest)) (h : Alike rest rest') (hword : word.toList = c' :: cs')
    (hc' : startsWord c' = true) (hcs' : ∀ d ∈ cs', continuesWord d = true) :
    cut c' (cs' ++ rest') = (⟨word.toList, .token (.ofWord word)⟩, rest') := by
  rw [cut_eq, Start.of_startsWord hc] at hcut
  have hend := (Start.cutsAgain_letter hcut h).2
  rw [cut_eq, Start.of_startsWord hc', Start.cut_letter hcs' hend, ← hword, String.ofList_toList]

end Piece

end Lox
