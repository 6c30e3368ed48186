import Lox.Token.Scan

set_option autoImplicit false

/-! # The tokens of a text

Two facts about scanned tokens that later stages rely on. A keyword has the text of the keyword,
and no identifier has one (`Token.Faithful`). And every token has an offset of its own, because
pieces are not empty (`Scan.nodup_starts`).
-/

namespace Lox

/-- The text of a token fits its kind, as far as words are concerned. -/
structure Token.Faithful (t : Token) : Prop where
  keyword : ∀ w, t.kind = .keyword w → t.lexeme = w.text
  identifier : t.kind = .identifier → ∀ w : Keyword, t.lexeme ≠ w.text

/-- A word is the keyword that it spells, or an identifier. -/
theorem Token.faithful_ofWord (word : String) (line start : Nat) :
    Token.Faithful ⟨.ofWord word, word, line, start⟩ := by
  cases hword : Keyword.ofText? word with
  | some w =>
      have htext : w.text = word := by simpa using List.find?_some hword
      refine ⟨fun w' h => ?_, fun h => ?_⟩
      · simp only [Kind.ofWord, hword, Kind.keyword.injEq] at h
        rw [← h]
        exact htext.symm
      · simp [Kind.ofWord, hword] at h
  | none =>
      -- If the word were that of a keyword, the search would have found one.
      refine ⟨fun w' h => ?_, fun _ w htext => ?_⟩
      · simp [Kind.ofWord, hword] at h
      · have hall := List.find?_eq_none.1 hword w (Keyword.mem_all w)
        simp [← htext] at hall

namespace Piece

/-- The token of a piece fits the text of the piece, wherever the piece stands. -/
def Faithful (p : Piece) : Prop :=
  ∀ kind line start, p.sort = .token kind →
    Token.Faithful ⟨kind, String.ofList p.text, line, start⟩

theorem Faithful.of_kind {p : Piece} {kind : Token.Kind} (h : p.sort = .token kind)
    (hkeyword : ∀ w, kind ≠ .keyword w) (hidentifier : kind ≠ .identifier) : p.Faithful := by
  intro kind' line start h'
  have hkind : kind' = kind := by simpa [h] using h'.symm
  subst hkind
  exact ⟨fun w hw => absurd hw (hkeyword w), fun hw => absurd hw hidentifier⟩

theorem faithful_ofMark (text : List Char) (m : Mark) : (ofMark text m).Faithful :=
  .of_kind rfl (by simp) (by simp)

theorem faithful_gap (text : List Char) : Faithful ⟨text, .gap⟩ := by
  intro kind line start h
  cases h

theorem faithful_error (text : List Char) (cause : LexError.Cause) :
    Faithful ⟨text, .error cause⟩ := by
  intro kind line start h
  cases h

theorem faithful_cut (c : Char) (cs : List Char) : (cut c cs).1.Faithful := by
  unfold cut
  split
  · exact faithful_ofMark _ _
  · split <;> exact faithful_ofMark _ _
  · split
    · exact faithful_gap _
    · split
      · split
        · exact faithful_gap _
        · exact faithful_ofMark _ _
      · split
        · dsimp only
          split
          · exact .of_kind rfl (by simp) (by simp)
          · exact faithful_error _ _
        · split
          · exact .of_kind rfl (by simp) (by simp)
          · split
            · intro kind line start h
              cases h
              exact Token.faithful_ofWord _ _ _
            · exact faithful_error _ _

theorem faithful_of_mem_split {cs : List Char} {p : Piece} (h : p ∈ split cs) : p.Faithful := by
  fun_induction split cs with
  | case1 => cases h
  | case2 c cs ih =>
      rcases List.mem_cons.1 h with rfl | h
      · exact faithful_cut c cs
      · exact ih h

theorem text_ne_nil_of_mem_split {cs : List Char} {p : Piece} (h : p ∈ split cs) :
    p.text ≠ [] := by
  fun_induction split cs with
  | case1 => cases h
  | case2 c cs ih =>
      rcases List.mem_cons.1 h with rfl | h
      · exact cut_text_ne_nil c cs
      · exact ih h

end Piece

namespace Item

/-- The tokens among pieces that start on a line at an offset. -/
def tokens (line start : Nat) (ps : List Piece) : List Token :=
  (locate line start ps).filterMap token?

theorem tokens_cons (line start : Nat) (p : Piece) (ps : List Piece) :
    tokens line start (p :: ps) =
      ((ofPiece? p (line + p.text.count '\n') start).bind token?).toList ++
        tokens (line + p.text.count '\n') (start + p.text.length) ps := by
  rw [tokens, locate]
  cases hitem : ofPiece? p (line + p.text.count '\n') start with
  | none => rfl
  | some item => cases item <;> rfl

/-- The token of a piece starts where the piece does. -/
theorem of_mem_ofPiece? {p : Piece} {line start : Nat} {t : Token}
    (h : t ∈ ((ofPiece? p line start).bind token?).toList) :
    t.start = start ∧ p.sort = .token t.kind ∧ t.lexeme = String.ofList p.text := by
  unfold ofPiece? at h
  split at h <;> simp_all [token?]

/-- A token is one of the pieces. -/
theorem exists_piece_of_mem_tokens {ps : List Piece} {line start : Nat} {t : Token}
    (h : t ∈ tokens line start ps) :
    ∃ p ∈ ps, p.sort = .token t.kind ∧ t.lexeme = String.ofList p.text := by
  induction ps generalizing line start with
  | nil => cases h
  | cons p ps ih =>
      rw [tokens_cons, List.mem_append] at h
      rcases h with h | h
      · exact ⟨p, List.mem_cons_self, (of_mem_ofPiece? h).2⟩
      · obtain ⟨q, hq, hpiece⟩ := ih h
        exact ⟨q, List.mem_cons_of_mem p hq, hpiece⟩

theorem faithful_of_mem_tokens {ps : List Piece} (hps : ∀ p ∈ ps, p.Faithful) {line start : Nat}
    {t : Token} (h : t ∈ tokens line start ps) : t.Faithful := by
  induction ps generalizing line start with
  | nil => cases h
  | cons p ps ih =>
      rw [tokens_cons, List.mem_append] at h
      rcases h with h | h
      · obtain ⟨hstart, hsort, htext⟩ := of_mem_ofPiece? h
        obtain ⟨kind, lexeme, line', start'⟩ := t
        cases htext
        exact hps p (by simp) kind line' start' hsort
      · exact ih (fun q hq => hps q (by simp [hq])) h

theorem le_of_mem_tokens {ps : List Piece} {line start : Nat} {t : Token}
    (h : t ∈ tokens line start ps) : start ≤ t.start := by
  induction ps generalizing line start with
  | nil => cases h
  | cons p ps ih =>
      rw [tokens_cons, List.mem_append] at h
      rcases h with h | h
      · exact Nat.le_of_eq (of_mem_ofPiece? h).1.symm
      · exact Nat.le_trans (Nat.le_add_right _ _) (ih h)

/-- Tokens start before the end of the pieces. -/
theorem lt_of_mem_tokens {line start : Nat} {ps : List Piece} {t : Token}
    (hps : ∀ p ∈ ps, p.text ≠ []) (h : t ∈ tokens line start ps) :
    t.start < start + (ps.flatMap Piece.text).length := by
  induction ps generalizing line start with
  | nil => cases h
  | cons p ps ih =>
      rw [List.flatMap_cons, List.length_append]
      rw [tokens_cons, List.mem_append] at h
      rcases h with h | h
      · have hlength := List.length_pos_iff.2 (hps p List.mem_cons_self)
        rw [(of_mem_ofPiece? h).1]
        omega
      · have hlt := ih (fun q hq => hps q (.tail p hq)) h
        omega

/-- Tokens of pieces that are not empty start one after another. -/
theorem pairwise_tokens {ps : List Piece} (hps : ∀ p ∈ ps, p.text ≠ []) (line start : Nat) :
    (tokens line start ps).Pairwise (·.start < ·.start) := by
  induction ps generalizing line start with
  | nil => exact .nil
  | cons p ps ih =>
      rw [tokens_cons, List.pairwise_append]
      refine ⟨?_, ih (fun q hq => hps q (by simp [hq])) _ _, fun t ht u hu => ?_⟩
      · cases (ofPiece? p (line + p.text.count '\n') start).bind token? <;> simp
      · -- What comes after the piece starts after its first character.
        have hlength := List.length_pos_iff.2 (hps p (by simp))
        have hu := le_of_mem_tokens hu
        rw [(of_mem_ofPiece? ht).1]
        omega

end Item

namespace Scan

theorem faithful_of_mem {source : String} {offset : Nat} {t : Token}
    (h : t ∈ (ofText source offset).tokens) : t.Faithful :=
  Item.faithful_of_mem_tokens (fun _ => Piece.faithful_of_mem_split) h

/-- No two tokens of a text start at one offset. -/
theorem nodup_starts (source : String) (offset : Nat) :
    ((ofText source offset).tokens.map Token.start).Nodup := by
  have hpieces : ∀ p ∈ Piece.split source.toList, p.text ≠ [] :=
    fun _ => Piece.text_ne_nil_of_mem_split
  have h := Item.pairwise_tokens hpieces 1 offset
  exact List.pairwise_map.2 (h.imp Nat.ne_of_lt)

end Scan

end Lox
