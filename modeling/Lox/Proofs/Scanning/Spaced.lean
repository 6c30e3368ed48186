import Lox.Proofs.Scanning.Alike

set_option autoImplicit false

/-! # Lexemes with spaces between them

A lexeme is cut off again wherever a blank or nothing stands after it (`Piece.cut_lexeme`). So the
lexemes of a source, written one after another with single spaces between them, read as the same
tokens (`Scan.reads_spaced`): blanks, comments and characters that are dropped do not matter to the
tokens around them.
-/

namespace Lox

/-- A blank or nothing stands here. -/
def EndsLexeme (rest : List Char) : Prop := ∀ c ∈ rest.head?, isBlank c = true

namespace EndsLexeme

variable {rest : List Char}

theorem nil : EndsLexeme [] := nofun

theorem space (rest : List Char) : EndsLexeme (' ' :: rest) := by
  intro c hc
  cases hc
  rfl

/-- A look at the first character finds nothing but blanks. -/
theorem any_head? {f : Char → Bool} (h : EndsLexeme rest)
    (hf : [' ', '\r', '\t', '\n'].any f = false) : rest.head?.any f = false := by
  rw [Option.any_eq_false_iff_get]
  intro hsome
  rw [Bool.eq_false_iff]
  intro hc
  have hblank := h _ (Option.get_mem hsome)
  rw [isBlank_eq_false hf hc] at hblank
  cases hblank

theorem forall_ne_cons {c : Char} (h : EndsLexeme rest) (hc : isBlank c = false) :
    ∀ tail, rest ≠ c :: tail := by
  rintro tail rfl
  have hblank := h c rfl
  rw [hc] at hblank
  cases hblank

theorem endsNumeral (h : EndsLexeme rest) : EndsNumeral rest where
  digit := h.any_head? (by decide)
  point d tail hrest := absurd hrest (h.forall_ne_cons (by decide) _)

end EndsLexeme

/-! ## One lexeme -/

/-- A numeral is cut off where no numeral goes on. -/
theorem Numeral.cut_append {text rest : List Char} (h : Numeral text) (hrest : EndsNumeral rest) :
    cutNumeral (text ++ rest) = (text, rest) := by
  cases h with
  | whole hne h => exact cutNumeral_whole h hrest
  | @decimal digits fraction hne h hne' h' =>
      obtain ⟨d, fraction, rfl⟩ := List.exists_cons_of_ne_nil hne'
      obtain ⟨hd, hfraction⟩ := List.forall_mem_cons.1 h'
      rw [List.append_assoc]
      exact cutNumeral_decimal h hd hfraction hrest.digit

namespace Piece

variable {text rest : List Char} {kind : Token.Kind}

/-- A lexeme is cut off where a blank or nothing stands after it. -/
theorem cut_lexeme {c : Char} {cs : List Char} (h : Lexeme (c :: cs) kind)
    (hrest : EndsLexeme rest) : cut c (cs ++ rest) = (⟨c :: cs, .token kind⟩, rest) := by
  have hcontinues := h.continues
  have hholds := Start.holds_of c
  rw [cut_eq]
  cases hstart : Start.of c with
  | single m =>
      rw [hstart] at hcontinues
      obtain ⟨rfl, rfl⟩ := hcontinues
      rfl
  | pair alone extended =>
      rw [hstart] at hcontinues
      rcases hcontinues with ⟨rfl, rfl⟩ | ⟨rfl, rfl⟩
      · exact Start.cut_alone (hrest.forall_ne_cons (by decide))
      · rfl
  | slash =>
      rw [hstart] at hcontinues
      obtain ⟨rfl, rfl⟩ := hcontinues
      exact Start.cut_slash (hrest.forall_ne_cons (by decide))
  | quote =>
      rw [hstart] at hcontinues hholds
      obtain rfl : c = '"' := hholds
      obtain ⟨contents, hcontents, rfl, rfl⟩ := hcontinues
      have hne : ∀ d ∈ contents, (d != '"') = true := by
        intro d hd
        rw [bne_iff_ne]
        rintro rfl
        exact hcontents hd
      rw [List.append_assoc]
      exact Start.cut_string hne rest
  | digit =>
      rw [hstart] at hcontinues
      obtain ⟨hnumeral, rfl⟩ := hcontinues
      have hcut := hnumeral.cut_append hrest.endsNumeral
      rw [Start.cut, ← List.cons_append, hcut]
  | letter =>
      rw [hstart] at hcontinues
      obtain ⟨hcs, rfl⟩ := hcontinues
      exact Start.cut_letter hcs (hrest.any_head? (by decide))
  | blank | other =>
      rw [hstart] at hcontinues
      exact hcontinues.elim

/-- The pieces from a lexeme on. -/
theorem split_lexeme (h : Lexeme text kind) (hrest : EndsLexeme rest) :
    split (text ++ rest) = ⟨text, .token kind⟩ :: split rest := by
  obtain ⟨c, cs, rfl⟩ := List.exists_cons_of_ne_nil h.ne_nil
  rw [List.cons_append, split_cons, cut_lexeme h hrest]

/-- The piece that a token was. -/
def ofToken (t : Token) : Piece := ⟨t.lexeme.toList, .token t.kind⟩

/-- The space between two tokens. -/
def space : Piece := ⟨[' '], .gap⟩

/-- The tokens of lexemes with spaces between them, and the spaces. -/
theorem split_spaced {ts : List Token} (h : ∀ t ∈ ts, Lexeme t.lexeme.toList t.kind) :
    split ([' '].intercalate (ts.map fun t => t.lexeme.toList)) =
      (ts.map ofToken).intersperse space := by
  induction ts with
  | nil => exact split_nil
  | cons t ts ih =>
      obtain ⟨ht, hts⟩ := List.forall_mem_cons.1 h
      cases ts with
      | nil =>
          have hlast := split_lexeme ht .nil
          rw [List.append_nil, split_nil] at hlast
          rw [List.map_singleton, List.intercalate_singleton]
          exact hlast
      | cons u ts =>
          have hih := ih hts
          simp only [List.map_cons] at hih ⊢
          rw [List.intercalate_cons_cons, List.append_assoc, List.singleton_append,
            split_lexeme ht (.space _), split_cons, List.intersperse_cons_cons, ← hih]
          rfl

/-- What a piece reads as, wherever it stands: a kind and a lexeme, an error, or no item at all. -/
def reading? (p : Piece) : Option (Option (Token.Kind × String)) :=
  match p.sort with
  | .gap => none
  | .token kind => some (some (kind, String.ofList p.text))
  | .error _ => some none

end Piece

/-! ## All lexemes -/

/-- What a token reads as, wherever it stands. -/
def Token.reading (t : Token) : Token.Kind × String := (t.kind, t.lexeme)

/-- What an item reads as, if it is a token. -/
def Item.reading? (item : Item) : Option (Token.Kind × String) := item.token?.map Token.reading

theorem Item.map_reading?_locate (line start : Nat) (ps : List Piece) :
    (locate line start ps).map reading? = ps.filterMap Piece.reading? := by
  induction ps generalizing line start with
  | nil => rfl
  | cons p ps ih =>
      obtain ⟨text, sort⟩ := p
      rw [locate, List.map_append, ih, List.filterMap_cons]
      cases sort <;> rfl

/-- Items that all read as tokens are these tokens. -/
theorem Item.of_map_reading? {items : List Item} {rs : List (Token.Kind × String)}
    (h : items.map reading? = rs.map some) :
    items.filterMap error? = [] ∧ (items.filterMap token?).map Token.reading = rs := by
  induction items generalizing rs with
  | nil =>
      obtain rfl : rs = [] := List.map_eq_nil_iff.1 h.symm
      exact ⟨rfl, rfl⟩
  | cons item items ih =>
      cases rs with
      | nil => cases h
      | cons r rs =>
          rw [List.map_cons, List.map_cons, List.cons.injEq] at h
          obtain ⟨hitem, hitems⟩ := h
          obtain ⟨herrors, htokens⟩ := ih hitems
          cases item with
          | error e => cases hitem
          | token t =>
              cases hitem
              exact ⟨herrors, congrArg (t.reading :: ·) htokens⟩

/-- A space is no item, and the piece of a token reads as the token. -/
theorem Piece.filterMap_reading?_spaced (ts : List Token) :
    ((ts.map ofToken).intersperse space).filterMap reading? =
      (ts.map Token.reading).map some := by
  induction ts with
  | nil => rfl
  | cons t ts ih =>
      have hreading : reading? (ofToken t) = some (some t.reading) := by
        rw [reading?, ofToken, String.ofList_toList]
        rfl
      cases ts with
      | nil => simp [hreading]
      | cons u ts =>
          simp only [List.map_cons, List.intersperse_cons_cons, List.filterMap_cons, hreading] at ih ⊢
          rw [ih]
          rfl

namespace Scan

/-- The lexemes of the tokens of a text, with single spaces between them. -/
def spaced (scan : Scan) : String := " ".intercalate (scan.tokens.map Token.lexeme)

/-- Lexemes scan back to themselves: written with single spaces between them, the lexemes of a
source are read without an error, as the same kinds, lexemes and values in the same order, up to
the end of the source. -/
theorem reads_spaced (source : String) (offset offset' : Nat) :
    let scan := ofText source offset
    let again := ofText scan.spaced offset'
    again.errors = [] ∧
      (again.tokens ++ [again.eof]).map Token.reading =
        (scan.tokens ++ [scan.eof]).map Token.reading := by
  intro scan again
  have htext : scan.spaced.toList = [' '].intercalate (scan.tokens.map fun t => t.lexeme.toList) := by
    rw [spaced, String.toList_intercalate, List.map_map]
    rfl
  have hitems : again.items.map Item.reading? = (scan.tokens.map Token.reading).map some := by
    show (Item.locate 1 offset' (Piece.split scan.spaced.toList)).map Item.reading? = _
    rw [htext, Piece.split_spaced fun t => lexeme_of_mem, Item.map_reading?_locate,
      Piece.filterMap_reading?_spaced]
  obtain ⟨herrors, htokens⟩ := Item.of_map_reading? hitems
  refine ⟨herrors, ?_⟩
  rw [List.map_append, List.map_append]
  exact congrArg (· ++ _) htokens

end Scan

end Lox
