import Lox.Proofs.Renaming.Tree
import Lox.Proofs.Renumbering.Scan
import Lox.Proofs.Scanning.Alike
import Mathlib.Data.List.Forall2
import Mathlib.Logic.Equiv.Basic

set_option autoImplicit false

/-! # Renamed texts

A renaming of a text replaces the old spelling by the new one wherever one of the offsets is
(`Renaming.source`). If both are identifiers, and an identifier with the old spelling is at each of
the offsets, then the text has the renamed tokens: on the same lines, and at other offsets as far as
the two spellings differ in length (`Scan.exists_renumbering`).
-/

namespace Lox

variable (r : Renaming)

/-- The characters from an offset on, with the old spelling replaced at the offsets of the renaming.
The first so many characters belong to an old spelling already replaced. -/
def Renaming.replace : Nat → Nat → List Char → List Char
  | _, _, [] => []
  | start, skip + 1, _ :: cs => replace (start + 1) skip cs
  | start, 0, c :: cs =>
    if start ∈ r.starts then r.new.toList ++ replace (start + 1) (r.old.length - 1) cs
    else c :: replace (start + 1) 0 cs

/-- The renamed text. Its first character has this offset. -/
def Renaming.source (offset : Nat) (source : String) : String :=
  String.ofList (r.replace offset 0 source.toList)

/-- The piece at an offset, renamed. -/
def Piece.rename (start : Nat) (p : Piece) : Piece :=
  if start ∈ r.starts then { p with text := r.new.toList } else p

/-- The pieces from an offset on, renamed. -/
def Piece.renameAll : Nat → List Piece → List Piece
  | _, [] => []
  | start, p :: ps => p.rename r start :: renameAll (start + p.text.length) ps

/-- The offsets of the renaming, from this one on, are those of identifiers with the old spelling.
-/
def Piece.Renamable : Nat → List Piece → Prop
  | _, [] => True
  | start, p :: ps =>
    (start ∈ r.starts → p = ⟨r.old.toList, .token .identifier⟩) ∧
      (∀ i ∈ r.starts, start < i → start + p.text.length ≤ i) ∧
      Renamable (start + p.text.length) ps

/-! ## Characters -/

namespace Renaming

theorem replace_skip (xs cs : List Char) (start : Nat) :
    r.replace start xs.length (xs ++ cs) = r.replace (start + xs.length) 0 cs := by
  induction xs generalizing start with
  | nil => rfl
  | cons x xs ih =>
      rw [List.length_cons, List.cons_append, replace, ih, Nat.add_right_comm, Nat.add_assoc]

theorem replace_keep {xs : List Char} (cs : List Char) {start : Nat}
    (h : ∀ i ∈ r.starts, start ≤ i → start + xs.length ≤ i) :
    r.replace start 0 (xs ++ cs) = xs ++ r.replace (start + xs.length) 0 cs := by
  induction xs generalizing start with
  | nil => rfl
  | cons x xs ih =>
      rw [List.length_cons] at h
      have hstart : start ∉ r.starts := by
        intro hmem
        have hle := h start hmem (Nat.le_refl _)
        omega
      have hafter : ∀ i ∈ r.starts, start + 1 ≤ i → start + 1 + xs.length ≤ i := by
        intro i hi hle
        have hle' := h i hi (by omega)
        omega
      rw [List.cons_append, replace, if_neg hstart, ih hafter, List.length_cons, List.cons_append]
      congr 3
      omega

theorem replace_old {start : Nat} (hstart : start ∈ r.starts) (hold : r.old.toList ≠ [])
    (cs : List Char) :
    r.replace start 0 (r.old.toList ++ cs) =
      r.new.toList ++ r.replace (start + r.old.toList.length) 0 cs := by
  obtain ⟨c, text, htext⟩ := List.exists_cons_of_ne_nil hold
  have hlength : r.old.length = text.length + 1 := by
    rw [← String.length_toList, htext, List.length_cons]
  rw [htext, List.cons_append, replace, if_pos hstart, hlength, Nat.add_sub_cancel, replace_skip,
    List.length_cons]
  congr 2
  omega

end Renaming

/-! ## Pieces -/

namespace Piece

variable {r} {start : Nat} {p : Piece} {ps : List Piece}

theorem rename_of_mem (h : start ∈ r.starts) (p : Piece) :
    p.rename r start = { p with text := r.new.toList } := if_pos h

theorem rename_of_not_mem (h : start ∉ r.starts) (p : Piece) : p.rename r start = p := if_neg h

theorem sort_rename (start : Nat) (p : Piece) : (p.rename r start).sort = p.sort := by
  by_cases h : start ∈ r.starts
  · rw [rename_of_mem h]
  · rw [rename_of_not_mem h]

theorem Renamable.keep (h : Renamable r start (p :: ps)) (hstart : start ∉ r.starts) :
    ∀ i ∈ r.starts, start ≤ i → start + p.text.length ≤ i := by
  intro i hi hle
  have hne : start ≠ i := by
    rintro rfl
    exact hstart hi
  exact h.2.1 i hi (Nat.lt_of_le_of_ne hle hne)

/-- The renamed pieces join to the renamed text. -/
theorem flatMap_renameAll (hold : r.old.toList ≠ []) (h : Renamable r start ps) :
    (renameAll r start ps).flatMap text = r.replace start 0 (ps.flatMap text) := by
  induction ps generalizing start with
  | nil => rfl
  | cons p ps ih =>
      rw [renameAll, List.flatMap_cons, List.flatMap_cons, ih h.2.2]
      by_cases hstart : start ∈ r.starts
      · rw [rename_of_mem hstart, h.1 hstart, r.replace_old hstart hold]
      · rw [rename_of_not_mem hstart, r.replace_keep _ (h.keep hstart)]

/-- After each piece the renamed text goes on as the text does, up to a renamed word. -/
theorem alike_renameAll (hold : ∃ c ∈ r.old.toList.head?, startsWord c = true)
    (hnew : ∃ c ∈ r.new.toList.head?, startsWord c = true) (h : Renamable r start ps) :
    Alike (ps.flatMap text) ((renameAll r start ps).flatMap text) := by
  induction ps generalizing start with
  | nil => exact .nil
  | cons p ps ih =>
      rw [renameAll, List.flatMap_cons, List.flatMap_cons]
      by_cases hstart : start ∈ r.starts
      · obtain ⟨c, hc, hword⟩ := hold
        obtain ⟨c', hc', hword'⟩ := hnew
        obtain ⟨cs, htext⟩ := List.head?_eq_some_iff.1 hc
        obtain ⟨cs', htext'⟩ := List.head?_eq_some_iff.1 hc'
        rw [rename_of_mem hstart, h.1 hstart, htext, htext']
        exact .word _ _ hword hword'
      · rw [rename_of_not_mem hstart]
        exact (ih h.2.2).append p.text

end Piece

/-! ## Cutting -/

section Identifiers

variable {text : List Char} {word : String}

/-- An identifier is a word that is no keyword. -/
theorem Lexeme.exists_word (h : Lexeme text .identifier) :
    ∃ c cs, text = c :: cs ∧ startsWord c = true ∧ (∀ d ∈ cs, continuesWord d = true) ∧
      ∀ w : Keyword, w.text.toList ≠ text := by
  generalize hkind : Token.Kind.identifier = kind at h
  cases h with
  | identifier hc hcs h => exact ⟨_, _, rfl, hc, hcs, h⟩
  | _ => cases hkind

theorem Lexeme.exists_head? (h : Lexeme text .identifier) :
    ∃ c ∈ text.head?, startsWord c = true := by
  obtain ⟨c, cs, rfl, hc, -⟩ := h.exists_word
  exact ⟨c, rfl, hc⟩

theorem Lexeme.ofWord_eq (h : Lexeme word.toList .identifier) :
    Token.Kind.ofWord word = .identifier := by
  obtain ⟨-, -, -, -, -, hkeyword⟩ := h.exists_word
  exact Token.Kind.ofWord_of_forall_ne fun w hw => hkeyword w (hw ▸ rfl)

/-- An identifier stands on one line. -/
theorem Lexeme.count_line (h : Lexeme text .identifier) : text.count '\n' = 0 := by
  obtain ⟨c, cs, rfl, hc, hcs, -⟩ := h.exists_word
  refine List.count_eq_zero.2 fun hmem => ?_
  rcases List.mem_cons.1 hmem with rfl | hmem
  · exact absurd hc (by decide)
  · exact absurd (hcs _ hmem) (by decide)

end Identifiers

section Cutting

variable {r} (hold : Lexeme r.old.toList .identifier) (hnew : Lexeme r.new.toList .identifier)

include hold hnew

/-- The renamed text is cut into the renamed pieces. -/
theorem Piece.split_renameAll {start : Nat} {cs : List Char} (h : Renamable r start (split cs)) :
    split ((renameAll r start (split cs)).flatMap text) = renameAll r start (split cs) := by
  fun_induction split cs generalizing start with
  | case1 => exact split_nil
  | case2 c cs ih =>
      have hcut : cut c cs = ((cut c cs).1, (cut c cs).2) := rfl
      have happend := cut_append c cs
      have hih := ih h.2.2
      have halike := alike_renameAll hold.exists_head? hnew.exists_head? h.2.2
      rw [flatten_split] at halike
      rw [renameAll, List.flatMap_cons]
      generalize renameAll r (start + (cut c cs).1.text.length) (split (cut c cs).2) = ps
        at hih halike ⊢
      by_cases hstart : start ∈ r.starts
      · have hpiece := h.1 hstart
        obtain ⟨d, ds, htext, hd, -⟩ := hold.exists_word
        obtain ⟨d', ds', htext', hd', hds', -⟩ := hnew.exists_word
        have hc : startsWord c = true := by
          rw [hpiece, htext] at happend
          rwa [← (List.cons.inj happend).1]
        have hword := cut_word hc hcut halike htext' hd' hds'
        rw [hnew.ofWord_eq] at hword
        rw [rename_of_mem hstart, hpiece]
        show split (r.new.toList ++ ps.flatMap text) = ⟨r.new.toList, .token .identifier⟩ :: ps
        rw [htext', List.cons_append, split_cons, hword, hih, htext']
      · obtain ⟨text, htext, hkept⟩ := cut_alike hcut halike
        rw [rename_of_not_mem hstart, htext, List.cons_append, split_cons, hkept, hih]

end Cutting

/-! ## Tokens -/

/-- The offsets are those of pieces, if an identifier with the old spelling starts at each of
them. -/
theorem Piece.renamable_of_tokens {r} {line start : Nat} {ps : List Piece}
    (hps : ∀ p ∈ ps, p.text ≠ [])
    (h : ∀ i ∈ r.starts, start ≤ i → ∃ t ∈ Item.tokens line start ps,
      t.start = i ∧ t.kind = .identifier ∧ t.lexeme = r.old) : Renamable r start ps := by
  induction ps generalizing line start with
  | nil => trivial
  | cons p ps ih =>
      have hlength := List.length_pos_iff.2 (hps p List.mem_cons_self)
      -- Each token is the one of the first piece, or starts after it.
      have hcases : ∀ i ∈ r.starts, start ≤ i →
          (i = start ∧ p.sort = .token .identifier ∧ String.ofList p.text = r.old) ∨
            ∃ t ∈ Item.tokens (line + p.text.count '\n') (start + p.text.length) ps,
              t.start = i ∧ t.kind = .identifier ∧ t.lexeme = r.old := by
        intro i hi hle
        obtain ⟨t, ht, hstart, hkind, htext⟩ := h i hi hle
        rw [Item.tokens_cons, List.mem_append] at ht
        rcases ht with ht | ht
        · obtain ⟨hstart', hsort, htext'⟩ := Item.of_mem_ofPiece? ht
          exact .inl ⟨hstart ▸ hstart', hkind ▸ hsort, htext' ▸ htext⟩
        · exact .inr ⟨t, ht, hstart, hkind, htext⟩
      have hafter : Renamable r (start + p.text.length) ps := by
        refine @ih (line + p.text.count '\n') _ (fun q hq => hps q (.tail p hq)) fun i hi hle => ?_
        rcases hcases i hi (by omega) with ⟨rfl, -⟩ | htoken
        · omega
        · exact htoken
      refine ⟨fun hstart => ?_, fun i hi hlt => ?_, hafter⟩
      · rcases hcases start hstart (Nat.le_refl start) with ⟨-, hsort, htext⟩ | ⟨t, ht, hstart', -⟩
        · obtain ⟨text, sort⟩ := p
          dsimp only at hsort htext
          rw [hsort, ← htext, String.toList_ofList]
        · have hle := Item.le_of_mem_tokens ht
          omega
      · rcases hcases i hi (Nat.le_of_lt hlt) with ⟨rfl, -⟩ | ⟨t, ht, rfl, -⟩
        · exact absurd hlt (Nat.lt_irrefl i)
        · exact Item.le_of_mem_tokens ht

section Tokens

variable {r} (hold : Lexeme r.old.toList .identifier) (hnew : Lexeme r.new.toList .identifier)
  {start : Nat} {ps : List Piece}

include hold hnew

theorem Piece.count_line_rename {p : Piece}
    (h : start ∈ r.starts → p = ⟨r.old.toList, .token .identifier⟩) :
    (p.rename r start).text.count '\n' = p.text.count '\n' := by
  by_cases hstart : start ∈ r.starts
  · rw [rename_of_mem hstart, h hstart, hold.count_line, hnew.count_line]
  · rw [rename_of_not_mem hstart]

/-- A renamed text has as many lines. -/
theorem Piece.count_line_renameAll (h : Renamable r start ps) :
    ((renameAll r start ps).flatMap text).count '\n' = (ps.flatMap text).count '\n' := by
  induction ps generalizing start with
  | nil => rfl
  | cons p ps ih =>
      rw [renameAll, List.flatMap_cons, List.flatMap_cons, List.count_append, List.count_append,
        count_line_rename hold hnew h.1, ih h.2.2]

/-- The tokens of renamed pieces are the renamed tokens, at other offsets. -/
theorem Item.tokens_renameAll {line start' : Nat} (h : Piece.Renamable r start ps) :
    List.Forall₂ (fun t t' => t' = { t.rename r with start := t'.start }) (tokens line start ps)
      (tokens line start' (Piece.renameAll r start ps)) := by
  induction ps generalizing line start start' with
  | nil => exact .nil
  | cons p ps ih =>
      rw [Piece.renameAll, tokens_cons, tokens_cons, Piece.count_line_rename hold hnew h.1]
      refine List.rel_append ?_ (ih h.2.2)
      by_cases hstart : start ∈ r.starts
      · rw [Piece.rename_of_mem hstart, h.1 hstart]
        refine .cons ?_ .nil
        simp only [Token.rename, String.ofList_toList, r.text_of_mem hstart]
      · rw [Piece.rename_of_not_mem hstart, ofPiece?, ofPiece?]
        cases p.sort with
        | gap | error => exact .nil
        | token kind =>
            refine .cons ?_ .nil
            simp only [Token.rename, r.text_of_not_mem hstart]

end Tokens

/-- Renamed pieces have no errors if the pieces have none. -/
theorem Item.errors_renameAll {line line' start start' : Nat} {ps : List Piece}
    (h : (locate line start ps).filterMap error? = []) :
    (locate line' start' (Piece.renameAll r start ps)).filterMap error? = [] := by
  induction ps generalizing line line' start start' with
  | nil => rfl
  | cons p ps ih =>
      rw [locate, List.filterMap_append, List.append_eq_nil_iff] at h
      rw [Piece.renameAll, locate, List.filterMap_append, List.append_eq_nil_iff]
      refine ⟨?_, ih h.2⟩
      have hfirst := h.1
      rw [ofPiece?] at hfirst ⊢
      rw [Piece.sort_rename]
      cases hsort : p.sort with
      | gap | token => rfl
      | error cause =>
          rw [hsort] at hfirst
          cases hfirst

/-! ## Offsets -/

/-- Any places can be numbered as any others. -/
theorem exists_perm_map_eq {as bs : List Nat} (has : as.Nodup) (hbs : bs.Nodup)
    (h : as.length = bs.length) : ∃ σ : Equiv.Perm Nat, as.map σ = bs := by
  induction as generalizing bs with
  | nil => exact ⟨Equiv.refl Nat, (List.length_eq_zero_iff.1 h.symm).symm⟩
  | cons a as ih =>
      cases bs with
      | nil => cases h
      | cons b bs =>
          obtain ⟨ha, has⟩ := List.nodup_cons.1 has
          obtain ⟨hb, hbs⟩ := List.nodup_cons.1 hbs
          obtain ⟨σ, hσ⟩ := ih has hbs (Nat.succ.inj h)
          refine ⟨σ.trans (Equiv.swap (σ a) b), ?_⟩
          rw [List.map_cons, Equiv.trans_apply, Equiv.swap_apply_left, ← hσ]
          congr 1
          refine List.map_congr_left fun x hx => ?_
          have hne : σ x ≠ σ a := by
            intro heq
            rw [σ.injective heq] at hx
            exact ha hx
          have hne' : σ x ≠ b := by
            rintro rfl
            exact hb (hσ ▸ List.mem_map_of_mem hx)
          rw [Equiv.trans_apply, Equiv.swap_apply_of_ne_of_ne hne hne']

theorem eq_map_renumber {σ : Nat → Nat} {ts ts' : List Token}
    (h : List.Forall₂ (fun t t' => t' = { t.rename r with start := t'.start }) ts ts')
    (hσ : (ts.map Token.start).map σ = ts'.map Token.start) :
    ts' = (ts.map (Token.rename r)).map (Token.renumber ⟨id, σ⟩) := by
  induction h with
  | nil => rfl
  | @cons t t' ts ts' ht _ ih =>
      obtain ⟨hstart, hstarts⟩ := List.cons.inj hσ
      rw [List.map_cons, List.map_cons, ← ih hstarts, ht, ← hstart]
      rfl

namespace Scan

/-- The offsets of the tokens and of the end. -/
theorem nodup_allStarts (source : String) (offset : Nat) :
    ((ofText source offset).eof.start :: (ofText source offset).tokens.map Token.start).Nodup := by
  refine List.nodup_cons.2 ⟨fun hmem => ?_, nodup_starts source offset⟩
  obtain ⟨t, ht, hstart⟩ := List.mem_map.1 hmem
  have hlt := Item.lt_of_mem_tokens (fun _ => Piece.text_ne_nil_of_mem_split) ht
  rw [Piece.flatten_split, hstart] at hlt
  exact Nat.lt_irrefl _ hlt

variable {r} {source : String} {offset : Nat} (hold : Lexeme r.old.toList .identifier)
  (hnew : Lexeme r.new.toList .identifier)
  (hstarts : ∀ i ∈ r.starts, ∃ t ∈ (ofText source offset).tokens,
    t.start = i ∧ t.kind = .identifier ∧ t.lexeme = r.old)

include hold hnew hstarts

/-- The pieces of a renamed text are the renamed pieces. -/
theorem renamed_pieces :
    Piece.Renamable r offset (Piece.split source.toList) ∧
      Piece.split (r.source offset source).toList =
        Piece.renameAll r offset (Piece.split source.toList) := by
  have hrenamable : Piece.Renamable r offset (Piece.split source.toList) :=
    Piece.renamable_of_tokens (fun _ => Piece.text_ne_nil_of_mem_split) fun i hi _ => hstarts i hi
  have hpieces := Piece.split_renameAll hold hnew hrenamable
  rw [Piece.flatMap_renameAll hold.ne_nil hrenamable, Piece.flatten_split] at hpieces
  refine ⟨hrenamable, ?_⟩
  rw [Renaming.source, String.toList_ofList, hpieces]

theorem errors_renamed (h : (ofText source offset).errors = []) :
    (ofText (r.source offset source) offset).errors = [] := by
  have hpieces := (renamed_pieces hold hnew hstarts).2
  show (Item.locate 1 offset (Piece.split (r.source offset source).toList)).filterMap _ = []
  rw [hpieces]
  exact Item.errors_renameAll r h

/-- A renamed text has the renamed tokens on the same lines. -/
theorem exists_renumbering :
    ∃ ν : Renumbering, (∀ i, ν.line i = i) ∧ Function.Injective ν.start ∧
      (ofText (r.source offset source) offset).tokens =
        ((ofText source offset).tokens.map (Token.rename r)).map (Token.renumber ν) ∧
      (ofText (r.source offset source) offset).eof =
        ((ofText source offset).eof.rename r).renumber ν := by
  obtain ⟨hrenamable, hpieces⟩ := renamed_pieces hold hnew hstarts
  have htokens : List.Forall₂ (fun t t' => t' = { t.rename r with start := t'.start })
      (ofText source offset).tokens (ofText (r.source offset source) offset).tokens := by
    simp only [tokens, ofText, hpieces]
    exact Item.tokens_renameAll hold hnew hrenamable
  have hlines : (r.source offset source).toList.count '\n' = source.toList.count '\n' := by
    have hcount := Piece.count_line_renameAll hold hnew hrenamable
    rwa [← hpieces, Piece.flatten_split, Piece.flatten_split] at hcount
  obtain ⟨σ, hσ⟩ := exists_perm_map_eq (nodup_allStarts source offset)
    (nodup_allStarts (r.source offset source) offset) (by
      rw [List.length_cons, List.length_cons, List.length_map, List.length_map,
        htokens.length_eq])
  obtain ⟨heof, hσ⟩ := List.cons.inj hσ
  refine ⟨⟨id, σ⟩, fun i => rfl, σ.injective, eq_map_renumber r htokens hσ, ?_⟩
  have hne : ("" : String) ≠ r.old := by
    intro hempty
    rw [← hempty] at hold
    exact hold.ne_nil rfl
  have hline : (ofText (r.source offset source) offset).eof.line =
      (ofText source offset).eof.line := congrArg (1 + ·) hlines
  calc (ofText (r.source offset source) offset).eof
    _ = ⟨.eof, "", (ofText (r.source offset source) offset).eof.line,
          (ofText (r.source offset source) offset).eof.start⟩ := rfl
    _ = ⟨.eof, r.text (ofText source offset).eof.start "", (ofText source offset).eof.line,
          σ (ofText source offset).eof.start⟩ := by rw [hline, heof, r.text_of_ne hne]

end Scan

end Lox
