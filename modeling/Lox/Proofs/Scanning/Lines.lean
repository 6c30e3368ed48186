import Lox.Proofs.Scanning.Tokens

set_option autoImplicit false

/-! # Texts of several lines

No piece of a text goes on behind the end of a line, other than a string. So a text in which every
string is closed has the same pieces whether or not another text comes after it on a line of its
own (`Piece.split_line`), and its tokens come before those of the other text.
-/

namespace Lox

section Blocks

variable {α : Type} {p : α → Bool} {x : α}

theorem takeWhile_stop (hx : p x = false) (xs ys : List α) :
    (xs ++ x :: ys).takeWhile p = xs.takeWhile p := by
  induction xs with
  | nil => rw [List.nil_append, List.takeWhile_cons, hx]; rfl
  | cons y xs ih => rw [List.cons_append, List.takeWhile_cons, List.takeWhile_cons, ih]

theorem dropWhile_stop (hx : p x = false) (xs ys : List α) :
    (xs ++ x :: ys).dropWhile p = xs.dropWhile p ++ x :: ys := by
  induction xs with
  | nil => rw [List.nil_append, List.dropWhile_cons, hx]; rfl
  | cons y xs ih =>
      rw [List.cons_append, List.dropWhile_cons, List.dropWhile_cons, ih]
      split <;> rfl

/-- A block that has ended is not changed by what comes after. -/
theorem span_of_closed {xs rest : List α} (h : xs.dropWhile p = x :: rest) (ys : List α) :
    (xs ++ ys).takeWhile p = xs.takeWhile p ∧ (xs ++ ys).dropWhile p = x :: rest ++ ys := by
  have hlength : (xs.takeWhile p).length ≠ xs.length := by
    intro hlength
    have hsum := congrArg List.length (List.takeWhile_append_dropWhile (p := p) (l := xs))
    rw [List.length_append, h, List.length_cons] at hsum
    omega
  refine ⟨by rw [List.takeWhile_append, if_neg hlength], ?_⟩
  rw [List.dropWhile_append, h]
  rfl

end Blocks

namespace Piece

variable {c : Char} {cs ds : List Char}

/-- A numeral ends with its line. -/
theorem cutNumeral_line (cs ds : List Char) :
    cutNumeral (cs ++ '\n' :: ds) = ((cutNumeral cs).1, (cutNumeral cs).2 ++ '\n' :: ds) := by
  have htake := takeWhile_stop (p := Char.isDigit) (x := '\n') (by decide)
  have hdrop := dropWhile_stop (p := Char.isDigit) (x := '\n') (by decide)
  unfold cutNumeral
  rw [htake, hdrop]
  rcases cs.dropWhile Char.isDigit with _ | ⟨e, tail⟩
  · rfl
  · by_cases he : e = '.'
    · subst he
      rcases tail with _ | ⟨d, rest⟩
      · rfl
      · simp only [List.cons_append]
        have htake' := htake (d :: rest) ds
        have hdrop' := hdrop (d :: rest) ds
        rw [List.cons_append] at htake' hdrop'
        rw [htake', hdrop']
        split <;> rfl
    · simp [he]

/-- What is cut off a text is cut off it too when another line comes after, unless it is a string
that is not closed. -/
theorem cut_line (h : (cut c cs).1.sort ≠ .error .unterminatedString) :
    cut c (cs ++ '\n' :: ds) = ((cut c cs).1, (cut c cs).2 ++ '\n' :: ds) := by
  unfold cut at h ⊢
  cases hmark : Mark.ofChar? c with
  | some m => rfl
  | none =>
      cases hpair : Mark.pairOfChar? c with
      | some pair =>
          rcases cs with _ | ⟨e, cs⟩
          · rfl
          · by_cases he : e = '='
            · subst he
              rfl
            · simp [he]
      | none =>
          simp only [hmark, hpair] at h ⊢
          split
          · rfl
          · rename_i hblank
            rw [if_neg hblank] at h
            split
            · rcases cs with _ | ⟨e, cs⟩
              · rfl
              · by_cases he : e = '/'
                · subst he
                  simp only [List.cons_append]
                  rw [takeWhile_stop (by decide), dropWhile_stop (by decide)]
                · simp [he]
            · rename_i hslash
              rw [if_neg hslash] at h
              split
              · rename_i hquote
                rw [if_pos hquote] at h
                cases hrest : cs.dropWhile (· != '"') with
                | nil =>
                    rw [hrest] at h
                    exact absurd rfl h
                | cons quote rest =>
                    obtain ⟨htake, hdrop⟩ := span_of_closed hrest ('\n' :: ds)
                    rw [htake, hdrop]
                    rfl
              · split
                · have hnumeral := cutNumeral_line (c :: cs) ds
                  rw [List.cons_append] at hnumeral
                  rw [hnumeral]
                · split
                  · rw [takeWhile_stop (p := continuesWord) (by decide),
                      dropWhile_stop (p := continuesWord) (by decide)]
                  · rfl

/-- The pieces of a text in which every string is closed, and those of the lines after it. -/
theorem split_line {cs : List Char}
    (h : ∀ p ∈ split cs, p.sort ≠ .error .unterminatedString) (ds : List Char) :
    split (cs ++ '\n' :: ds) = split cs ++ ⟨['\n'], .gap⟩ :: split ds := by
  fun_induction split cs with
  | case1 => exact split_cons '\n' ds
  | case2 c cs ih =>
      obtain ⟨hfirst, hrest⟩ := List.forall_mem_cons.1 h
      rw [List.cons_append, split_cons, cut_line hfirst, ih hrest, List.cons_append]

end Piece

namespace Item

theorem locate_append (line start : Nat) (ps qs : List Piece) :
    locate line start (ps ++ qs) =
      locate line start ps ++
        locate (line + (ps.flatMap Piece.text).count '\n')
          (start + (ps.flatMap Piece.text).length) qs := by
  induction ps generalizing line start with
  | nil => rfl
  | cons p ps ih =>
      rw [List.cons_append, locate, locate, ih, List.append_assoc, List.flatMap_cons,
        List.count_append, List.length_append, Nat.add_assoc, Nat.add_assoc]

/-- A piece that is an error is one of the errors. -/
theorem exists_of_sort_error {line start : Nat} {ps : List Piece} {p : Piece} (hp : p ∈ ps)
    {cause : LexError.Cause} (hsort : p.sort = .error cause) :
    ∃ e ∈ (locate line start ps).filterMap error?, e.cause = cause := by
  induction ps generalizing line start with
  | nil => cases hp
  | cons q ps ih =>
      rw [locate, List.filterMap_append]
      rcases List.mem_cons.1 hp with rfl | hp
      · have hitem : ofPiece? p (line + p.text.count '\n') start =
            some (.error ⟨cause, line + p.text.count '\n', start, start + p.text.length⟩) := by
          rw [ofPiece?, hsort]
        rw [hitem]
        exact ⟨_, List.mem_append_left _ (List.mem_singleton_self _), rfl⟩
      · obtain ⟨e, he, hcause⟩ := ih hp
        exact ⟨e, List.mem_append_right _ he, hcause⟩

end Item

namespace Scan

/-- Every string is closed. -/
def StringsClosed (s : Scan) : Prop := ∀ e ∈ s.errors, e.cause ≠ .unterminatedString

theorem stringsClosed_of_errors {s : Scan} (h : s.errors = []) : s.StringsClosed := by
  intro e he
  rw [h] at he
  cases he

/-- What a text with all its strings closed consists of, and then what the lines after it do. -/
theorem items_line {source : String} {offset : Nat} (h : (ofText source offset).StringsClosed)
    (more : String) :
    (ofText (source ++ "\n" ++ more) offset).items =
      (ofText source offset).items ++
        Item.locate (1 + source.toList.count '\n' + 1) (offset + source.length + 1)
          (Piece.split more.toList) := by
  have hclosed : ∀ p ∈ Piece.split source.toList, p.sort ≠ .error .unterminatedString := by
    intro p hp hsort
    obtain ⟨e, he, hcause⟩ := Item.exists_of_sort_error hp hsort
    exact h e he hcause
  have hsplit : Piece.split (source.toList ++ '\n' :: more.toList) =
      Piece.split source.toList ++ ⟨['\n'], .gap⟩ :: Piece.split more.toList :=
    Piece.split_line hclosed more.toList
  have htext : (source ++ "\n" ++ more).toList = source.toList ++ '\n' :: more.toList := by
    rw [String.toList_append, String.toList_append, List.append_assoc]
    rfl
  show Item.locate 1 offset (Piece.split _) = Item.locate 1 offset _ ++ _
  rw [htext, hsplit, Item.locate_append, Piece.flatten_split, String.length_toList]
  rfl

end Scan

end Lox
