import Lox.Proofs.Renumbering.Program
import Lox.Proofs.Scanning.Tokens
import Lox.Source

set_option autoImplicit false

/-! # Texts at other places

A text that stands further down, on a later line or after more characters, has the same items with
their places renumbered.
-/

namespace Lox

variable (r : Renumbering)

/-- The lexical error at the renumbered place. -/
def LexError.renumber (e : LexError) : LexError :=
  ⟨e.cause, r.line e.line, r.start e.start, r.start e.stop⟩

/-- The item at the renumbered place. -/
def Item.renumber : Item → Item
  | .token t => .token (t.renumber r)
  | .error e => .error (e.renumber r)

variable {r}

/-- A piece, so many lines and characters further down. -/
theorem Item.ofPiece?_renumber {line start lines characters : Nat} {p : Piece}
    (hline : r.line line = line + lines) (hstart : r.start start = start + characters)
    (hstop : r.start (start + p.text.length) = start + p.text.length + characters) :
    ofPiece? p (line + lines) (start + characters) = (ofPiece? p line start).map (renumber r) := by
  rw [ofPiece?, ofPiece?]
  split
  · rfl
  · simp [renumber, Token.renumber, hline, hstart]
  · simp [renumber, LexError.renumber, hline, hstart, hstop, Nat.add_right_comm]

/-- The pieces of a text, so many lines and characters further down. -/
theorem Item.locate_renumber {line start lines characters : Nat} (ps : List Piece)
    (hline : ∀ i, r.line i = i + lines)
    (hstart : ∀ i, start ≤ i → i ≤ start + (ps.flatMap Piece.text).length →
      r.start i = i + characters) :
    locate (line + lines) (start + characters) ps = (locate line start ps).map (renumber r) := by
  induction ps generalizing line start with
  | nil => rfl
  | cons p ps ih =>
      rw [List.flatMap_cons, List.length_append] at hstart
      have hfirst := ofPiece?_renumber (hline (line + p.text.count '\n'))
        (hstart start (by omega) (by omega)) (hstart (start + p.text.length) (by omega) (by omega))
      have hafter : ∀ i, start + p.text.length ≤ i →
          i ≤ start + p.text.length + (ps.flatMap Piece.text).length →
          r.start i = i + characters :=
        fun i hi hi' => hstart i (by omega) (by omega)
      simp only [locate, List.map_append]
      rw [← ih hafter, Nat.add_right_comm line, Nat.add_right_comm start, hfirst]
      cases ofPiece? p (line + p.text.count '\n') start <;> rfl

/-- So many lines and characters further down. -/
def Renumbering.down (lines characters : Nat) : Renumbering := ⟨(· + lines), (· + characters)⟩

/-- The pieces of a text that starts so many lines and characters further down. -/
theorem Item.locate_down (line start lines characters : Nat) (ps : List Piece) :
    locate (line + lines) (start + characters) ps =
      (locate line start ps).map (renumber (.down lines characters)) :=
  locate_renumber ps (fun _ => rfl) fun _ _ _ => rfl

theorem Item.filterMap_token?_renumber (items : List Item) :
    (items.map (renumber r)).filterMap token? =
      (items.filterMap token?).map (Token.renumber r) := by
  induction items with
  | nil => rfl
  | cons item items ih =>
      rw [List.map_cons, List.filterMap_cons, List.filterMap_cons, ih]
      cases item <;> rfl

theorem Item.filterMap_error?_renumber (items : List Item) :
    (items.map (renumber r)).filterMap error? =
      (items.filterMap error?).map (LexError.renumber r) := by
  induction items with
  | nil => rfl
  | cons item items ih =>
      rw [List.map_cons, List.filterMap_cons, List.filterMap_cons, ih]
      cases item <;> rfl

section Moved

variable {offset characters : Nat} {source : String} (hline : ∀ i, r.line i = i)
  (hstart : ∀ i, offset ≤ i → i ≤ offset + source.length → r.start i = i + characters)

include hline hstart

theorem Scan.items_moved :
    (ofText source (offset + characters)).items =
      (ofText source offset).items.map (Item.renumber r) := by
  have hlines : ∀ i, r.line i = i + 0 := hline
  refine Item.locate_renumber (Piece.split source.toList) hlines fun i hi hi' => hstart i hi ?_
  rwa [Piece.flatten_split, String.length_toList] at hi'

/-- A program whose text stands so many characters further down. -/
theorem Program.ofText_moved :
    (ofText source (offset + characters)).lexErrors =
        (ofText source offset).lexErrors.map (LexError.renumber r) ∧
      (ofText source (offset + characters)).parsed =
        (((ofText source offset).parsed).map (List.map (Stmt.renumber r))).mapError
          (List.map (ParseError.renumber r)) := by
  have hitems := Scan.items_moved hline hstart
  have heof : (Scan.ofText source (offset + characters)).eof =
      (Scan.ofText source offset).eof.renumber r := by
    have hend := hstart (offset + source.length) (by omega) (by omega)
    simp only [Scan.ofText, Token.renumber, hline, String.length_toList, hend,
      Nat.add_right_comm]
  refine ⟨?_, ?_⟩
  · show (Scan.ofText source (offset + characters)).items.filterMap Item.error? = _
    rw [hitems, Item.filterMap_error?_renumber]
    rfl
  · show Program.ofTokens ((Scan.ofText source (offset + characters)).items.filterMap
      Item.token?) _ = _
    rw [hitems, Item.filterMap_token?_renumber, heof]
    exact Program.ofTokens_renumber r _ rfl

end Moved

end Lox
