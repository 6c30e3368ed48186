import Lox.Diagnostic
import Lox.Number.Numeral

set_option autoImplicit false

/-! # From text to tokens

Scanning has two steps. `Piece.split` cuts a text into pieces without looking at lines or
offsets: every piece is a token, an error, or a gap (blanks and comments), and joining the pieces
gives the text back (`Piece.flatten_split`). `Item.locate` then drops the gaps and gives each
remaining piece its offset and the line on which it ends.

A piece is always the longest one at its place, decided from its first character: letters start
words, digits start numerals, a quote starts a string.

A scanner that walks over the bytes of a text by their index, and gives the same items one by one,
is in `Bytes` (`Bytes.partitions`).
-/

namespace Lox

/-- Why a piece of text is no token. -/
inductive LexError.Cause
  | unexpected (character : Char)
  | unterminatedString
deriving DecidableEq, Inhabited

/-- The wording of a lexical error. -/
def LexError.Cause.message : LexError.Cause → String
  | unexpected c => "Unexpected character: " ++ c.toString
  | unterminatedString => "Unterminated string."

/-- A lexical error with the offsets of the text it covers. -/
structure LexError where
  cause : LexError.Cause
  line : Nat
  start : Nat
  stop : Nat
deriving Inhabited

/-- A lexical error as it is reported. -/
def LexError.toDiagnostic (e : LexError) : Diagnostic := .lexical e.line e.cause.message

/-! ## Pieces -/

/-- What a piece of text is. -/
inductive Piece.Sort
  | gap
  | token (kind : Token.Kind)
  | error (cause : LexError.Cause)
deriving Inhabited

/-- A piece of text. -/
structure Piece where
  text : List Char
  sort : Piece.Sort
deriving Inhabited

/-- Letters and the underscore start a word. -/
def startsWord (c : Char) : Bool := c.isAlpha || c == '_'

/-- Words go on with letters, underscores and digits. -/
def continuesWord (c : Char) : Bool := startsWord c || c.isDigit

/-- Spaces, tabs and line ends separate tokens. -/
def isBlank (c : Char) : Bool := c == ' ' || c == '\r' || c == '\t' || c == '\n'

/-- The marks that no other mark starts with. -/
def Mark.ofChar? (c : Char) : Option Mark :=
  match c with
  | '(' => some leftParen
  | ')' => some rightParen
  | '{' => some leftBrace
  | '}' => some rightBrace
  | ',' => some comma
  | '.' => some dot
  | '-' => some minus
  | '+' => some plus
  | ';' => some semicolon
  | '*' => some star
  | _ => none

/-- The marks that an equals sign extends: alone, and extended. -/
def Mark.pairOfChar? (c : Char) : Option (Mark × Mark) :=
  match c with
  | '!' => some (bang, bangEqual)
  | '=' => some (equal, equalEqual)
  | '<' => some (less, lessEqual)
  | '>' => some (greater, greaterEqual)
  | _ => none

/-- The kind of a word. -/
def Token.Kind.ofWord (word : String) : Token.Kind :=
  match Keyword.ofText? word with
  | some w => .keyword w
  | none => .identifier

/-- Cuts the characters of a numeral off a text: digits, and a point with more digits if a
digit follows the point. -/
def cutNumeral (cs : List Char) : List Char × List Char :=
  let whole := cs.takeWhile Char.isDigit
  match cs.dropWhile Char.isDigit with
  | '.' :: d :: rest =>
    if d.isDigit then
      (whole ++ '.' :: (d :: rest).takeWhile Char.isDigit, (d :: rest).dropWhile Char.isDigit)
    else (whole, '.' :: d :: rest)
  | rest => (whole, rest)

namespace Piece

/-- A token of one mark. -/
def ofMark (text : List Char) (m : Mark) : Piece := ⟨text, .token (.mark m)⟩

/-- The first piece of the text `c :: cs`, and the text after it. -/
def cut (c : Char) (cs : List Char) : Piece × List Char :=
  match Mark.ofChar? c, Mark.pairOfChar? c with
  | some m, _ => (.ofMark [c] m, cs)
  | none, some (alone, extended) =>
    match cs with
    | '=' :: rest => (.ofMark [c, '='] extended, rest)
    | _ => (.ofMark [c] alone, cs)
  | none, none =>
    if isBlank c then
      (⟨[c], .gap⟩, cs)
    else if c = '/' then
      match cs with
      | '/' :: rest => (⟨c :: '/' :: rest.takeWhile (· != '\n'), .gap⟩, rest.dropWhile (· != '\n'))
      | _ => (.ofMark [c] .slash, cs)
    else if c = '"' then
      let contents := cs.takeWhile (· != '"')
      match cs.dropWhile (· != '"') with
      | quote :: rest =>
        (⟨c :: (contents ++ [quote]), .token (.string (String.ofList contents))⟩, rest)
      | [] => (⟨c :: contents, .error .unterminatedString⟩, [])
    else if c.isDigit then
      let (numeral, rest) := cutNumeral (c :: cs)
      (⟨numeral, .token (.number (Number.ofNumeral numeral))⟩, rest)
    else if startsWord c then
      let word := c :: cs.takeWhile continuesWord
      (⟨word, .token (.ofWord (String.ofList word))⟩, cs.dropWhile continuesWord)
    else
      (⟨[c], .error (.unexpected c)⟩, cs)

theorem cutNumeral_append (cs : List Char) : (cutNumeral cs).1 ++ (cutNumeral cs).2 = cs := by
  have h : cs.takeWhile Char.isDigit ++ cs.dropWhile Char.isDigit = cs :=
    List.takeWhile_append_dropWhile
  unfold cutNumeral
  split
  · rename_i d rest hrest
    split
    · simp only [List.append_assoc, List.cons_append, List.takeWhile_append_dropWhile]
      rw [← hrest, h]
    · simp only [← hrest, h]
  · exact h

theorem cutNumeral_ne_nil {c : Char} (cs : List Char) (h : c.isDigit = true) :
    (cutNumeral (c :: cs)).1 ≠ [] := by
  unfold cutNumeral
  split
  · split <;> simp [h]
  · simp [h]

/-- Nothing is lost between a piece and what follows it. -/
theorem cut_append (c : Char) (cs : List Char) : (cut c cs).1.text ++ (cut c cs).2 = c :: cs := by
  unfold cut
  split
  · rfl
  · split <;> rfl
  · split
    · rfl
    · split
      · split
        · simp [List.takeWhile_append_dropWhile]
        · rfl
      · split
        · have h : cs.takeWhile (· != '"') ++ cs.dropWhile (· != '"') = cs :=
            List.takeWhile_append_dropWhile
          split
          · rename_i quote rest hrest
            rw [hrest] at h
            simp [h]
          · rename_i hrest
            rw [hrest] at h
            simpa using h
        · split
          · exact cutNumeral_append (c :: cs)
          · split
            · simp [List.takeWhile_append_dropWhile]
            · rfl

/-- No piece is empty. -/
theorem cut_text_ne_nil (c : Char) (cs : List Char) : (cut c cs).1.text ≠ [] := by
  unfold cut
  split
  · simp [ofMark]
  · split <;> simp [ofMark]
  · split
    · simp
    · split
      · split <;> simp [ofMark]
      · split
        · split <;> simp
        · split
          · rename_i h
            exact cutNumeral_ne_nil cs h
          · split <;> simp

theorem length_cut_snd_le (c : Char) (cs : List Char) : (cut c cs).2.length ≤ cs.length := by
  have h := congrArg List.length (cut_append c cs)
  have hpos := List.length_pos_iff.2 (cut_text_ne_nil c cs)
  simp only [List.length_append, List.length_cons] at h
  omega

/-- The pieces of a text. -/
def split : List Char → List Piece
  | [] => []
  | c :: cs => (cut c cs).1 :: split (cut c cs).2
termination_by cs => cs.length
decreasing_by
  have := length_cut_snd_le c cs
  simp only [List.length_cons]
  omega

@[simp] theorem split_nil : split [] = [] := by simp [split]

theorem split_cons (c : Char) (cs : List Char) :
    split (c :: cs) = (cut c cs).1 :: split (cut c cs).2 := by rw [split]

/-- The pieces of a text join to the text. -/
theorem flatten_split (cs : List Char) : (split cs).flatMap text = cs := by
  fun_induction split cs with
  | case1 => rfl
  | case2 c cs ih => rw [List.flatMap_cons, ih, cut_append]

end Piece

/-! ## Items -/

/-- A token or a lexical error. -/
inductive Item
  | token (token : Token)
  | error (error : LexError)
deriving Inhabited

namespace Item

/-- The item that a piece is, with its place; a gap is none. -/
def ofPiece? (p : Piece) (line start : Nat) : Option Item :=
  match p.sort with
  | .gap => none
  | .token kind => some (.token ⟨kind, String.ofList p.text, line, start⟩)
  | .error cause => some (.error ⟨cause, line, start, start + p.text.length⟩)

/-- The items among pieces that start on a line at an offset. -/
def locate (line start : Nat) : List Piece → List Item
  | [] => []
  | p :: ps =>
    let lineAfter := line + p.text.count '\n'
    (ofPiece? p lineAfter start).toList ++ locate lineAfter (start + p.text.length) ps

@[simp] theorem locate_nil (line start : Nat) : locate line start [] = [] := rfl

/-- The token of an item. -/
def token? : Item → Option Token
  | token t => some t
  | error _ => none

/-- The error of an item. -/
def error? : Item → Option LexError
  | token _ => none
  | error e => some e

end Item

/-- What a text consists of: tokens and errors in their order, and the token that ends the
source. -/
structure Scan where
  items : List Item
  eof : Token
deriving Inhabited

namespace Scan

/-- Scans a text whose first character has this offset. -/
def ofText (source : String) (offset : Nat) : Scan :=
  let cs := source.toList
  { items := Item.locate 1 offset (Piece.split cs)
    eof := ⟨.eof, "", 1 + cs.count '\n', offset + cs.length⟩ }

/-- The tokens, without the one that ends the source. -/
def tokens (s : Scan) : List Token := s.items.filterMap Item.token?

/-- The errors. -/
def errors (s : Scan) : List LexError := s.items.filterMap Item.error?

/-- All items, the one that ends the source last. -/
def allItems (s : Scan) : List Item := s.items ++ [.token s.eof]

end Scan

end Lox
