import Lox.Proofs.Scanning.Partition

set_option autoImplicit false

/-! # Reading a source by its bytes

The source is stored as bytes, and this scanner walks over them by their index. Nothing rules out
beforehand that it looks for a byte behind the last one (`Stop.outOfRange`), or that it cuts text
inside a character (`Stop.badSlice`): then it stops. Looking ahead is different, there is a zero
byte behind the end (`Scanner.peek`).

Its steps are those of one pass: `scanToken` reads one lexeme and leaves its kind in `pending`,
blanks and comments leave none. `next` goes on until there is something to give, gives the end once,
and then nothing.
-/

namespace Lox.Bytes

/-- The bytes from `start` up to `stop`, and what the scanner gives for them. -/
structure Cut where
  found : Found
  start : Nat
  stop : Nat
deriving Inhabited

/-- A scanner in the middle of a source. -/
structure Scanner where
  source : String
  /-- The index of the first byte of the lexeme. -/
  start : Nat
  /-- The index of the next byte. -/
  curr : Nat
  line : Nat
  /-- The kind of a lexeme that was read and not given yet. -/
  pending : Option Token.Kind

/-- Why a scanner stopped. -/
inductive Stop
  /-- The lexeme is no token. -/
  | failed (cause : LexError.Cause) (line : Nat)
  /-- There is no byte at an index. -/
  | outOfRange
  /-- What was cut off does not lie in the source, or does not lie between two characters. -/
  | badSlice
  | exhausted

/-- A step of a scanner. -/
abbrev Scanning := EStateM Stop Scanner

/-- A byte as the character that it stores alone. -/
abbrev char (b : UInt8) : Char := Char.ofUInt8 b

/-- The text between two indices, if each of them is between two characters. -/
def slice? (source : String) (first last : Nat) : Option String :=
  if h : (String.Pos.Raw.mk first).IsValid source ∧ (String.Pos.Raw.mk last).IsValid source ∧
      first ≤ last then
    some (String.extract (source.pos ⟨first⟩ h.1) (source.pos ⟨last⟩ h.2.1))
  else none

/-- The index of the first such byte. -/
def memchr (c : Char) (bytes : List UInt8) : Option Nat := bytes.findIdx? (char · == c)

namespace Scanner

/-- A scanner before the first byte of a source. -/
def ofText (source : String) : Scanner := ⟨source, 0, 0, 1, none⟩

/-- All bytes of the source. -/
def bytes (s : Scanner) : List UInt8 := s.source.toUTF8.data.toList

/-- All bytes were read. -/
def isAtEnd (s : Scanner) : Bool := s.bytes.length ≤ s.curr

/-- The next byte, or zero behind the end. -/
def peek (s : Scanner) : UInt8 := s.bytes[s.curr]?.getD 0

/-- The byte after the next one, or zero behind the end. -/
def peekNext (s : Scanner) : UInt8 := s.bytes[s.curr + 1]?.getD 0

/-- More steps than there are bytes left. -/
def budget (s : Scanner) : Nat := s.bytes.length - s.curr + 1

end Scanner

/-! ## Primitive steps -/

/-- Fails at the lexeme. -/
def fail {α : Type} (cause : LexError.Cause) : Scanning α :=
  fun s => .error (.failed cause s.line) s

/-- Stops because the budget is spent. -/
def exhaust {α : Type} : Scanning α := fun s => .error .exhausted s

/-- Goes to an index. -/
def goTo (index : Nat) : Scanning Unit := fun s => .ok () { s with curr := index }

/-- Counts lines. -/
def countLines (n : Nat) : Scanning Unit := fun s => .ok () { s with line := s.line + n }

/-- Leaves a kind to be given. -/
def leave (kind : Token.Kind) : Scanning Unit := fun s => .ok () { s with pending := some kind }

/-- Reads the next byte. -/
def advance : Scanning UInt8 := fun s =>
  match s.bytes[s.curr]? with
  | some b => .ok b { s with curr := s.curr + 1 }
  | none => .error .outOfRange s

/-- The bytes from the next one on. -/
def ahead : Scanning (List UInt8) := fun s =>
  if s.curr ≤ s.bytes.length then .ok (s.bytes.drop s.curr) s else .error .badSlice s

/-- The text between two indices. -/
def slice (first last : Nat) : Scanning String := fun s =>
  match slice? s.source first last with
  | some text => .ok text s
  | none => .error .badSlice s

/-- Reads the next byte if it is this one. -/
def matchByte (c : Char) : Scanning Bool := do
  let s ← get
  if char s.peek == c && !s.isAtEnd then
    goTo (s.curr + 1)
    pure true
  else
    pure false

/-- One of two marks, by the next byte. -/
def pick (c : Char) (matched otherwise : Mark) : Scanning Unit := do
  if ← matchByte c then
    leave (.mark matched)
  else
    leave (.mark otherwise)

/-- Reads bytes as long as they pass a test. -/
def skipWithin (test : Char → Bool) : Nat → Scanning Unit
  | 0 => exhaust
  | budget + 1 => do
    let s ← get
    if test (char s.peek) then
      let _ ← advance
      skipWithin test budget
    else
      pure ()

/-- Reads bytes as long as they pass a test. -/
def skipWhile (test : Char → Bool) : Scanning Unit := fun s => skipWithin test s.budget s

/-! ## Lexemes -/

/-- Goes to the line break that ends a comment, or to the end. -/
def endComment (s : Scanner) : Option Nat → Scanning Unit
  | some pos => goTo (s.curr + pos)
  | none => goTo s.bytes.length

/-- Goes to the end of the line, which is left for the next lexeme. -/
def comment : Scanning Unit := do
  let s ← get
  endComment s (memchr '\n' (← ahead))

/-- Goes behind the quote that ends a string, or fails at the end, where there is none. -/
def endString (s : Scanner) (bytes : List UInt8) : Option Nat → Scanning Unit
  | some pos => do
    let body ← slice s.curr (s.curr + pos)
    countLines (body.toUTF8.data.toList.countP (char · == '\n'))
    goTo (s.curr + pos + 1)
    leave (.string body)
  | none => do
    countLines (bytes.countP (char · == '\n'))
    goTo s.bytes.length
    fail .unterminatedString

/-- Reads a string from after its first quote. -/
def string : Scanning Unit := do
  let s ← get
  let bytes ← ahead
  endString s bytes (memchr '"' bytes)

/-- The text of the lexeme so far. -/
def lexeme : Scanning String := do
  let s ← get
  slice s.start s.curr

/-- Reads a point with the digits after it. A point is left if no digit follows it. -/
def fraction : Scanning Unit := do
  let s ← get
  if char s.peek == '.' && (char s.peekNext).isDigit then
    let _ ← advance
    skipWhile Char.isDigit
  else
    pure ()

/-- Reads a numeral from after its first digit. -/
def number : Scanning Unit := do
  skipWhile Char.isDigit
  fraction
  let text ← lexeme
  leave (.number (Number.ofNumeral text.toList))

/-- Reads a word from after its first character. -/
def identifier : Scanning Unit := do
  skipWhile continuesWord
  let text ← lexeme
  leave (.ofWord text)

/-- Goes behind a character, however many bytes it has, and fails. -/
def unexpected : Scanning Unit := do
  let s ← get
  let text ← slice s.start s.bytes.length
  let c := text.toList.head?.getD '\uFFFD'
  goTo (s.start + c.utf8Size)
  fail (.unexpected c)

/-- Reads a lexeme on from its first byte, by what the byte starts. -/
def scanFrom (c : Char) : Start → Scanning Unit
  | .single m => leave (.mark m)
  | .pair alone extended => pick '=' extended alone
  | .blank => if c == '\n' then countLines 1 else pure ()
  | .slash => do
    if ← matchByte '/' then
      comment
    else
      leave (.mark .slash)
  | .quote => string
  | .digit => number
  | .letter => identifier
  | .other => unexpected

/-- Reads one lexeme, a blank or a comment. -/
def scanToken : Scanning Unit := do
  let b ← advance
  scanFrom (char b) (Start.of (char b))

/-! ## The scanner as an iterator -/

/-- Reads one lexeme from where the scanner is, and gives it. There is nothing to give for a blank
or a comment. -/
def cut : Scanning (Option Cut) := fun s =>
  match scanToken { s with start := s.curr, pending := none } with
  | .ok _ s =>
    match s.pending with
    | some kind =>
      match lexeme { s with pending := none } with
      | .ok text s => .ok (some ⟨.token kind text s.line, s.start, s.curr⟩) s
      | .error stop s => .error stop s
    | none => .ok none s
  | .error (.failed cause line) s => .ok (some ⟨.error cause line, s.start, s.curr⟩) s
  | .error stop s => .error stop s

/-- The next token or error. The end of the source is given once, and nothing after it. -/
def nextWithin : Nat → Scanning (Option Cut)
  | 0 => exhaust
  | budget + 1 => do
    let s ← get
    if s.curr ≤ s.bytes.length then
      if s.isAtEnd then
        goTo (s.bytes.length + 1)
        pure (some ⟨.token .eof "" s.line, s.bytes.length, s.bytes.length⟩)
      else
        match ← cut with
        | some c => pure (some c)
        | none => nextWithin budget
    else
      pure none

/-- The next token or error. -/
def next : Scanning (Option Cut) := fun s => nextWithin s.budget s

/-- What a scanner gives after so many other calls. -/
def nth (s : Scanner) : Nat → Except Stop (Option Cut)
  | 0 =>
    match next s with
    | .ok cut _ => .ok cut
    | .error stop _ => .error stop
  | n + 1 =>
    match next s with
    | .ok _ s => nth s n
    | .error stop _ => .error stop

end Lox.Bytes
