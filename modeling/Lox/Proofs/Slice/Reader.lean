import Lox.Tree.Statement

set_option autoImplicit false

/-! # Tokens read by their index

A reader has all tokens of a source, the one that ends it included, and the index of the next one.
It reads a token by its index, and nothing rules out beforehand that there is none at it: then it
stops (`Stop.outOfRange`). Each reading of a token is noted, with the place where the reader stood.
So a run of a reader tells which tokens it looked at and how it moved, which a run of a `Cursor`
does not: a cursor has no index, and cannot look past the end.
-/

namespace Lox.Slice

/-- A reading of a token: where the reader stood, and the index of the token. -/
structure Access where
  current : Nat
  index : Nat

/-- All tokens, the index of the next one, the errors found so far and the tokens read so far. -/
structure Reader where
  tokens : List Token
  current : Nat
  collected : List ParseError
  accesses : List Access

namespace Reader

/-- A reader at the first token. -/
def start (tokens : List Token) : Reader := ⟨tokens, 0, [], []⟩

/-- The reader after looking at a token. -/
def access (r : Reader) (index : Nat) : Reader :=
  { r with accesses := r.accesses ++ [⟨r.current, index⟩] }

/-- The reader one token further on. -/
def next (r : Reader) : Reader := { r with current := r.current + 1 }

/-- The reader with one more error. -/
def collect (r : Reader) (e : ParseError) : Reader := { r with collected := r.collected ++ [e] }

/-- The tokens that are not read yet, the last one included. -/
def left (r : Reader) : Nat := r.tokens.length - r.current

/-- The same number of steps as `Cursor.budget`. -/
def budget (r : Reader) : Nat := 16 * r.left

end Reader

/-- Why a reader stopped. -/
inductive Stop
  | failed (error : ParseError)
  | exhausted
  /-- There is no token at an index. -/
  | outOfRange

/-- A parser that reads its tokens by their index. -/
abbrev Reading := EStateM Stop Reader

/-- The token at an index. -/
def fetch (index : Nat) : Reading Token := fun r =>
  match r.tokens[index]? with
  | some t => .ok t (r.access index)
  | none => .error .outOfRange (r.access index)

/-- The next token. -/
def peek : Reading Token := fun r => fetch r.current r

/-- The token before the next one, and the first token at the start. -/
def previous : Reading Token := fun r => fetch (r.current - 1) r

/-- Whether the next token is the last one. -/
def isAtEnd : Reading Bool := do
  let t ← peek
  pure t.kind.isEof

/-- Goes one token further. -/
def skip : Reading Unit := fun r => .ok () r.next

/-- Reads the next token, but stays at the last one. -/
def advance : Reading Token := do
  if ← isAtEnd then
    previous
  else
    skip
    previous

/-- Whether the next token is of a kind. -/
def check (test : Token.Kind → Bool) : Reading Bool := do
  if ← isAtEnd then
    pure false
  else
    let t ← peek
    pure (test t.kind)

/-- Reads the next token if it is of a kind. -/
def accept (test : Token.Kind → Bool) : Reading Bool := do
  if ← check test then
    let _ ← advance
    pure true
  else
    pure false

/-- Reads the next token if it is of a kind, and gives it. -/
def acceptToken (test : Token.Kind → Bool) : Reading (Option Token) := do
  if ← accept test then
    let t ← previous
    pure (some t)
  else
    pure none

/-- Fails at a token. -/
def fail {α : Type} (cause : ParseError.Cause) (token : Token) : Reading α := fun r =>
  .error (.failed ⟨cause, token⟩) r

/-- Fails because the budget is spent. -/
def exhaust {α : Type} : Reading α := fun r => .error .exhausted r

/-- Notes an error at a token and goes on. -/
def report (cause : ParseError.Cause) (token : Token) : Reading Unit := fun r =>
  .ok () (r.collect ⟨cause, token⟩)

/-- Reads the next token if it is of a kind, or fails. -/
def expect (test : Token.Kind → Bool) (cause : ParseError.Cause) : Reading Token := do
  if ← check test then
    advance
  else
    let t ← peek
    fail cause t

/-- The kind is that of a name. -/
def isIdentifier : Token.Kind → Bool
  | .identifier => true
  | _ => false

/-- Reads an identifier, or fails. -/
def expectName (cause : ParseError.Cause) : Reading Name := do
  let t ← expect isIdentifier cause
  pure t.toName

/-- Runs a parser with the budget that the tokens left call for. -/
def budgeted {α : Type} (run : Nat → Reading α) : Reading α := fun r => run r.budget r

/-! ## Recovery -/

/-- Skips tokens up to a place where a statement seems to start. -/
def skipWithin : Nat → Reading Unit
  | 0 => exhaust
  | budget + 1 => do
    if ← isAtEnd then
      pure ()
    else
      let last ← previous
      if last.kind.isMark .semicolon then
        pure ()
      else
        let t ← peek
        if Cursor.startsStatement t.kind then
          pure ()
        else
          let _ ← advance
          skipWithin budget

/-- Goes to the next statement, at least one token further on. -/
def synchronize : Reading Unit := do
  let _ ← advance
  budgeted skipWithin

/-- Runs a parser; if it fails, notes the error and goes to the next statement. -/
def recovering {α : Type} (p : Reading α) : Reading (Option α) := fun r =>
  match p r with
  | .ok a r => .ok (some a) r
  | .error (.failed e) r =>
    match synchronize (r.collect e) with
    | .ok _ r => .ok none r
    | .error stop r => .error stop r
  | .error stop r => .error stop r

end Lox.Slice
