import Lox.Diagnostic
import Lox.Tree.Basic

set_option autoImplicit false

/-! # Reading tokens

A parser reads tokens from a cursor. The cursor holds the tokens that are ahead, without the one
that ends the source, so it can never run past the end: at the end `peek` answers the end token
for ever. Errors that do not stop a parser are collected in the cursor in the order in which they
are found; an error that stops it is a `Failure`, and the cursor stays where it was met.

Every recursion of the parsers is on a budget of steps. `Failure.exhausted` says that the budget
ran out, which the budgets of the public parsers rule out.
-/

namespace Lox

/-- Which kind of declaration an error concerns. -/
inductive FunctionKind
  | function
  | method
deriving DecidableEq, Inhabited

/-- The word for a kind of declaration. -/
def FunctionKind.text : FunctionKind → String
  | function => "function"
  | method => "method"

/-- What a parser looked for in vain. -/
inductive ParseError.Cause
  | className
  | superclassName
  | classBody
  | classEnd
  | functionName (kind : FunctionKind)
  | parameters (kind : FunctionKind)
  | parameterName
  | parametersEnd
  | functionBody (kind : FunctionKind)
  | tooManyParameters
  | variableName
  | variableEnd
  | forClauses
  | loopConditionEnd
  | forClausesEnd
  | ifCondition
  | ifConditionEnd
  | whileCondition
  | whileConditionEnd
  | printEnd
  | returnEnd
  | expressionStatementEnd
  | blockEnd
  | assignmentTarget
  | propertyName
  | tooManyArguments
  | argumentsEnd
  | superDot
  | superMethod
  | groupingEnd
  | expression
  | expressionEnd
deriving DecidableEq, Inhabited

/-- The wording of a syntax error. -/
def ParseError.Cause.message : ParseError.Cause → String
  | className => "Expect class name."
  | superclassName => "Expect superclass name."
  | classBody => "Expect '\x7b' before class body."
  | classEnd => "Expect '\x7d' after class body."
  | functionName kind => "Expect " ++ kind.text ++ " name."
  | parameters kind => "Expect '(' after " ++ kind.text ++ " name."
  | parameterName => "Expect parameter name."
  | parametersEnd => "Expect ')' after parameters."
  | functionBody kind => "Expect '\x7b' before " ++ kind.text ++ " body."
  | tooManyParameters => "Can't have more than 255 parameters."
  | variableName => "Expect variable name."
  | variableEnd => "Expect ';' after variable declaration."
  | forClauses => "Expect '(' after 'for'."
  | loopConditionEnd => "Expect ';' after loop condition."
  | forClausesEnd => "Expect ')' after for clauses."
  | ifCondition => "Expect '(' after 'if'."
  | ifConditionEnd => "Expect ')' after if condition."
  | whileCondition => "Expect '(' after 'while'."
  | whileConditionEnd => "Expect ')' after condition."
  | printEnd => "Expect ';' after value."
  | returnEnd => "Expect ';' after return value."
  | expressionStatementEnd => "Expect ';' after expression."
  | blockEnd => "Expect '\x7d' after block."
  | assignmentTarget => "Invalid assignment target."
  | propertyName => "Expect property name after '.'."
  | tooManyArguments => "Can't have more than 255 arguments."
  | argumentsEnd => "Expect ')' after arguments."
  | superDot => "Expect '.' after 'super'."
  | superMethod => "Expect superclass method name."
  | groupingEnd => "Expect ')' after expression."
  | expression => "Expect expression."
  | expressionEnd => "Expect end of expression."

/-- A syntax error at a token. -/
structure ParseError where
  cause : ParseError.Cause
  token : Token
deriving Inhabited

/-- A syntax error as it is reported. -/
def ParseError.toDiagnostic (e : ParseError) : Diagnostic :=
  .parse e.token.line (.ofToken e.token) e.cause.message

/-- The most parameters a function may have, and the most arguments a call may have. -/
def maxArguments : Nat := 255

/-- Tokens to be read, and the errors found so far. -/
structure Cursor where
  ahead : List Token
  eof : Token
  collected : List ParseError
deriving Inhabited

namespace Cursor

/-- A cursor before the first token. -/
def start (tokens : List Token) (eof : Token) : Cursor := ⟨tokens, eof, []⟩

/-- The next token. -/
def peek (c : Cursor) : Token :=
  match c.ahead with
  | [] => c.eof
  | t :: _ => t

/-- The cursor after the next token. -/
def advance (c : Cursor) : Cursor := { c with ahead := c.ahead.tail }

/-- The cursor with one more error. -/
def collect (c : Cursor) (e : ParseError) : Cursor := { c with collected := c.collected ++ [e] }

/-- The next token is this mark. -/
def isAtMark (c : Cursor) (m : Mark) : Bool :=
  match c.ahead with
  | [] => false
  | t :: _ => t.kind.isMark m

/-- No token is left. -/
def isAtEnd (c : Cursor) : Bool := c.ahead.isEmpty

/-- More steps than any parser takes on the tokens ahead. -/
def budget (c : Cursor) : Nat := 16 * (c.ahead.length + 1)

end Cursor

/-- Why a parser stopped. -/
inductive Failure
  | failed (error : ParseError)
  | exhausted
deriving Inhabited

/-- A parser reads a value off a cursor, or fails. -/
abbrev Parser := EStateM Failure Cursor

namespace Parser

/-- The next token. -/
def peek : Parser Token := fun c => .ok c.peek c

/-- Reads the next token. -/
def advance : Parser Token := fun c => .ok c.peek c.advance

/-- Reads this mark if it is next. -/
def acceptMark (m : Mark) : Parser Bool := fun c =>
  if c.isAtMark m then .ok true c.advance else .ok false c

/-- Whether this mark is next. -/
def checkMark (m : Mark) : Parser Bool := fun c => .ok (c.isAtMark m) c

/-- Reads this keyword if it is next. -/
def acceptKeyword (w : Keyword) : Parser Bool := fun c =>
  match c.ahead with
  | t :: _ => if t.kind.isKeyword w then .ok true c.advance else .ok false c
  | [] => .ok false c

/-- Fails at the next token. -/
def fail {α : Type} (cause : ParseError.Cause) : Parser α := fun c =>
  .error (.failed ⟨cause, c.peek⟩) c

/-- Fails because the budget is spent. -/
def exhaust {α : Type} : Parser α := fun c => .error .exhausted c

/-- Notes an error at a token and goes on. -/
def report (cause : ParseError.Cause) (token : Token) : Parser Unit := fun c =>
  .ok () (c.collect ⟨cause, token⟩)

/-- Reads this mark, or fails. -/
def expectMark (m : Mark) (cause : ParseError.Cause) : Parser Token := fun c =>
  if c.isAtMark m then .ok c.peek c.advance else .error (.failed ⟨cause, c.peek⟩) c

/-- Reads an identifier, or fails. -/
def expectName (cause : ParseError.Cause) : Parser Name := fun c =>
  match c.ahead with
  | ⟨.identifier, text, line, start⟩ :: _ => .ok ⟨text, line, start⟩ c.advance
  | _ => .error (.failed ⟨cause, c.peek⟩) c

end Parser

/-- The name that a token spells. -/
def Token.toName (t : Token) : Name := ⟨t.lexeme, t.line, t.start⟩

end Lox
