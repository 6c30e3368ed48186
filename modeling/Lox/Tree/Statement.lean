import Lox.Tree.Expression

set_option autoImplicit false

/-! # Parsing statements

    program     → declaration* EOF
    declaration → "class" IDENTIFIER ( "<" IDENTIFIER )? { function* }
                | "fun" function | variable | statement
    function    → IDENTIFIER "(" parameters? ")" block
    variable    → "var" IDENTIFIER ( "=" expression )? ";"
    statement   → expression ";" | for | if | print | return | while | block
    for         → "for" "(" ( variable | expression ";" | ";" ) expression? ";" expression? ")"
                  statement
    block       → { declaration* }

A `for` loop is written as the block and loop that it stands for (`Stmt.forLoop`).

An error inside a declaration is collected, and reading goes on at the next place where a
statement seems to start (`Cursor.synchronize`), so that one pass reports as much as it can.
-/

namespace Lox

namespace Cursor

/-- A token that starts a statement. -/
def startsStatement (k : Token.Kind) : Bool :=
  match k with
  | .keyword .classWord | .keyword .funWord | .keyword .varWord | .keyword .forWord
  | .keyword .ifWord | .keyword .whileWord | .keyword .printWord | .keyword .returnWord => true
  | _ => false

/-- What is left after skipping to a statement, `last` being the token skipped last: a
semicolon ends the skipping, and so does a token that starts a statement. -/
def skipToStatement (last : Token) : List Token → List Token
  | [] => []
  | t :: ts =>
    if last.kind.isMark .semicolon then t :: ts
    else if startsStatement t.kind then t :: ts
    else skipToStatement t ts

/-- The cursor at the next statement, at least one token further on. -/
def synchronize (c : Cursor) : Cursor :=
  match c.ahead with
  | [] => c
  | t :: ts => { c with ahead := skipToStatement t ts }

end Cursor

/-- The loop that a `for` statement stands for: the initializer runs once in a block of its
own, a missing condition is true, and the increment follows the body in each round. -/
def Stmt.forLoop (initial : Option Stmt) (condition increment : Option Expr) (body : Stmt) :
    Stmt :=
  let round :=
    match increment with
    | some e => .block [body, .expression e]
    | none => body
  let rounds := .loop (condition.getD (.literal (.bool true))) round
  match initial with
  | some s => .block [s, rounds]
  | none => rounds

namespace Parser

/-- The parameters of a function from one on, after `count` of them. -/
def parameterListWithin : Nat → Nat → Parser (List Name)
  | 0, _ => exhaust
  | budget + 1, count => do
    if maxArguments ≤ count then
      report .tooManyParameters (← peek)
    let parameter ← expectName .parameterName
    if ← acceptMark .comma then
      let parameters ← parameterListWithin budget (count + 1)
      pure (parameter :: parameters)
    else
      pure [parameter]

/-- The parameters of a function, up to the closing parenthesis. -/
def parameters : Parser (List Name) := do
  if ← checkMark .rightParen then pure [] else fun c => parameterListWithin c.budget 0 c

/-- A variable declaration after its keyword. -/
def variableDeclaration : Parser Stmt := do
  let name ← expectName .variableName
  let initial ← do
    if ← acceptMark .equal then
      let e ← expression
      pure (some e)
    else
      pure none
  let _ ← expectMark .semicolon .variableEnd
  pure (.var name initial)

/-- An expression as a statement. -/
def expressionStatement : Parser Stmt := do
  let e ← expression
  let _ ← expectMark .semicolon .expressionStatementEnd
  pure (.expression e)

/-- A print statement after its keyword. -/
def printStatement : Parser Stmt := do
  let e ← expression
  let _ ← expectMark .semicolon .printEnd
  pure (.print e)

/-- A return statement after its keyword. -/
def returnStatement (keyword : Name) : Parser Stmt := do
  if ← acceptMark .semicolon then
    pure (.ret keyword none)
  else
    let e ← expression
    let _ ← expectMark .semicolon .returnEnd
    pure (.ret keyword (some e))

/-- The first clause of a `for` loop. -/
def forInitial : Parser (Option Stmt) := do
  if ← acceptMark .semicolon then
    pure none
  else if ← acceptKeyword .varWord then
    let s ← variableDeclaration
    pure (some s)
  else
    let s ← expressionStatement
    pure (some s)

/-- An expression that may be missing before this mark, and the mark. -/
def optionalBefore (m : Mark) (cause : ParseError.Cause) : Parser (Option Expr) := do
  if ← acceptMark m then
    pure none
  else
    let e ← expression
    let _ ← expectMark m cause
    pure (some e)

/-- The name of a superclass, if a class has one. -/
def superclassClause : Parser (Option Name) := do
  if ← acceptMark .less then
    let name ← expectName .superclassName
    pure (some name)
  else
    pure none

/-- Whether a closing brace or the end of the source is next. -/
def atBlockEnd : Parser Bool := fun c => .ok (c.isAtMark .rightBrace || c.isAtEnd) c

/-- Whether the source is at its end. -/
def atEnd : Parser Bool := fun c => .ok c.isAtEnd c

/-- Runs a parser; if it fails, notes the error and goes to the next statement. -/
def recovering {α : Type} (p : Parser α) : Parser (Option α) := fun c =>
  match p c with
  | .ok a c => .ok (some a) c
  | .error (.failed e) c => .ok none (c.collect e).synchronize
  | .error .exhausted c => .error .exhausted c

mutual

/-- A declaration or statement, or none if it had to be skipped. -/
def declarationWithin : Nat → Parser (Option Stmt)
  | 0 => exhaust
  | budget + 1 => recovering (declarationOrFail budget)

/-- A declaration or statement. -/
def declarationOrFail : Nat → Parser Stmt
  | 0 => exhaust
  | budget + 1 => do
    if ← acceptKeyword .classWord then
      classWithin budget
    else if ← acceptKeyword .funWord then
      let f ← functionWithin budget .function
      pure (.function f)
    else if ← acceptKeyword .varWord then
      variableDeclaration
    else
      statementWithin budget

/-- A class declaration after its keyword. -/
def classWithin : Nat → Parser Stmt
  | 0 => exhaust
  | budget + 1 => do
    let name ← expectName .className
    let superclass ← superclassClause
    let _ ← expectMark .leftBrace .classBody
    let methods ← methodsWithin budget
    let _ ← expectMark .rightBrace .classEnd
    pure (.classDecl name superclass methods)

/-- The methods of a class, up to its closing brace. -/
def methodsWithin : Nat → Parser (List Function)
  | 0 => exhaust
  | budget + 1 => do
    if ← atBlockEnd then
      pure []
    else
      let f ← functionWithin budget .method
      let rest ← methodsWithin budget
      pure (f :: rest)

/-- A function or method from its name on. -/
def functionWithin : Nat → FunctionKind → Parser Function
  | 0, _ => exhaust
  | budget + 1, kind => do
    let name ← expectName (.functionName kind)
    let _ ← expectMark .leftParen (.parameters kind)
    let parameters ← parameters
    let _ ← expectMark .rightParen .parametersEnd
    let _ ← expectMark .leftBrace (.functionBody kind)
    let body ← blockWithin budget
    pure ⟨name, parameters, body⟩

/-- A statement. -/
def statementWithin : Nat → Parser Stmt
  | 0 => exhaust
  | budget + 1 => do
    let token ← peek
    if ← acceptKeyword .forWord then
      let _ ← expectMark .leftParen .forClauses
      let initial ← forInitial
      let condition ← optionalBefore .semicolon .loopConditionEnd
      let increment ← optionalBefore .rightParen .forClausesEnd
      let body ← statementWithin budget
      pure (.forLoop initial condition increment body)
    else if ← acceptKeyword .ifWord then
      let _ ← expectMark .leftParen .ifCondition
      let condition ← expression
      let _ ← expectMark .rightParen .ifConditionEnd
      let yes ← statementWithin budget
      if ← acceptKeyword .elseWord then
        let no ← statementWithin budget
        pure (.branch condition yes (some no))
      else
        pure (.branch condition yes none)
    else if ← acceptKeyword .printWord then
      printStatement
    else if ← acceptKeyword .returnWord then
      returnStatement token.toName
    else if ← acceptKeyword .whileWord then
      let _ ← expectMark .leftParen .whileCondition
      let condition ← expression
      let _ ← expectMark .rightParen .whileConditionEnd
      let body ← statementWithin budget
      pure (.loop condition body)
    else if ← acceptMark .leftBrace then
      let body ← blockWithin budget
      pure (.block body)
    else
      expressionStatement

/-- The rest of a block after its opening brace. -/
def blockWithin : Nat → Parser (List Stmt)
  | 0 => exhaust
  | budget + 1 => do
    let body ← declarationsWithin budget
    let _ ← expectMark .rightBrace .blockEnd
    pure body

/-- Declarations up to a closing brace or the end. -/
def declarationsWithin : Nat → Parser (List Stmt)
  | 0 => exhaust
  | budget + 1 => do
    if ← atBlockEnd then
      pure []
    else
      let first? ← declarationWithin budget
      let rest ← declarationsWithin budget
      pure (first?.toList ++ rest)

end

/-- A declaration or statement, or none if it had to be skipped. -/
def declaration : Parser (Option Stmt) := fun c => declarationWithin c.budget c

/-- Declarations up to the end of the source. -/
def programWithin : Nat → Parser Program
  | 0 => exhaust
  | budget + 1 => do
    if ← atEnd then
      pure []
    else
      let first? ← declaration
      let rest ← programWithin budget
      pure (first?.toList ++ rest)

end Parser

/-- The program that tokens spell, or every error found in them. -/
def Program.ofTokens (tokens : List Token) (eof : Token) : Except (List ParseError) Program :=
  let start := Cursor.start tokens eof
  match Parser.programWithin start.budget start with
  | .ok program c => if c.collected.isEmpty then .ok program else .error c.collected
  | .error _ c => .error c.collected

end Lox
