import Lox.Proofs.Drawing.Erasure

set_option autoImplicit false

/-! # Parsers that draw identities

The tree of `Program.ofTokens` takes the offset of its name for the identity of a reference. Here a
parser draws the identity from a counter when it makes the node: for `this`, for `super` once its
method was read, for a variable, for the name of a superclass, and for an assignment once its value
was read. The counter belongs to the process. It is never set back, so what a parser that failed
has drawn stays drawn, and so does what was drawn for a node that is dropped: the variable on the
left of an assignment, or the value of a wrong one.

The identity of a reference stands in its name in place of the offset. Names that are no
references have none, and 0 stands in them; so identities are counted from one. A counter does not
wrap.
-/

namespace Lox

/-- A cursor, and how many identities the process has drawn. -/
structure Drawer where
  cursor : Cursor
  drawn : Nat

/-- A parser that draws identities. -/
abbrev Drawing := EStateM Failure Drawer

namespace Drawing

open Lox.Parser (peek advance acceptMark checkMark acceptKeyword report expectMark atBlockEnd
  atEnd)

variable {α : Type}

/-- Runs a parser that draws nothing. -/
def reading (p : Parser α) : Drawing α := fun d =>
  match p d.cursor with
  | .ok a c => .ok a { d with cursor := c }
  | .error e c => .error e { d with cursor := c }

/-- Draws an identity that was never drawn before. -/
def fresh : Drawing Nat := fun d => .ok (d.drawn + 1) { d with drawn := d.drawn + 1 }

/-- The name of a reference, with an identity of its own. -/
def refer (name : Name) : Drawing Name := do
  let identity ← fresh
  pure ⟨name.text, name.line, identity⟩

/-- Fails because the budget is spent. -/
def exhaust : Drawing α := reading Parser.exhaust

/-- Reads an identifier that is no reference, or fails. -/
def expectName (cause : ParseError.Cause) : Drawing Name := do
  let name ← reading (Parser.expectName cause)
  pure (name.renumber .bare)

/-! ## Expressions -/

/-- The assignment of a value to what stands left of an equals sign. The variable that was read
there is dropped with its identity. -/
def assignTo (target value : Expr) (equals : Token) : Drawing Expr :=
  match target with
  | .variable name => do
    let name ← refer name
    pure (.assign name value)
  | .get object property => pure (.set object property value)
  | other => do
    reading (report .assignmentTarget equals)
    pure other

mutual

@[inherit_doc Parser.expressionWithin]
def expressionWithin : Nat → Drawing Expr
  | 0 => exhaust
  | budget + 1 => do
    let left ← levelWithin budget .disjunction
    let equals ← reading peek
    if ← reading (acceptMark .equal) then
      let value ← expressionWithin budget
      assignTo left value equals
    else
      pure left

@[inherit_doc Parser.levelWithin]
def levelWithin : Nat → Level → Drawing Expr
  | 0, _ => exhaust
  | budget + 1, l => do
    let left ← operandWithin budget l
    levelRestWithin budget l left

@[inherit_doc Parser.levelRestWithin]
def levelRestWithin : Nat → Level → Expr → Drawing Expr
  | 0, _, _ => exhaust
  | budget + 1, l, left => do
    let token ← reading peek
    match l.operator? token.kind with
    | none => pure left
    | some op =>
      let _ ← reading advance
      let right ← operandWithin budget l
      levelRestWithin budget l (op.join token.line left right)

@[inherit_doc Parser.operandWithin]
def operandWithin : Nat → Level → Drawing Expr
  | 0, _ => exhaust
  | budget + 1, l =>
    match l.tighter? with
    | some tighter => levelWithin budget tighter
    | none => unaryWithin budget

@[inherit_doc Parser.unaryWithin]
def unaryWithin : Nat → Drawing Expr
  | 0 => exhaust
  | budget + 1 => do
    let token ← reading peek
    match UnaryOp.ofKind? token.kind with
    | some op =>
      let _ ← reading advance
      let operand ← unaryWithin budget
      pure (.unary op token.line operand)
    | none =>
      let callee ← primaryWithin budget
      callRestWithin budget callee

@[inherit_doc Parser.callRestWithin]
def callRestWithin : Nat → Expr → Drawing Expr
  | 0, _ => exhaust
  | budget + 1, callee => do
    if ← reading (acceptMark .leftParen) then
      let arguments ← argumentsWithin budget
      let closing ← reading (expectMark .rightParen .argumentsEnd)
      callRestWithin budget (.call callee arguments closing.line)
    else if ← reading (acceptMark .dot) then
      let property ← expectName .propertyName
      callRestWithin budget (.get callee property)
    else
      pure callee

@[inherit_doc Parser.argumentsWithin]
def argumentsWithin : Nat → Drawing (List Expr)
  | 0 => exhaust
  | budget + 1 => do
    if ← reading (checkMark .rightParen) then pure [] else argumentListWithin budget 0

@[inherit_doc Parser.argumentListWithin]
def argumentListWithin : Nat → Nat → Drawing (List Expr)
  | 0, _ => exhaust
  | budget + 1, count => do
    if maxArguments ≤ count then
      reading (report .tooManyArguments (← reading peek))
    let argument ← expressionWithin budget
    if ← reading (acceptMark .comma) then
      let arguments ← argumentListWithin budget (count + 1)
      pure (argument :: arguments)
    else
      pure [argument]

@[inherit_doc Parser.primaryWithin]
def primaryWithin : Nat → Drawing Expr
  | 0 => exhaust
  | budget + 1 => do
    let token ← reading peek
    match Literal.ofKind? token.kind with
    | some value =>
      let _ ← reading advance
      pure (.literal value)
    | none =>
      match token.kind with
      | .keyword .thisWord =>
        let _ ← reading advance
        let keyword ← refer token.toName
        pure (.this keyword)
      | .keyword .superWord =>
        let _ ← reading advance
        let _ ← reading (expectMark .dot .superDot)
        let method ← expectName .superMethod
        let keyword ← refer token.toName
        pure (.super keyword method)
      | .identifier =>
        let _ ← reading advance
        let name ← refer token.toName
        pure (.variable name)
      | .mark .leftParen =>
        let _ ← reading advance
        let inner ← expressionWithin budget
        let _ ← reading (expectMark .rightParen .groupingEnd)
        pure (.grouping inner)
      | _ => reading (Parser.fail .expression)

end

/-- An expression. -/
def expression : Drawing Expr := fun d => expressionWithin d.cursor.budget d

/-! ## Statements -/

/-- The parameters of a function, up to the closing parenthesis. -/
def parameters : Drawing (List Name) := do
  let names ← reading Parser.parameters
  pure (names.map (Name.renumber .bare))

/-- A variable declaration after its keyword. -/
def variableDeclaration : Drawing Stmt := do
  let name ← expectName .variableName
  let initial ← do
    if ← reading (acceptMark .equal) then
      let e ← expression
      pure (some e)
    else
      pure none
  let _ ← reading (expectMark .semicolon .variableEnd)
  pure (.var name initial)

/-- An expression as a statement. -/
def expressionStatement : Drawing Stmt := do
  let e ← expression
  let _ ← reading (expectMark .semicolon .expressionStatementEnd)
  pure (.expression e)

/-- A print statement after its keyword. -/
def printStatement : Drawing Stmt := do
  let e ← expression
  let _ ← reading (expectMark .semicolon .printEnd)
  pure (.print e)

/-- A return statement after its keyword. -/
def returnStatement (keyword : Name) : Drawing Stmt := do
  if ← reading (acceptMark .semicolon) then
    pure (.ret (keyword.renumber .bare) none)
  else
    let e ← expression
    let _ ← reading (expectMark .semicolon .returnEnd)
    pure (.ret (keyword.renumber .bare) (some e))

/-- The first clause of a `for` loop. -/
def forInitial : Drawing (Option Stmt) := do
  if ← reading (acceptMark .semicolon) then
    pure none
  else if ← reading (acceptKeyword .varWord) then
    let s ← variableDeclaration
    pure (some s)
  else
    let s ← expressionStatement
    pure (some s)

/-- An expression that may be missing before this mark, and the mark. -/
def optionalBefore (m : Mark) (cause : ParseError.Cause) : Drawing (Option Expr) := do
  if ← reading (acceptMark m) then
    pure none
  else
    let e ← expression
    let _ ← reading (expectMark m cause)
    pure (some e)

/-- The name of a superclass, if a class has one. It is a reference. -/
def superclassClause : Drawing (Option Name) := do
  if ← reading (acceptMark .less) then
    let name ← reading (Parser.expectName .superclassName)
    let name ← refer name
    pure (some name)
  else
    pure none

/-- Runs a parser; if it fails, notes the error and goes to the next statement. What was drawn
stays drawn. -/
def recovering (p : Drawing α) : Drawing (Option α) := fun d =>
  match p d with
  | .ok a d => .ok (some a) d
  | .error (.failed e) d => .ok none { d with cursor := (d.cursor.collect e).synchronize }
  | .error .exhausted d => .error .exhausted d

mutual

@[inherit_doc Parser.declarationWithin]
def declarationWithin : Nat → Drawing (Option Stmt)
  | 0 => exhaust
  | budget + 1 => recovering (declarationOrFail budget)

@[inherit_doc Parser.declarationOrFail]
def declarationOrFail : Nat → Drawing Stmt
  | 0 => exhaust
  | budget + 1 => do
    if ← reading (acceptKeyword .classWord) then
      classWithin budget
    else if ← reading (acceptKeyword .funWord) then
      let f ← functionWithin budget .function
      pure (.function f)
    else if ← reading (acceptKeyword .varWord) then
      variableDeclaration
    else
      statementWithin budget

@[inherit_doc Parser.classWithin]
def classWithin : Nat → Drawing Stmt
  | 0 => exhaust
  | budget + 1 => do
    let name ← expectName .className
    let superclass ← superclassClause
    let _ ← reading (expectMark .leftBrace .classBody)
    let methods ← methodsWithin budget
    let _ ← reading (expectMark .rightBrace .classEnd)
    pure (.classDecl name superclass methods)

@[inherit_doc Parser.methodsWithin]
def methodsWithin : Nat → Drawing (List Function)
  | 0 => exhaust
  | budget + 1 => do
    if ← reading atBlockEnd then
      pure []
    else
      let f ← functionWithin budget .method
      let rest ← methodsWithin budget
      pure (f :: rest)

@[inherit_doc Parser.functionWithin]
def functionWithin : Nat → FunctionKind → Drawing Function
  | 0, _ => exhaust
  | budget + 1, kind => do
    let name ← expectName (.functionName kind)
    let _ ← reading (expectMark .leftParen (.parameters kind))
    let parameters ← parameters
    let _ ← reading (expectMark .rightParen .parametersEnd)
    let _ ← reading (expectMark .leftBrace (.functionBody kind))
    let body ← blockWithin budget
    pure ⟨name, parameters, body⟩

@[inherit_doc Parser.statementWithin]
def statementWithin : Nat → Drawing Stmt
  | 0 => exhaust
  | budget + 1 => do
    let token ← reading peek
    if ← reading (acceptKeyword .forWord) then
      let _ ← reading (expectMark .leftParen .forClauses)
      let initial ← forInitial
      let condition ← optionalBefore .semicolon .loopConditionEnd
      let increment ← optionalBefore .rightParen .forClausesEnd
      let body ← statementWithin budget
      pure (.forLoop initial condition increment body)
    else if ← reading (acceptKeyword .ifWord) then
      let _ ← reading (expectMark .leftParen .ifCondition)
      let condition ← expression
      let _ ← reading (expectMark .rightParen .ifConditionEnd)
      let yes ← statementWithin budget
      if ← reading (acceptKeyword .elseWord) then
        let no ← statementWithin budget
        pure (.branch condition yes (some no))
      else
        pure (.branch condition yes none)
    else if ← reading (acceptKeyword .printWord) then
      printStatement
    else if ← reading (acceptKeyword .returnWord) then
      returnStatement token.toName
    else if ← reading (acceptKeyword .whileWord) then
      let _ ← reading (expectMark .leftParen .whileCondition)
      let condition ← expression
      let _ ← reading (expectMark .rightParen .whileConditionEnd)
      let body ← statementWithin budget
      pure (.loop condition body)
    else if ← reading (acceptMark .leftBrace) then
      let body ← blockWithin budget
      pure (.block body)
    else
      expressionStatement

@[inherit_doc Parser.blockWithin]
def blockWithin : Nat → Drawing (List Stmt)
  | 0 => exhaust
  | budget + 1 => do
    let body ← declarationsWithin budget
    let _ ← reading (expectMark .rightBrace .blockEnd)
    pure body

@[inherit_doc Parser.declarationsWithin]
def declarationsWithin : Nat → Drawing (List Stmt)
  | 0 => exhaust
  | budget + 1 => do
    if ← reading atBlockEnd then
      pure []
    else
      let first? ← declarationWithin budget
      let rest ← declarationsWithin budget
      pure (first?.toList ++ rest)

end

/-- A declaration or statement, or none if it had to be skipped. -/
def declaration : Drawing (Option Stmt) := fun d => declarationWithin d.cursor.budget d

@[inherit_doc Parser.programWithin]
def programWithin : Nat → Drawing Program
  | 0 => exhaust
  | budget + 1 => do
    if ← reading atEnd then
      pure []
    else
      let first? ← declaration
      let rest ← programWithin budget
      pure (first?.toList ++ rest)

end Drawing

end Lox
