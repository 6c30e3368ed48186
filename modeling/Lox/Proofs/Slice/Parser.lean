import Lox.Proofs.Slice.Reader

set_option autoImplicit false

/-! # Parsing tokens by their index

The parsers of expressions and statements once more, on a reader: the same trees and the same
errors, by the same recursion with the same budgets, but every look at a token is a reading at an
index. Where a token is needed that was read just before, it is read a second time (`previous`).
-/

namespace Lox.Slice

/-! ## Expressions -/

/-- The assignment of a value to what stands left of an equals sign. -/
def assignTo (target value : Expr) (equals : Token) : Reading Expr :=
  match target with
  | .variable name => pure (.assign name value)
  | .get object property => pure (.set object property value)
  | other => do
    report .assignmentTarget equals
    pure other

/-- An operator that is a keyword, and its token. -/
def operatorWord (w : Keyword) (op : InfixOp) : Reading (Option (InfixOp × Token)) := do
  match ← acceptToken (·.isKeyword w) with
  | some t => pure (some (op, t))
  | none => pure none

/-- An operator that is one of these marks, asked for one after the other, and its token. -/
def operatorMark : List (Mark × BinaryOp) → Reading (Option (InfixOp × Token))
  | [] => pure none
  | (m, op) :: others => do
    if ← check (·.isMark m) then
      let t ← advance
      pure (some (.binary op, t))
    else
      operatorMark others

/-- An operator of a level, and its token. -/
def operator : Level → Reading (Option (InfixOp × Token))
  | .disjunction => operatorWord .orWord (.logical .or)
  | .conjunction => operatorWord .andWord (.logical .and)
  | .equality => operatorMark [(.bangEqual, .notEqual), (.equalEqual, .equal)]
  | .comparison =>
    operatorMark [(.greater, .greater), (.greaterEqual, .greaterEqual), (.less, .less),
      (.lessEqual, .lessEqual)]
  | .term => operatorMark [(.minus, .subtract), (.plus, .add)]
  | .factor => operatorMark [(.slash, .divide), (.star, .multiply)]

/-- A unary operator, and its token. -/
def unaryOperator : Reading (Option (UnaryOp × Token)) := do
  match ← acceptToken (·.isMark .bang) with
  | some t => pure (some (.not, t))
  | none =>
    match ← acceptToken (·.isMark .minus) with
    | some t => pure (some (.negate, t))
    | none => pure none

mutual

/-- An expression. -/
def expressionWithin : Nat → Reading Expr
  | 0 => exhaust
  | budget + 1 => do
    let left ← levelWithin budget .disjunction
    match ← acceptToken (·.isMark .equal) with
    | some equals =>
      let value ← expressionWithin budget
      assignTo left value equals
    | none => pure left

/-- An expression of a level. -/
def levelWithin : Nat → Level → Reading Expr
  | 0, _ => exhaust
  | budget + 1, l => do
    let left ← operandWithin budget l
    levelRestWithin budget l left

/-- The operators of a level after its first operand. -/
def levelRestWithin : Nat → Level → Expr → Reading Expr
  | 0, _, _ => exhaust
  | budget + 1, l, left => do
    match ← operator l with
    | none => pure left
    | some (op, token) =>
      let right ← operandWithin budget l
      levelRestWithin budget l (op.join token.line left right)

/-- An operand of a level. -/
def operandWithin : Nat → Level → Reading Expr
  | 0, _ => exhaust
  | budget + 1, l =>
    match l.tighter? with
    | some tighter => levelWithin budget tighter
    | none => unaryWithin budget

/-- A unary expression. -/
def unaryWithin : Nat → Reading Expr
  | 0 => exhaust
  | budget + 1 => do
    match ← unaryOperator with
    | some (op, token) =>
      let operand ← unaryWithin budget
      pure (.unary op token.line operand)
    | none =>
      let callee ← primaryWithin budget
      callRestWithin budget callee

/-- The calls and property accesses after a primary expression. -/
def callRestWithin : Nat → Expr → Reading Expr
  | 0, _ => exhaust
  | budget + 1, callee => do
    if ← accept (·.isMark .leftParen) then
      let arguments ← argumentsWithin budget
      let closing ← expect (·.isMark .rightParen) .argumentsEnd
      callRestWithin budget (.call callee arguments closing.line)
    else if ← accept (·.isMark .dot) then
      let property ← expectName .propertyName
      callRestWithin budget (.get callee property)
    else
      pure callee

/-- The arguments of a call, up to the closing parenthesis. -/
def argumentsWithin : Nat → Reading (List Expr)
  | 0 => exhaust
  | budget + 1 => do
    if ← check (·.isMark .rightParen) then pure [] else argumentListWithin budget 0

/-- The arguments of a call from one on, after `count` of them. -/
def argumentListWithin : Nat → Nat → Reading (List Expr)
  | 0, _ => exhaust
  | budget + 1, count => do
    if maxArguments ≤ count then
      report .tooManyArguments (← peek)
    let argument ← expressionWithin budget
    if ← accept (·.isMark .comma) then
      let arguments ← argumentListWithin budget (count + 1)
      pure (argument :: arguments)
    else
      pure [argument]

/-- A primary expression. -/
def primaryWithin : Nat → Reading Expr
  | 0 => exhaust
  | budget + 1 => do
    let token ← peek
    match Literal.ofKind? token.kind with
    | some value =>
      let _ ← advance
      pure (.literal value)
    | none =>
      match token.kind with
      | .keyword .thisWord =>
        let _ ← advance
        pure (.this token.toName)
      | .keyword .superWord =>
        let _ ← advance
        let _ ← expect (·.isMark .dot) .superDot
        let method ← expectName .superMethod
        pure (.super token.toName method)
      | .identifier =>
        let _ ← advance
        pure (.variable token.toName)
      | .mark .leftParen =>
        let _ ← advance
        let inner ← expressionWithin budget
        let _ ← expect (·.isMark .rightParen) .groupingEnd
        pure (.grouping inner)
      | _ => fail .expression token

end

/-- An expression. -/
def expression : Reading Expr := budgeted expressionWithin

/-- An expression that is all there is. -/
def wholeExpression : Reading Expr := do
  let e ← expression
  if ← isAtEnd then
    pure e
  else
    let t ← peek
    fail .expressionEnd t

/-! ## Statements -/

/-- The parameters of a function from one on, after `count` of them. -/
def parameterListWithin : Nat → Nat → Reading (List Name)
  | 0, _ => exhaust
  | budget + 1, count => do
    if maxArguments ≤ count then
      report .tooManyParameters (← peek)
    let parameter ← expectName .parameterName
    if ← accept (·.isMark .comma) then
      let parameters ← parameterListWithin budget (count + 1)
      pure (parameter :: parameters)
    else
      pure [parameter]

/-- The parameters of a function, up to the closing parenthesis. -/
def parameters : Reading (List Name) := do
  if ← check (·.isMark .rightParen) then
    pure []
  else
    budgeted fun budget => parameterListWithin budget 0

/-- A variable declaration after its keyword. -/
def variableDeclaration : Reading Stmt := do
  let name ← expectName .variableName
  let initial ← do
    if ← accept (·.isMark .equal) then
      let e ← expression
      pure (some e)
    else
      pure none
  let _ ← expect (·.isMark .semicolon) .variableEnd
  pure (.var name initial)

/-- An expression as a statement. -/
def expressionStatement : Reading Stmt := do
  let e ← expression
  let _ ← expect (·.isMark .semicolon) .expressionStatementEnd
  pure (.expression e)

/-- A print statement after its keyword. -/
def printStatement : Reading Stmt := do
  let e ← expression
  let _ ← expect (·.isMark .semicolon) .printEnd
  pure (.print e)

/-- An expression that may be missing before this mark, and the mark. -/
def optionalBefore (m : Mark) (cause : ParseError.Cause) : Reading (Option Expr) := do
  if ← check (·.isMark m) then
    let _ ← expect (·.isMark m) cause
    pure none
  else
    let e ← expression
    let _ ← expect (·.isMark m) cause
    pure (some e)

/-- A return statement after its keyword. -/
def returnStatement (keyword : Name) : Reading Stmt := do
  let e? ← optionalBefore .semicolon .returnEnd
  pure (.ret keyword e?)

/-- The first clause of a `for` loop. -/
def forInitial : Reading (Option Stmt) := do
  if ← accept (·.isMark .semicolon) then
    pure none
  else if ← accept (·.isKeyword .varWord) then
    let s ← variableDeclaration
    pure (some s)
  else
    let s ← expressionStatement
    pure (some s)

/-- The name of a superclass, if a class has one. -/
def superclassClause : Reading (Option Name) := do
  if ← accept (·.isMark .less) then
    let name ← expectName .superclassName
    pure (some name)
  else
    pure none

/-- Whether a closing brace or the end of the source is next. -/
def atBlockEnd : Reading Bool := do
  if ← check (·.isMark .rightBrace) then pure true else isAtEnd

mutual

/-- A declaration or statement, or none if it had to be skipped. -/
def declarationWithin : Nat → Reading (Option Stmt)
  | 0 => exhaust
  | budget + 1 => recovering (declarationOrFail budget)

/-- A declaration or statement. -/
def declarationOrFail : Nat → Reading Stmt
  | 0 => exhaust
  | budget + 1 => do
    if ← accept (·.isKeyword .classWord) then
      classWithin budget
    else if ← accept (·.isKeyword .funWord) then
      let f ← functionWithin budget .function
      pure (.function f)
    else if ← accept (·.isKeyword .varWord) then
      variableDeclaration
    else
      statementWithin budget

/-- A class declaration after its keyword. -/
def classWithin : Nat → Reading Stmt
  | 0 => exhaust
  | budget + 1 => do
    let name ← expectName .className
    let superclass ← superclassClause
    let _ ← expect (·.isMark .leftBrace) .classBody
    let methods ← methodsWithin budget
    let _ ← expect (·.isMark .rightBrace) .classEnd
    pure (.classDecl name superclass methods)

/-- The methods of a class, up to its closing brace. -/
def methodsWithin : Nat → Reading (List Function)
  | 0 => exhaust
  | budget + 1 => do
    if ← atBlockEnd then
      pure []
    else
      let f ← functionWithin budget .method
      let rest ← methodsWithin budget
      pure (f :: rest)

/-- A function or method from its name on. -/
def functionWithin : Nat → FunctionKind → Reading Function
  | 0, _ => exhaust
  | budget + 1, kind => do
    let name ← expectName (.functionName kind)
    let _ ← expect (·.isMark .leftParen) (.parameters kind)
    let parameters ← parameters
    let _ ← expect (·.isMark .rightParen) .parametersEnd
    let _ ← expect (·.isMark .leftBrace) (.functionBody kind)
    let body ← blockWithin budget
    pure ⟨name, parameters, body⟩

/-- A statement. -/
def statementWithin : Nat → Reading Stmt
  | 0 => exhaust
  | budget + 1 => do
    if ← accept (·.isKeyword .forWord) then
      let _ ← expect (·.isMark .leftParen) .forClauses
      let initial ← forInitial
      let condition ← optionalBefore .semicolon .loopConditionEnd
      let increment ← optionalBefore .rightParen .forClausesEnd
      let body ← statementWithin budget
      pure (.forLoop initial condition increment body)
    else if ← accept (·.isKeyword .ifWord) then
      let _ ← expect (·.isMark .leftParen) .ifCondition
      let condition ← expression
      let _ ← expect (·.isMark .rightParen) .ifConditionEnd
      let yes ← statementWithin budget
      if ← accept (·.isKeyword .elseWord) then
        let no ← statementWithin budget
        pure (.branch condition yes (some no))
      else
        pure (.branch condition yes none)
    else if ← accept (·.isKeyword .printWord) then
      printStatement
    else
      match ← acceptToken (·.isKeyword .returnWord) with
      | some keyword => returnStatement keyword.toName
      | none =>
        if ← accept (·.isKeyword .whileWord) then
          let _ ← expect (·.isMark .leftParen) .whileCondition
          let condition ← expression
          let _ ← expect (·.isMark .rightParen) .whileConditionEnd
          let body ← statementWithin budget
          pure (.loop condition body)
        else if ← accept (·.isMark .leftBrace) then
          let body ← blockWithin budget
          pure (.block body)
        else
          expressionStatement

/-- The rest of a block after its opening brace. -/
def blockWithin : Nat → Reading (List Stmt)
  | 0 => exhaust
  | budget + 1 => do
    let body ← declarationsWithin budget
    let _ ← expect (·.isMark .rightBrace) .blockEnd
    pure body

/-- Declarations up to a closing brace or the end. -/
def declarationsWithin : Nat → Reading (List Stmt)
  | 0 => exhaust
  | budget + 1 => do
    if ← atBlockEnd then
      pure []
    else
      let first? ← declarationWithin budget
      let rest ← declarationsWithin budget
      pure (first?.toList ++ rest)

end

/-- A declaration or statement, or none if it had to be skipped. -/
def declaration : Reading (Option Stmt) := budgeted declarationWithin

/-- Declarations up to the end of the source. -/
def programWithin : Nat → Reading Program
  | 0 => exhaust
  | budget + 1 => do
    if ← isAtEnd then
      pure []
    else
      let first? ← declaration
      let rest ← programWithin budget
      pure (first?.toList ++ rest)

/-- The declarations of the whole source, or every error found in it. -/
def program : Reading (Except (List ParseError) Program) := do
  let p ← budgeted programWithin
  fun r => .ok (if r.collected.isEmpty then .ok p else .error r.collected) r

end Lox.Slice
