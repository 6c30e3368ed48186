import Lox.Tree.Cursor

set_option autoImplicit false

/-! # Parsing expressions

    expression → assignment
    assignment → ( call "." )? IDENTIFIER "=" assignment | disjunction
    level      → tighter ( operator tighter )*
    unary      → ( "!" | "-" ) unary | call
    call       → primary ( "(" arguments? ")" | "." IDENTIFIER )*
    primary    → NUMBER | STRING | "true" | "false" | "nil" | "this" | IDENTIFIER
               | "(" expression ")" | "super" "." IDENTIFIER

The six levels of operators differ only in their operators, so one pair of functions reads
them all (`level`, `levelRest`). Operators of a level group to the left; assignment groups to the
right, and its target is read as an expression first and then looked at.

An assignment to anything else, and an argument beyond the 255th, are reported without stopping.
-/

namespace Lox

/-- The levels of infix operators, the loosest one first. -/
inductive Level
  | disjunction
  | conjunction
  | equality
  | comparison
  | term
  | factor
deriving DecidableEq, Inhabited

/-- The operator that an infix token stands for. -/
inductive InfixOp
  | binary (op : BinaryOp)
  | logical (op : LogicalOp)
deriving DecidableEq, Inhabited

/-- The tree of two operands joined by an operator that stands on a line. -/
def InfixOp.join (op : InfixOp) (line : Nat) (left right : Expr) : Expr :=
  match op with
  | binary op => .binary op line left right
  | logical op => .logical op left right

namespace Level

/-- The next tighter level; the operands of the tightest one are unary expressions. -/
def tighter? : Level → Option Level
  | disjunction => some conjunction
  | conjunction => some equality
  | equality => some comparison
  | comparison => some term
  | term => some factor
  | factor => none

/-- The operator of a level that a token is. -/
def operator? (l : Level) (k : Token.Kind) : Option InfixOp :=
  match l, k with
  | disjunction, .keyword .orWord => some (.logical .or)
  | conjunction, .keyword .andWord => some (.logical .and)
  | equality, .mark .equalEqual => some (.binary .equal)
  | equality, .mark .bangEqual => some (.binary .notEqual)
  | comparison, .mark .less => some (.binary .less)
  | comparison, .mark .lessEqual => some (.binary .lessEqual)
  | comparison, .mark .greater => some (.binary .greater)
  | comparison, .mark .greaterEqual => some (.binary .greaterEqual)
  | term, .mark .plus => some (.binary .add)
  | term, .mark .minus => some (.binary .subtract)
  | factor, .mark .star => some (.binary .multiply)
  | factor, .mark .slash => some (.binary .divide)
  | _, _ => none

end Level

/-- The unary operator that a token is. -/
def UnaryOp.ofKind? : Token.Kind → Option UnaryOp
  | .mark .bang => some .not
  | .mark .minus => some .negate
  | _ => none

/-- The literal that a token is. -/
def Literal.ofKind? : Token.Kind → Option Literal
  | .keyword .nilWord => some .nil
  | .keyword .trueWord => some (.bool true)
  | .keyword .falseWord => some (.bool false)
  | .number value => some (.number value)
  | .string contents => some (.string contents)
  | _ => none

namespace Parser

/-- The assignment of a value to what stands left of an equals sign. -/
def assignTo (target value : Expr) (equals : Token) : Parser Expr :=
  match target with
  | .variable name => pure (.assign name value)
  | .get object property => pure (.set object property value)
  | other => do
    report .assignmentTarget equals
    pure other

mutual

/-- An expression. -/
def expressionWithin : Nat → Parser Expr
  | 0 => exhaust
  | budget + 1 => do
    let left ← levelWithin budget .disjunction
    let equals ← peek
    if ← acceptMark .equal then
      let value ← expressionWithin budget
      assignTo left value equals
    else
      pure left

/-- An expression of a level. -/
def levelWithin : Nat → Level → Parser Expr
  | 0, _ => exhaust
  | budget + 1, l => do
    let left ← operandWithin budget l
    levelRestWithin budget l left

/-- The operators of a level after its first operand. -/
def levelRestWithin : Nat → Level → Expr → Parser Expr
  | 0, _, _ => exhaust
  | budget + 1, l, left => do
    let token ← peek
    match l.operator? token.kind with
    | none => pure left
    | some op =>
      let _ ← advance
      let right ← operandWithin budget l
      levelRestWithin budget l (op.join token.line left right)

/-- An operand of a level. -/
def operandWithin : Nat → Level → Parser Expr
  | 0, _ => exhaust
  | budget + 1, l =>
    match l.tighter? with
    | some tighter => levelWithin budget tighter
    | none => unaryWithin budget

/-- A unary expression. -/
def unaryWithin : Nat → Parser Expr
  | 0 => exhaust
  | budget + 1 => do
    let token ← peek
    match UnaryOp.ofKind? token.kind with
    | some op =>
      let _ ← advance
      let operand ← unaryWithin budget
      pure (.unary op token.line operand)
    | none =>
      let callee ← primaryWithin budget
      callRestWithin budget callee

/-- The calls and property accesses after a primary expression. -/
def callRestWithin : Nat → Expr → Parser Expr
  | 0, _ => exhaust
  | budget + 1, callee => do
    if ← acceptMark .leftParen then
      let arguments ← argumentsWithin budget
      let closing ← expectMark .rightParen .argumentsEnd
      callRestWithin budget (.call callee arguments closing.line)
    else if ← acceptMark .dot then
      let property ← expectName .propertyName
      callRestWithin budget (.get callee property)
    else
      pure callee

/-- The arguments of a call, up to the closing parenthesis. -/
def argumentsWithin : Nat → Parser (List Expr)
  | 0 => exhaust
  | budget + 1 => do
    if ← checkMark .rightParen then pure [] else argumentListWithin budget 0

/-- The arguments of a call from one on, after `count` of them. -/
def argumentListWithin : Nat → Nat → Parser (List Expr)
  | 0, _ => exhaust
  | budget + 1, count => do
    if maxArguments ≤ count then
      report .tooManyArguments (← peek)
    let argument ← expressionWithin budget
    if ← acceptMark .comma then
      let arguments ← argumentListWithin budget (count + 1)
      pure (argument :: arguments)
    else
      pure [argument]

/-- A primary expression. -/
def primaryWithin : Nat → Parser Expr
  | 0 => exhaust
  | budget + 1 => do
    let token ← peek
    match Literal.ofKind? token.kind with
    | some value =>
      let _ ← advance
      pure (.literal value)
    | none =>
      match token.kind with
      | .keyword .thisWord =>
        let _ ← advance
        pure (.this token.toName)
      | .keyword .superWord =>
        let _ ← advance
        let _ ← expectMark .dot .superDot
        let method ← expectName .superMethod
        pure (.super token.toName method)
      | .identifier =>
        let _ ← advance
        pure (.variable token.toName)
      | .mark .leftParen =>
        let _ ← advance
        let inner ← expressionWithin budget
        let _ ← expectMark .rightParen .groupingEnd
        pure (.grouping inner)
      | _ => fail .expression

end

/-- An expression. -/
def expression : Parser Expr := fun c => expressionWithin c.budget c

/-- An expression that is all there is. -/
def wholeExpression : Parser Expr := do
  let e ← expression
  fun c => if c.isAtEnd then .ok e c else fail .expressionEnd c

end Parser

/-- The expression that tokens spell. Errors that do not stop the parser are not looked at. -/
def Expr.ofTokens (tokens : List Token) (eof : Token) : Except ParseError Expr :=
  match Parser.wholeExpression (Cursor.start tokens eof) with
  | .ok e _ => .ok e
  | .error (.failed error) _ => .error error
  | .error .exhausted c => .error ⟨.expression, c.peek⟩

end Lox
