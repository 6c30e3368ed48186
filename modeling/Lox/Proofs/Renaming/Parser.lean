import Lox.Proofs.Parsing.Acceptance
import Lox.Proofs.Renaming.Tree

set_option autoImplicit false

/-! # Parsing renamed tokens

A parser looks at the kinds of tokens alone, and a renaming leaves those. So a parser does the
same on renamed tokens, with the names renamed in what it gives and in the errors it finds
(`Program.ofTokens_rename`).
-/

namespace Lox

variable (r : Renaming)

/-- The cursor before the renamed tokens. -/
def Cursor.rename (c : Cursor) : Cursor :=
  ⟨c.ahead.map (Token.rename r), c.eof.rename r, c.collected.map (ParseError.rename r)⟩

/-- The failure at the renamed token. -/
def Failure.rename : Failure → Failure
  | .failed e => .failed (e.rename r)
  | .exhausted => .exhausted

namespace Cursor

variable (c : Cursor)

@[simp] theorem rename_peek : (c.rename r).peek = c.peek.rename r := by
  rw [peek, peek, rename]
  cases c.ahead <;> rfl

@[simp] theorem rename_advance : c.advance.rename r = (c.rename r).advance := by
  rw [advance, advance, rename, rename, List.map_tail]

@[simp] theorem rename_isAtMark (m : Mark) : (c.rename r).isAtMark m = c.isAtMark m := by
  rw [isAtMark, isAtMark, rename]
  cases c.ahead <;> rfl

@[simp] theorem rename_isAtEnd : (c.rename r).isAtEnd = c.isAtEnd := List.isEmpty_map

@[simp] theorem rename_budget : (c.rename r).budget = c.budget := by
  rw [budget, budget, rename, List.length_map]

theorem rename_collect (e : ParseError) :
    (c.collect e).rename r = (c.rename r).collect (e.rename r) := by
  rw [collect, collect, rename, List.map_append]
  rfl

theorem skipToStatement_rename (last : Token) (ts : List Token) :
    skipToStatement (last.rename r) (ts.map (Token.rename r)) =
      (skipToStatement last ts).map (Token.rename r) := by
  induction ts generalizing last with
  | nil => rfl
  | cons t ts ih =>
      simp only [List.map_cons, skipToStatement, Token.rename_kind, ih]
      by_cases hlast : last.kind.isMark .semicolon
      · simp [hlast]
      · by_cases hstarts : startsStatement t.kind <;> simp [hlast, hstarts]

theorem rename_synchronize : c.synchronize.rename r = (c.rename r).synchronize := by
  obtain ⟨ahead, eof, collected⟩ := c
  cases ahead with
  | nil => rfl
  | cons t ts =>
      have hskip := skipToStatement_rename r t ts
      simp only [synchronize, rename, List.map_cons, hskip]

end Cursor

namespace Parser

/-- What a parser comes to, with what it gives changed by `f`, which renames it. -/
def renameResult {α : Type} (f : α → α) :
    EStateM.Result Failure Cursor α → EStateM.Result Failure Cursor α
  | .ok a c => .ok (f a) (c.rename r)
  | .error e c => .error (e.rename r) (c.rename r)

/-- The second parser does on renamed tokens what the first one does on the tokens. -/
def Renames {α : Type} (f : α → α) (p p' : Parser α) : Prop :=
  ∀ c, p' (c.rename r) = renameResult r f (p c)

variable {r} {α β : Type} {f : α → α} {g : β → β} {p p' : Parser α} {q q' : α → Parser β}

/-! ## Rules -/

theorem Renames.pure (a : α) : Renames r f (pure a) (Pure.pure (f a)) := fun _ => rfl

theorem Renames.exhaust : Renames r f exhaust exhaust := fun _ => rfl

/-- One parser after another. -/
theorem Renames.bind (hp : Renames r f p p') (hq : ∀ a, Renames r g (q a) (q' (f a))) :
    Renames r g (p >>= q) (p' >>= q') := by
  intro c
  have hrun := hp c
  cases hresult : p c with
  | ok a c₁ =>
      rw [hresult] at hrun
      rw [bind_of_ok hresult, bind_of_ok hrun]
      exact hq a c₁
  | error e c₁ =>
      rw [hresult] at hrun
      rw [bind_of_error hresult, bind_of_error hrun]
      rfl

/-- A value made of what a parser gives. -/
theorem Renames.map (hp : Renames r f p p') {h h' : α → β} (heq : ∀ a, g (h a) = h' (f a)) :
    Renames r g (p >>= fun a => Pure.pure (h a)) (p' >>= fun a => Pure.pure (h' a)) := by
  apply hp.bind
  intro a
  rw [← heq]
  exact .pure (h a)

/-- A parser that is chosen by an answer. -/
theorem Renames.choose {d : Parser Bool} {yes yes' no no' : Parser β} (hd : Renames r id d d)
    (hyes : Renames r g yes yes') (hno : Renames r g no no') :
    Renames r g (d >>= fun b => if b = true then yes else no)
      (d >>= fun b => if b = true then yes' else no') := by
  apply hd.bind
  intro b
  cases b with
  | true => exact hyes
  | false => exact hno

/-- A parser that runs with the budget that its tokens call for. -/
theorem Renames.budgeted {run : Nat → Parser α} (h : ∀ b, Renames r f (run b) (run b)) :
    Renames r f (fun c => run c.budget c) (fun c => run c.budget c) := by
  intro c
  show run (c.rename r).budget (c.rename r) = _
  rw [Cursor.rename_budget]
  exact h c.budget c

/-- Recovery skips the same tokens. -/
theorem Renames.recovering (hp : Renames r f p p') :
    Renames r (Option.map f) (recovering p) (recovering p') := by
  intro c
  have hrun := hp c
  rw [Parser.recovering, Parser.recovering, hrun]
  cases p c with
  | ok a c₁ => rfl
  | error e c₁ =>
      cases e with
      | exhausted => rfl
      | failed e =>
          simp only [renameResult, Failure.rename, Cursor.rename_synchronize,
            Cursor.rename_collect]
          rfl

/-! ## Primitive parsers -/

theorem renames_peek : Renames r (Token.rename r) peek peek := by
  intro c
  rw [peek, peek, Cursor.rename_peek]
  rfl

theorem renames_advance : Renames r (Token.rename r) advance advance := by
  intro c
  rw [advance, advance, Cursor.rename_peek, ← Cursor.rename_advance]
  rfl

/-- A question about what is next. -/
theorem renames_look {value : Cursor → Bool} (h : ∀ c, value (Cursor.rename r c) = value c) :
    Renames r id (fun c => .ok (value c) c) (fun c => .ok (value c) c) := by
  intro c
  show EStateM.Result.ok (value (c.rename r)) (c.rename r) = _
  rw [h]
  rfl

theorem renames_checkMark (m : Mark) : Renames r id (checkMark m) (checkMark m) :=
  renames_look fun c => c.rename_isAtMark r m

theorem renames_atBlockEnd : Renames r id atBlockEnd atBlockEnd :=
  renames_look fun c => by rw [Cursor.rename_isAtMark, Cursor.rename_isAtEnd]

theorem renames_atEnd : Renames r id atEnd atEnd := renames_look fun c => c.rename_isAtEnd r

theorem renames_acceptMark (m : Mark) : Renames r id (acceptMark m) (acceptMark m) := by
  intro c
  rw [acceptMark, acceptMark, Cursor.rename_isAtMark, ← Cursor.rename_advance]
  by_cases h : c.isAtMark m <;> simp [h, renameResult]

theorem renames_acceptKeyword (w : Keyword) :
    Renames r id (acceptKeyword w) (acceptKeyword w) := by
  intro c
  obtain ⟨ahead, eof, collected⟩ := c
  cases ahead with
  | nil => rfl
  | cons t ts =>
      by_cases h : t.kind.isKeyword w <;>
        simp [acceptKeyword, Cursor.rename, h, renameResult, Cursor.advance]

theorem renames_fail (cause : ParseError.Cause) : Renames r f (fail cause) (fail cause) := by
  intro c
  rw [fail, fail, Cursor.rename_peek]
  rfl

theorem renames_report (cause : ParseError.Cause) (token : Token) :
    Renames r id (report cause token) (report cause (token.rename r)) := by
  intro c
  rw [report, report, renameResult, Cursor.rename_collect]
  rfl

theorem renames_expectMark (m : Mark) (cause : ParseError.Cause) :
    Renames r (Token.rename r) (expectMark m cause) (expectMark m cause) := by
  intro c
  rw [expectMark, expectMark, Cursor.rename_isAtMark, Cursor.rename_peek,
    ← Cursor.rename_advance]
  by_cases h : c.isAtMark m
  · rw [if_pos h, if_pos h]
    rfl
  · rw [if_neg h, if_neg h]
    rfl

theorem renames_expectName (cause : ParseError.Cause) :
    Renames r (Name.rename r) (expectName cause) (expectName cause) := by
  intro c
  obtain ⟨ahead, eof, collected⟩ := c
  cases ahead with
  | nil => rfl
  | cons t ts =>
      obtain ⟨kind, lexeme, line, start⟩ := t
      cases kind <;> rfl

/-! ## Expressions -/

/-- What the expression parsers do with a budget. -/
structure ExpressionRenames (r : Renaming) (b : Nat) : Prop where
  expression : Renames r (Expr.rename r) (expressionWithin b) (expressionWithin b)
  level : ∀ l : Level, Renames r (Expr.rename r) (levelWithin b l) (levelWithin b l)
  levelRest : ∀ (l : Level) (left : Expr),
    Renames r (Expr.rename r) (levelRestWithin b l left) (levelRestWithin b l (left.rename r))
  operand : ∀ l : Level, Renames r (Expr.rename r) (operandWithin b l) (operandWithin b l)
  unary : Renames r (Expr.rename r) (unaryWithin b) (unaryWithin b)
  callRest : ∀ callee : Expr,
    Renames r (Expr.rename r) (callRestWithin b callee) (callRestWithin b (callee.rename r))
  arguments : Renames r (List.map (Expr.rename r)) (argumentsWithin b) (argumentsWithin b)
  argumentList : ∀ count : Nat,
    Renames r (List.map (Expr.rename r)) (argumentListWithin b count)
      (argumentListWithin b count)
  primary : Renames r (Expr.rename r) (primaryWithin b) (primaryWithin b)

variable {b : Nat}

theorem renames_assignTo (left value : Expr) (equals : Token) :
    Renames r (Expr.rename r) (assignTo left value equals)
      (assignTo (left.rename r) (value.rename r) (equals.rename r)) := by
  cases left with
  | «variable» name => exact .pure (Expr.assign name value)
  | get object property => exact .pure (Expr.set object property value)
  | _ => exact (renames_report _ _).map fun _ => rfl

/-- A list of one or more, of which too many are reported. -/
theorem renames_reported {list list' : Parser α} (hlist : Renames r f list list') (count : Nat)
    (cause : ParseError.Cause) :
    Renames r f
      (if maxArguments ≤ count then do
        let token ← peek
        report cause token
        list
      else list)
      (if maxArguments ≤ count then do
        let token ← peek
        report cause token
        list'
      else list') := by
  split
  · exact renames_peek.bind fun token => (renames_report _ token).bind fun _ => hlist
  · exact hlist

theorem expressionRenames (r : Renaming) (b : Nat) : ExpressionRenames r b := by
  induction b with
  | zero =>
      exact ⟨.exhaust, fun _ => .exhaust, fun _ _ => .exhaust, fun _ => .exhaust, .exhaust,
        fun _ => .exhaust, .exhaust, fun _ => .exhaust, .exhaust⟩
  | succ b ih =>
      constructor
      case expression =>
        rw [expressionWithin]
        refine (ih.level .disjunction).bind fun left => renames_peek.bind fun equals => ?_
        refine (renames_acceptMark .equal).choose ?_ (.pure left)
        exact ih.expression.bind fun value => renames_assignTo left value equals
      case level =>
        intro l
        rw [levelWithin]
        exact (ih.operand l).bind fun left => ih.levelRest l left
      case levelRest =>
        intro l left
        rw [levelRestWithin, levelRestWithin]
        apply renames_peek.bind
        intro token
        rw [Token.rename_kind]
        cases l.operator? token.kind with
        | none => exact .pure left
        | some op =>
            refine renames_advance.bind fun _ => (ih.operand l).bind fun right => ?_
            have h := ih.levelRest l (op.join token.line left right)
            rwa [InfixOp.rename_join] at h
      case operand =>
        intro l
        rw [operandWithin]
        cases l.tighter? with
        | some tighter => exact ih.level tighter
        | none => exact ih.unary
      case unary =>
        rw [unaryWithin]
        apply renames_peek.bind
        intro token
        rw [Token.rename_kind]
        cases UnaryOp.ofKind? token.kind with
        | some op => exact renames_advance.bind fun _ => ih.unary.map fun _ => rfl
        | none => exact ih.primary.bind fun callee => ih.callRest callee
      case callRest =>
        intro callee
        rw [callRestWithin, callRestWithin]
        refine (renames_acceptMark .leftParen).choose ?_
          ((renames_acceptMark .dot).choose ?_ (.pure callee))
        · refine ih.arguments.bind fun arguments => (renames_expectMark _ _).bind fun closing => ?_
          have h := ih.callRest (.call callee arguments closing.line)
          rwa [Expr.rename, Expr.renameAll_eq_map] at h
        · exact (renames_expectName _).bind fun property => ih.callRest (.get callee property)
      case arguments =>
        rw [argumentsWithin]
        exact (renames_checkMark _).choose (.pure []) (ih.argumentList 0)
      case argumentList =>
        intro count
        rw [argumentListWithin]
        apply renames_reported
        apply ih.expression.bind
        intro argument
        refine (renames_acceptMark .comma).choose ?_ (.pure [argument])
        exact (ih.argumentList (count + 1)).map fun _ => rfl
      case primary =>
        rw [primaryWithin]
        apply renames_peek.bind
        intro token
        rw [Token.rename_kind]
        cases Literal.ofKind? token.kind with
        | some value => exact renames_advance.map fun _ => rfl
        | none =>
            dsimp only
            split
            · exact renames_advance.map fun _ => rfl
            · refine renames_advance.bind fun _ => (renames_expectMark _ _).bind fun _ => ?_
              exact (renames_expectName _).map fun _ => rfl
            · exact renames_advance.map fun _ => rfl
            · refine renames_advance.bind fun _ => ih.expression.bind fun inner => ?_
              exact (renames_expectMark _ _).map fun _ => rfl
            · exact renames_fail _

theorem renames_expression : Renames r (Expr.rename r) expression expression :=
  .budgeted fun b => (expressionRenames r b).expression

/-! ## Simple statements -/

theorem renames_parameterList (b count : Nat) :
    Renames r (List.map (Name.rename r)) (parameterListWithin b count)
      (parameterListWithin b count) := by
  induction b generalizing count with
  | zero => exact .exhaust
  | succ b ih =>
      rw [parameterListWithin]
      apply renames_reported
      apply (renames_expectName _).bind
      intro parameter
      refine (renames_acceptMark .comma).choose ?_ (.pure [parameter])
      exact (ih (count + 1)).map fun _ => rfl

theorem renames_parameters : Renames r (List.map (Name.rename r)) parameters parameters := by
  rw [parameters]
  refine (renames_checkMark _).choose (.pure []) ?_
  have hlist : ∀ b, Renames r (List.map (Name.rename r)) (parameterListWithin b 0)
      (parameterListWithin b 0) := fun b => renames_parameterList b 0
  exact .budgeted hlist

theorem renames_variableDeclaration :
    Renames r (Stmt.rename r) variableDeclaration variableDeclaration := by
  rw [variableDeclaration]
  apply (renames_expectName _).bind
  intro name
  have hend : ∀ initial : Option Expr, Renames r (Stmt.rename r)
      (do
        let _ ← expectMark .semicolon .variableEnd
        pure (.var name initial))
      (do
        let _ ← expectMark .semicolon .variableEnd
        pure (.var (name.rename r) (initial.map (Expr.rename r)))) :=
    fun initial => (renames_expectMark _ _).map fun _ => rfl
  have hrest : ∀ initial : Option Expr, Renames r (Stmt.rename r)
      (pure initial >>= fun initial => do
        let _ ← expectMark .semicolon .variableEnd
        pure (.var name initial))
      (pure (initial.map (Expr.rename r)) >>= fun initial => do
        let _ ← expectMark .semicolon .variableEnd
        pure (.var (name.rename r) initial)) :=
    fun initial => (Renames.pure initial).bind hend
  refine (renames_acceptMark .equal).choose ?_ (hrest none)
  exact renames_expression.bind fun e => hrest (some e)

theorem renames_expressionStatement :
    Renames r (Stmt.rename r) expressionStatement expressionStatement := by
  rw [expressionStatement]
  exact renames_expression.bind fun e => (renames_expectMark _ _).map fun _ => rfl

theorem renames_printStatement : Renames r (Stmt.rename r) printStatement printStatement := by
  rw [printStatement]
  exact renames_expression.bind fun e => (renames_expectMark _ _).map fun _ => rfl

theorem renames_returnStatement (keyword : Name) :
    Renames r (Stmt.rename r) (returnStatement keyword)
      (returnStatement (keyword.rename r)) := by
  rw [returnStatement, returnStatement]
  refine (renames_acceptMark .semicolon).choose (.pure (Stmt.ret keyword none)) ?_
  exact renames_expression.bind fun e => (renames_expectMark _ _).map fun _ => rfl

theorem renames_forInitial : Renames r (Option.map (Stmt.rename r)) forInitial forInitial := by
  rw [forInitial]
  refine (renames_acceptMark .semicolon).choose (.pure none) ?_
  refine (renames_acceptKeyword .varWord).choose ?_ ?_
  · exact renames_variableDeclaration.map fun _ => rfl
  · exact renames_expressionStatement.map fun _ => rfl

theorem renames_optionalBefore (m : Mark) (cause : ParseError.Cause) :
    Renames r (Option.map (Expr.rename r)) (optionalBefore m cause) (optionalBefore m cause) := by
  rw [optionalBefore]
  refine (renames_acceptMark m).choose (.pure none) ?_
  exact renames_expression.bind fun e => (renames_expectMark _ _).map fun _ => rfl

theorem renames_superclassClause :
    Renames r (Option.map (Name.rename r)) superclassClause superclassClause := by
  rw [superclassClause]
  refine (renames_acceptMark .less).choose ?_ (.pure none)
  exact (renames_expectName _).map fun _ => rfl

/-! ## Statements and declarations -/

/-- What the statement parsers do with a budget. -/
structure StatementRenames (r : Renaming) (b : Nat) : Prop where
  declaration : Renames r (Option.map (Stmt.rename r)) (declarationWithin b) (declarationWithin b)
  declarationOrFail : Renames r (Stmt.rename r) (declarationOrFail b) (declarationOrFail b)
  classDecl : Renames r (Stmt.rename r) (classWithin b) (classWithin b)
  methods : Renames r (List.map (Function.rename r)) (methodsWithin b) (methodsWithin b)
  function : ∀ kind : FunctionKind,
    Renames r (Function.rename r) (functionWithin b kind) (functionWithin b kind)
  statement : Renames r (Stmt.rename r) (statementWithin b) (statementWithin b)
  block : Renames r (List.map (Stmt.rename r)) (blockWithin b) (blockWithin b)
  declarations : Renames r (List.map (Stmt.rename r)) (declarationsWithin b)
    (declarationsWithin b)

theorem renames_statement_step (ih : StatementRenames r b) :
    Renames r (Stmt.rename r) (statementWithin (b + 1)) (statementWithin (b + 1)) := by
  rw [statementWithin]
  apply renames_peek.bind
  intro token
  refine (renames_acceptKeyword .forWord).choose ?_ ?_
  · refine (renames_expectMark _ _).bind fun _ => renames_forInitial.bind fun initial =>
      (renames_optionalBefore _ _).bind fun condition =>
        (renames_optionalBefore _ _).bind fun increment => ?_
    exact ih.statement.map fun body => Stmt.rename_forLoop r initial condition increment body
  refine (renames_acceptKeyword .ifWord).choose ?_ ?_
  · refine (renames_expectMark _ _).bind fun _ => renames_expression.bind fun condition =>
      (renames_expectMark _ _).bind fun _ => ih.statement.bind fun yes => ?_
    refine (renames_acceptKeyword .elseWord).choose ?_ (.pure (Stmt.branch condition yes none))
    exact ih.statement.map fun no => rfl
  refine (renames_acceptKeyword .printWord).choose renames_printStatement ?_
  refine (renames_acceptKeyword .returnWord).choose (renames_returnStatement token.toName) ?_
  refine (renames_acceptKeyword .whileWord).choose ?_ ?_
  · refine (renames_expectMark _ _).bind fun _ => renames_expression.bind fun condition =>
      (renames_expectMark _ _).bind fun _ => ?_
    exact ih.statement.map fun _ => rfl
  refine (renames_acceptMark .leftBrace).choose ?_ renames_expressionStatement
  exact ih.block.map fun body => by rw [Stmt.rename, Stmt.renameAll_eq_map]

/-- What is read of a list, after what was read of its first element if there is one. -/
theorem map_toList_append_rename (first? : Option Stmt) (ss : List Stmt) :
    (first?.toList ++ ss).map (Stmt.rename r) =
      (first?.map (Stmt.rename r)).toList ++ ss.map (Stmt.rename r) := by
  cases first? <;> rfl

theorem statementRenames (r : Renaming) (b : Nat) : StatementRenames r b := by
  induction b with
  | zero =>
      exact ⟨.exhaust, .exhaust, .exhaust, .exhaust, fun _ => .exhaust, .exhaust, .exhaust,
        .exhaust⟩
  | succ b ih =>
      constructor
      case declaration => exact ih.declarationOrFail.recovering
      case declarationOrFail =>
        rw [declarationOrFail]
        refine (renames_acceptKeyword .classWord).choose ih.classDecl ?_
        refine (renames_acceptKeyword .funWord).choose ?_ ?_
        · exact (ih.function .function).map fun _ => rfl
        · exact (renames_acceptKeyword .varWord).choose renames_variableDeclaration ih.statement
      case classDecl =>
        rw [classWithin]
        refine (renames_expectName _).bind fun name =>
          renames_superclassClause.bind fun superclass => (renames_expectMark _ _).bind fun _ =>
            ih.methods.bind fun methods => ?_
        exact (renames_expectMark _ _).map fun _ => by
          rw [Stmt.rename, Function.renameAll_eq_map]
      case methods =>
        rw [methodsWithin]
        refine renames_atBlockEnd.choose (.pure []) ?_
        exact (ih.function .method).bind fun f => ih.methods.map fun _ => rfl
      case function =>
        intro kind
        rw [functionWithin]
        refine (renames_expectName _).bind fun name => (renames_expectMark _ _).bind fun _ =>
          renames_parameters.bind fun parameters => (renames_expectMark _ _).bind fun _ =>
            (renames_expectMark _ _).bind fun _ => ?_
        exact ih.block.map fun body => by rw [Function.rename, Stmt.renameAll_eq_map]
      case statement => exact renames_statement_step ih
      case block =>
        rw [blockWithin]
        exact ih.declarations.bind fun body => (renames_expectMark _ _).map fun _ => rfl
      case declarations =>
        rw [declarationsWithin]
        refine renames_atBlockEnd.choose (.pure []) ?_
        exact ih.declaration.bind fun first? =>
          ih.declarations.map fun ss => map_toList_append_rename first? ss

theorem renames_declaration : Renames r (Option.map (Stmt.rename r)) declaration declaration :=
  .budgeted fun b => (statementRenames r b).declaration

theorem renames_program (b : Nat) :
    Renames r (List.map (Stmt.rename r)) (programWithin b) (programWithin b) := by
  induction b with
  | zero => exact .exhaust
  | succ b ih =>
      rw [programWithin]
      refine renames_atEnd.choose (.pure []) ?_
      exact renames_declaration.bind fun first? =>
        ih.map fun ss => map_toList_append_rename first? ss

end Parser

/-- Renamed tokens are the renamed program, or have the errors at the renamed tokens. -/
theorem Program.ofTokens_rename (r : Renaming) (ts : List Token) (eof : Token) :
    ofTokens (ts.map (Token.rename r)) (eof.rename r) =
      ((ofTokens ts eof).map (List.map (Stmt.rename r))).mapError
        (List.map (ParseError.rename r)) := by
  have hstart : Cursor.start (ts.map (Token.rename r)) (eof.rename r) =
      (Cursor.start ts eof).rename r := rfl
  have hrun := Parser.renames_program (r := r) (Cursor.start ts eof).budget (.start ts eof)
  simp only [ofTokens, hstart, Cursor.rename_budget, hrun]
  cases Parser.programWithin (Cursor.start ts eof).budget (.start ts eof) with
  | ok p c =>
      cases h : c.collected.isEmpty with
      | true =>
          simp only [Parser.renameResult, Cursor.rename, List.isEmpty_map, h]
          rfl
      | false =>
          simp only [Parser.renameResult, Cursor.rename, List.isEmpty_map, h]
          rfl
  | error e c => rfl

end Lox
