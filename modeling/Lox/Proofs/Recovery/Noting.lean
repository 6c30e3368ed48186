import Lox.Proofs.Parsing.Yield

set_option autoImplicit false

/-! # Errors noted before

A parser adds errors to those that were noted before it started, and never looks at them. So a run
after some errors is the run without them, with these errors first (`Parser.NotesOnly`).
-/

namespace Lox

namespace Cursor

variable (es : List ParseError) (c : Cursor)

/-- The cursor with errors noted before all others. -/
def noting : Cursor := ⟨c.ahead, c.eof, es ++ c.collected⟩

@[simp] theorem isAtMark_noting (m : Mark) : (c.noting es).isAtMark m = c.isAtMark m := rfl

theorem collect_noting (e : ParseError) : (c.noting es).collect e = (c.collect e).noting es := by
  unfold collect noting
  rw [List.append_assoc]

theorem synchronize_noting : (c.noting es).synchronize = c.synchronize.noting es := by
  obtain ⟨ahead, eof, collected⟩ := c
  cases ahead <;> rfl

end Cursor

namespace Parser

/-- What a parser comes to, with errors noted before all others. -/
def notingResult {α : Type} (es : List ParseError) :
    EStateM.Result Failure Cursor α → EStateM.Result Failure Cursor α
  | .ok a c => .ok a (c.noting es)
  | .error e c => .error e (c.noting es)

/-- Errors that were noted before make no difference, but that they are noted. -/
def NotesOnly {α : Type} (p : Parser α) : Prop :=
  ∀ es c, p (c.noting es) = notingResult es (p c)

variable {α β : Type} {p : Parser α} {q : α → Parser β}

/-! ## Rules -/

theorem notesOnly_pure (a : α) : (pure a : Parser α).NotesOnly := fun _ _ => rfl

theorem notesOnly_exhaust : (exhaust : Parser α).NotesOnly := fun _ _ => rfl

theorem notesOnly_fail (cause : ParseError.Cause) : (fail cause : Parser α).NotesOnly :=
  fun _ _ => rfl

/-- One parser after another. -/
theorem NotesOnly.bind (hp : p.NotesOnly) (hq : ∀ a, (q a).NotesOnly) : (p >>= q).NotesOnly := by
  intro es c
  have hrun := hp es c
  cases hresult : p c with
  | ok a c₁ =>
      rw [hresult] at hrun
      rw [bind_of_ok hresult, bind_of_ok hrun]
      exact hq a es c₁
  | error e c₁ =>
      rw [hresult] at hrun
      rw [bind_of_error hresult, bind_of_error hrun]
      rfl

theorem NotesOnly.map (hp : p.NotesOnly) (f : α → β) :
    (p >>= fun a => Pure.pure (f a)).NotesOnly :=
  hp.bind fun a => notesOnly_pure (f a)

/-- A parser that is chosen by an answer. -/
theorem NotesOnly.choose {d : Parser Bool} {yes no : Parser β} (hd : d.NotesOnly)
    (hyes : yes.NotesOnly) (hno : no.NotesOnly) :
    (d >>= fun b => if b = true then yes else no).NotesOnly := by
  apply hd.bind
  intro b
  cases b with
  | true => exact hyes
  | false => exact hno

/-- A parser that runs with the budget that its tokens call for. -/
theorem NotesOnly.budgeted {run : Nat → Parser α} (h : ∀ b, (run b).NotesOnly) :
    NotesOnly fun c => run c.budget c :=
  fun es c => h c.budget es c

theorem NotesOnly.recovering (hp : p.NotesOnly) : (recovering p).NotesOnly := by
  intro es c
  have hrun := hp es c
  unfold Parser.recovering
  rw [hrun]
  cases p c with
  | ok a c₁ => rfl
  | error e c₁ =>
      cases e with
      | failed e =>
          show EStateM.Result.ok none ((c₁.noting es).collect e).synchronize = _
          rw [Cursor.collect_noting, Cursor.synchronize_noting]
          rfl
      | exhausted => rfl

/-! ## Primitive parsers -/

theorem notesOnly_peek : peek.NotesOnly := fun _ _ => rfl

theorem notesOnly_advance : advance.NotesOnly := fun _ _ => rfl

theorem notesOnly_checkMark (m : Mark) : (checkMark m).NotesOnly := fun _ _ => rfl

theorem notesOnly_atBlockEnd : atBlockEnd.NotesOnly := fun _ _ => rfl

theorem notesOnly_atEnd : atEnd.NotesOnly := fun _ _ => rfl

theorem notesOnly_acceptMark (m : Mark) : (acceptMark m).NotesOnly := by
  intro es c
  unfold acceptMark
  rw [Cursor.isAtMark_noting]
  split <;> rfl

theorem notesOnly_acceptKeyword (w : Keyword) : (acceptKeyword w).NotesOnly := by
  intro es c
  obtain ⟨ahead, eof, collected⟩ := c
  cases ahead with
  | nil => rfl
  | cons t ts =>
      simp only [acceptKeyword, Cursor.noting]
      split <;> rfl

theorem notesOnly_expectMark (m : Mark) (cause : ParseError.Cause) :
    (expectMark m cause).NotesOnly := by
  intro es c
  unfold expectMark
  rw [Cursor.isAtMark_noting]
  split <;> rfl

theorem notesOnly_expectName (cause : ParseError.Cause) : (expectName cause).NotesOnly := by
  intro es c
  obtain ⟨ahead, eof, collected⟩ := c
  cases ahead with
  | nil => rfl
  | cons t ts =>
      obtain ⟨kind, text, line, start⟩ := t
      cases kind <;> rfl

theorem notesOnly_report (cause : ParseError.Cause) (token : Token) :
    (report cause token).NotesOnly := by
  intro es c
  unfold report
  rw [Cursor.collect_noting]
  rfl

/-- A list of one or more, of which too many are reported. -/
theorem notesOnly_reported {list : Parser α} (hlist : list.NotesOnly) (count : Nat)
    (cause : ParseError.Cause) :
    NotesOnly
      (if maxArguments ≤ count then do
        let token ← peek
        report cause token
        list
      else list) := by
  split
  · exact notesOnly_peek.bind fun token => (notesOnly_report cause token).bind fun _ => hlist
  · exact hlist

/-! ## Expressions -/

/-- The expression parsers with a budget. -/
structure ExpressionNotes (b : Nat) : Prop where
  expression : (expressionWithin b).NotesOnly
  level : ∀ l : Level, (levelWithin b l).NotesOnly
  levelRest : ∀ (l : Level) (left : Expr), (levelRestWithin b l left).NotesOnly
  operand : ∀ l : Level, (operandWithin b l).NotesOnly
  unary : (unaryWithin b).NotesOnly
  callRest : ∀ callee : Expr, (callRestWithin b callee).NotesOnly
  arguments : (argumentsWithin b).NotesOnly
  argumentList : ∀ count : Nat, (argumentListWithin b count).NotesOnly
  primary : (primaryWithin b).NotesOnly

theorem notesOnly_assignTo (left value : Expr) (equals : Token) :
    (assignTo left value equals).NotesOnly := by
  unfold assignTo
  split
  · exact notesOnly_pure _
  · exact notesOnly_pure _
  · exact (notesOnly_report _ _).bind fun _ => notesOnly_pure _

theorem notesOnly_primary {b : Nat} (ih : ExpressionNotes b) :
    (primaryWithin (b + 1)).NotesOnly := by
  rw [primaryWithin]
  apply notesOnly_peek.bind
  intro token
  cases Literal.ofKind? token.kind with
  | some value => exact notesOnly_advance.map _
  | none =>
      dsimp only
      split
      · exact notesOnly_advance.map _
      · refine notesOnly_advance.bind fun _ => (notesOnly_expectMark _ _).bind fun _ => ?_
        exact (notesOnly_expectName _).map _
      · exact notesOnly_advance.map _
      · refine notesOnly_advance.bind fun _ => ih.expression.bind fun inner => ?_
        exact (notesOnly_expectMark _ _).map _
      · exact notesOnly_fail _

theorem expressionNotes (b : Nat) : ExpressionNotes b := by
  induction b with
  | zero => constructor <;> intros <;> exact notesOnly_exhaust
  | succ b ih =>
      constructor
      case expression =>
        rw [expressionWithin]
        refine (ih.level .disjunction).bind fun left => notesOnly_peek.bind fun equals => ?_
        refine (notesOnly_acceptMark .equal).choose ?_ (notesOnly_pure left)
        exact ih.expression.bind fun value => notesOnly_assignTo left value equals
      case level =>
        intro l
        rw [levelWithin]
        exact (ih.operand l).bind fun left => ih.levelRest l left
      case levelRest =>
        intro l left
        rw [levelRestWithin]
        apply notesOnly_peek.bind
        intro token
        cases l.operator? token.kind with
        | none => exact notesOnly_pure left
        | some op =>
            exact notesOnly_advance.bind fun _ =>
              (ih.operand l).bind fun right => ih.levelRest l _
      case operand =>
        intro l
        rw [operandWithin]
        cases l.tighter? with
        | some tighter => exact ih.level tighter
        | none => exact ih.unary
      case unary =>
        rw [unaryWithin]
        apply notesOnly_peek.bind
        intro token
        cases UnaryOp.ofKind? token.kind with
        | some op => exact notesOnly_advance.bind fun _ => ih.unary.map _
        | none => exact ih.primary.bind fun callee => ih.callRest callee
      case callRest =>
        intro callee
        rw [callRestWithin]
        refine (notesOnly_acceptMark .leftParen).choose ?_
          ((notesOnly_acceptMark .dot).choose ?_ (notesOnly_pure callee))
        · exact ih.arguments.bind fun arguments =>
            (notesOnly_expectMark _ _).bind fun closing => ih.callRest _
        · exact (notesOnly_expectName _).bind fun property => ih.callRest _
      case arguments =>
        rw [argumentsWithin]
        exact (notesOnly_checkMark _).choose (notesOnly_pure []) (ih.argumentList 0)
      case argumentList =>
        intro count
        rw [argumentListWithin]
        apply notesOnly_reported
        apply ih.expression.bind
        intro argument
        refine (notesOnly_acceptMark .comma).choose ?_ (notesOnly_pure [argument])
        exact (ih.argumentList (count + 1)).map _
      case primary => exact notesOnly_primary ih

theorem notesOnly_expression : expression.NotesOnly :=
  .budgeted fun b => (expressionNotes b).expression

/-! ## Statements -/

theorem notesOnly_parameterList (b count : Nat) : (parameterListWithin b count).NotesOnly := by
  induction b generalizing count with
  | zero => exact notesOnly_exhaust
  | succ b ih =>
      rw [parameterListWithin]
      apply notesOnly_reported
      apply (notesOnly_expectName _).bind
      intro parameter
      refine (notesOnly_acceptMark .comma).choose ?_ (notesOnly_pure [parameter])
      exact (ih (count + 1)).map _

theorem notesOnly_parameters : parameters.NotesOnly := by
  have hlist : ∀ b, (parameterListWithin b 0).NotesOnly := fun b => notesOnly_parameterList b 0
  rw [parameters]
  exact (notesOnly_checkMark _).choose (notesOnly_pure []) (.budgeted hlist)

theorem notesOnly_optionalBefore (m : Mark) (cause : ParseError.Cause) :
    (optionalBefore m cause).NotesOnly := by
  rw [optionalBefore]
  refine (notesOnly_acceptMark m).choose (notesOnly_pure none) ?_
  exact notesOnly_expression.bind fun e => (notesOnly_expectMark _ _).map _

theorem notesOnly_variableDeclaration : variableDeclaration.NotesOnly := by
  rw [variableDeclaration]
  refine (notesOnly_expectName _).bind fun name => (notesOnly_acceptMark .equal).choose ?_ ?_
  · exact notesOnly_expression.bind fun e => (notesOnly_expectMark _ _).map _
  · exact (notesOnly_expectMark _ _).map _

theorem notesOnly_expressionStatement : expressionStatement.NotesOnly := by
  rw [expressionStatement]
  exact notesOnly_expression.bind fun e => (notesOnly_expectMark _ _).map _

theorem notesOnly_printStatement : printStatement.NotesOnly := by
  rw [printStatement]
  exact notesOnly_expression.bind fun e => (notesOnly_expectMark _ _).map _

theorem notesOnly_returnStatement (keyword : Name) : (returnStatement keyword).NotesOnly := by
  rw [returnStatement]
  refine (notesOnly_acceptMark .semicolon).choose (notesOnly_pure _) ?_
  exact notesOnly_expression.bind fun e => (notesOnly_expectMark _ _).map _

theorem notesOnly_forInitial : forInitial.NotesOnly := by
  rw [forInitial]
  refine (notesOnly_acceptMark .semicolon).choose (notesOnly_pure none) ?_
  refine (notesOnly_acceptKeyword .varWord).choose ?_ ?_
  · exact notesOnly_variableDeclaration.map _
  · exact notesOnly_expressionStatement.map _

theorem notesOnly_superclassClause : superclassClause.NotesOnly := by
  rw [superclassClause]
  refine (notesOnly_acceptMark .less).choose ?_ (notesOnly_pure none)
  exact (notesOnly_expectName _).map _

/-- The statement parsers with a budget. -/
structure StatementNotes (b : Nat) : Prop where
  declaration : (declarationWithin b).NotesOnly
  declarationOrFail : (declarationOrFail b).NotesOnly
  classDecl : (classWithin b).NotesOnly
  methods : (methodsWithin b).NotesOnly
  function : ∀ kind : FunctionKind, (functionWithin b kind).NotesOnly
  statement : (statementWithin b).NotesOnly
  block : (blockWithin b).NotesOnly
  declarations : (declarationsWithin b).NotesOnly

theorem notesOnly_statement {b : Nat} (ih : StatementNotes b) :
    (statementWithin (b + 1)).NotesOnly := by
  rw [statementWithin]
  apply notesOnly_peek.bind
  intro token
  refine (notesOnly_acceptKeyword .forWord).choose ?_ ?_
  · exact (notesOnly_expectMark _ _).bind fun _ => notesOnly_forInitial.bind fun initial =>
      (notesOnly_optionalBefore _ _).bind fun condition =>
        (notesOnly_optionalBefore _ _).bind fun increment => ih.statement.map _
  refine (notesOnly_acceptKeyword .ifWord).choose ?_ ?_
  · refine (notesOnly_expectMark _ _).bind fun _ => notesOnly_expression.bind fun condition =>
      (notesOnly_expectMark _ _).bind fun _ => ih.statement.bind fun yes => ?_
    exact (notesOnly_acceptKeyword .elseWord).choose (ih.statement.map _) (notesOnly_pure _)
  refine (notesOnly_acceptKeyword .printWord).choose notesOnly_printStatement ?_
  refine (notesOnly_acceptKeyword .returnWord).choose (notesOnly_returnStatement _) ?_
  refine (notesOnly_acceptKeyword .whileWord).choose ?_ ?_
  · exact (notesOnly_expectMark _ _).bind fun _ => notesOnly_expression.bind fun condition =>
      (notesOnly_expectMark _ _).bind fun _ => ih.statement.map _
  exact (notesOnly_acceptMark .leftBrace).choose (ih.block.map _) notesOnly_expressionStatement

theorem statementNotes (b : Nat) : StatementNotes b := by
  induction b with
  | zero => constructor <;> intros <;> exact notesOnly_exhaust
  | succ b ih =>
      constructor
      case declaration => exact ih.declarationOrFail.recovering
      case declarationOrFail =>
        rw [declarationOrFail]
        refine (notesOnly_acceptKeyword .classWord).choose ih.classDecl ?_
        refine (notesOnly_acceptKeyword .funWord).choose ((ih.function .function).map _) ?_
        exact (notesOnly_acceptKeyword .varWord).choose notesOnly_variableDeclaration ih.statement
      case classDecl =>
        rw [classWithin]
        exact (notesOnly_expectName _).bind fun name =>
          notesOnly_superclassClause.bind fun superclass => (notesOnly_expectMark _ _).bind fun _ =>
            ih.methods.bind fun methods => (notesOnly_expectMark _ _).map _
      case methods =>
        rw [methodsWithin]
        refine notesOnly_atBlockEnd.choose (notesOnly_pure []) ?_
        exact (ih.function .method).bind fun f => ih.methods.map _
      case function =>
        intro kind
        rw [functionWithin]
        exact (notesOnly_expectName _).bind fun name => (notesOnly_expectMark _ _).bind fun _ =>
          notesOnly_parameters.bind fun parameters => (notesOnly_expectMark _ _).bind fun _ =>
            (notesOnly_expectMark _ _).bind fun _ => ih.block.map _
      case statement => exact notesOnly_statement ih
      case block =>
        rw [blockWithin]
        exact ih.declarations.bind fun body => (notesOnly_expectMark _ _).map _
      case declarations =>
        rw [declarationsWithin]
        refine notesOnly_atBlockEnd.choose (notesOnly_pure []) ?_
        exact ih.declaration.bind fun first? => ih.declarations.map _

theorem notesOnly_declaration : declaration.NotesOnly :=
  .budgeted fun b => (statementNotes b).declaration

/-- A program is read as it would be without the errors that were noted before. -/
theorem notesOnly_program (b : Nat) : (programWithin b).NotesOnly := by
  induction b with
  | zero => exact notesOnly_exhaust
  | succ b ih =>
      rw [programWithin]
      refine notesOnly_atEnd.choose (notesOnly_pure []) ?_
      exact notesOnly_declaration.bind fun first? => ih.map _

end Parser

end Lox
