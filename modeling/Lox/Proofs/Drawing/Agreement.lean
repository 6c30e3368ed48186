import Lox.Proofs.Drawing.Follow
import Lox.Proofs.Parsing.Names

set_option autoImplicit false

/-! # The parsers that draw follow those that do not

Each parser that draws identities does what its namesake does, and the identities in a tree that it
gives are drawn for it, each for one reference. The assignment that is made of a variable and a
value has a new identity, in place of that of the variable.
-/

namespace Lox

open Reference (tally tally_append tally_cons tally_singleton)

namespace Drawing

variable {k given b : Nat}

/-! ## Expressions -/

/-- What the expression parsers have in common with a budget. -/
structure ExpressionFollows (k b : Nat) : Prop where
  expression : Follows k 0 .expr (expressionWithin b) (Parser.expressionWithin b)
  level : ∀ l : Level, Follows k 0 .expr (levelWithin b l) (Parser.levelWithin b l)
  levelRest : ∀ (l : Level) {left' left : Expr} {given : Nat}, Shape.expr.Agrees left' left →
    tally k left'.references ≤ given →
    Follows k given .expr (levelRestWithin b l left') (Parser.levelRestWithin b l left)
  operand : ∀ l : Level, Follows k 0 .expr (operandWithin b l) (Parser.operandWithin b l)
  unary : Follows k 0 .expr (unaryWithin b) (Parser.unaryWithin b)
  callRest : ∀ {callee' callee : Expr} {given : Nat}, Shape.expr.Agrees callee' callee →
    tally k callee'.references ≤ given →
    Follows k given .expr (callRestWithin b callee') (Parser.callRestWithin b callee)
  arguments : Follows k 0 .exprs (argumentsWithin b) (Parser.argumentsWithin b)
  argumentList : ∀ count : Nat,
    Follows k 0 .exprs (argumentListWithin b count) (Parser.argumentListWithin b count)
  primary : Follows k 0 .expr (primaryWithin b) (Parser.primaryWithin b)

/-- The reference for which an identity was drawn. -/
theorem tally_reference_le (role : Reference.Role) (m : Name) :
    tally k [⟨role, m⟩] ≤ 0 + if m.start = k then 1 else 0 := by
  rw [Nat.zero_add]
  exact Nat.le_of_eq (tally_singleton _)

/-! The tree on the left of an equals sign decides alike for both parsers. -/

theorem variable_of_agrees {e : Expr} {name : Name} (h : Shape.expr.Agrees e (.variable name)) :
    ∃ name', e = .variable name' ∧ name'.renumber .bare = name.renumber .bare := by
  unfold Shape.Agrees Shape.expr at h
  cases e <;> simp only [Expr.erase, Expr.renumber, reduceCtorEq] at h
  exact ⟨_, rfl, Expr.variable.inj h⟩

theorem get_of_agrees {e object : Expr} {property : Name}
    (h : Shape.expr.Agrees e (.get object property)) :
    ∃ object', e = .get object' (property.renumber .bare) ∧ Shape.expr.Agrees object' object := by
  unfold Shape.Agrees Shape.expr at h
  cases e <;> simp only [Expr.erase, Expr.renumber, reduceCtorEq] at h
  obtain ⟨hobject, rfl⟩ := Expr.get.inj h
  exact ⟨_, rfl, hobject⟩

theorem follows_assignTo {target' target value' value : Expr} (equals : Token)
    (htarget : Shape.expr.Agrees target' target) (hvalue : Shape.expr.Agrees value' value)
    (hgiven : tally k target'.references + tally k value'.references ≤ given) :
    Follows k given .expr (assignTo target' value' equals)
      (Parser.assignTo target value equals) := by
  cases target with
  | «variable» name =>
      obtain ⟨name', rfl, hname⟩ := variable_of_agrees htarget
      refine .refer hname fun m hm => .pure (congrArg₂ Expr.assign hm hvalue) ?_
      have htally : Shape.expr.tally k (.assign m value') =
          tally k [⟨.assign, m⟩] + tally k value'.references := tally_cons _ _
      have hname := tally_reference_le (k := k) .assign m
      omega
  | get object property =>
      obtain ⟨object', rfl, hobject⟩ := get_of_agrees htarget
      refine .pure (congrArg₂ (Expr.set · _ ·) hobject hvalue) ?_
      exact Nat.le_trans (Nat.le_of_eq (tally_append _ _)) hgiven
  | _ =>
      have hother : assignTo target' value' equals =
          reading (Parser.report .assignmentTarget equals) >>= fun _ => pure target' := by
        unfold Shape.Agrees Shape.expr at htarget
        cases target' <;>
          first
          | rfl
          | simp only [Expr.erase, Expr.renumber, reduceCtorEq] at htarget
      rw [hother]
      exact .reading fun _ => .pure htarget (Nat.le_trans (Nat.le_add_right _ _) hgiven)

theorem follows_expression_step (ih : ExpressionFollows k b) :
    Follows k 0 .expr (expressionWithin (b + 1)) (Parser.expressionWithin (b + 1)) := by
  rw [expressionWithin, Parser.expressionWithin]
  refine (ih.level .disjunction).bind fun left' left hleft => .reading fun equals =>
    .reading fun assigns => ?_
  cases assigns with
  | true =>
      refine ih.expression.bind fun value' value hvalue => follows_assignTo equals hleft hvalue ?_
      exact Nat.le_of_eq (congrArg (· + _) (Nat.zero_add _).symm)
  | false => exact .pure hleft (Nat.le_add_left _ _)

theorem follows_level_step (ih : ExpressionFollows k b) (l : Level) :
    Follows k 0 .expr (levelWithin (b + 1) l) (Parser.levelWithin (b + 1) l) := by
  rw [levelWithin, Parser.levelWithin]
  exact (ih.operand l).bind fun left' left hleft => ih.levelRest l hleft (Nat.le_add_left _ _)

theorem agrees_join {left' left right' right : Expr} (op : InfixOp) (line : Nat)
    (hleft : Shape.expr.Agrees left' left) (hright : Shape.expr.Agrees right' right) :
    Shape.expr.Agrees (op.join line left' right') (op.join line left right) := by
  have hjoin : (op.join line left' right').erase = op.join line left'.erase right'.erase :=
    op.erase_join line left' right'
  have hbare : (op.join line left right).renumber .bare = _ :=
    op.renumber_join .bare line left right
  exact hjoin.trans ((congrArg₂ (op.join line) hleft hright).trans hbare.symm)

theorem follows_levelRest_step (ih : ExpressionFollows k b) (l : Level) {left' left : Expr}
    (hleft : Shape.expr.Agrees left' left) (hgiven : tally k left'.references ≤ given) :
    Follows k given .expr (levelRestWithin (b + 1) l left')
      (Parser.levelRestWithin (b + 1) l left) := by
  rw [levelRestWithin, Parser.levelRestWithin]
  refine .reading fun token => ?_
  cases l.operator? token.kind with
  | none => exact .pure hleft hgiven
  | some op =>
      refine .reading fun _ => (ih.operand l).bind fun right' right hright =>
        ih.levelRest l (agrees_join op token.line hleft hright) ?_
      rw [Grammar.references_join, tally_append]
      exact Nat.add_le_add_right hgiven _

theorem follows_operand_step (ih : ExpressionFollows k b) (l : Level) :
    Follows k 0 .expr (operandWithin (b + 1) l) (Parser.operandWithin (b + 1) l) := by
  rw [operandWithin, Parser.operandWithin]
  cases l.tighter? with
  | some tighter => exact ih.level tighter
  | none => exact ih.unary

theorem follows_unary_step (ih : ExpressionFollows k b) :
    Follows k 0 .expr (unaryWithin (b + 1)) (Parser.unaryWithin (b + 1)) := by
  rw [unaryWithin, Parser.unaryWithin]
  refine .reading fun token => ?_
  cases UnaryOp.ofKind? token.kind with
  | some op =>
      refine .reading fun _ => ih.unary.bind fun operand' operand hoperand => ?_
      exact .pure (congrArg (Expr.unary op token.line) hoperand) (Nat.le_add_left _ _)
  | none =>
      exact ih.primary.bind fun callee' callee hcallee => ih.callRest hcallee (Nat.le_add_left _ _)

theorem follows_callRest_step (ih : ExpressionFollows k b) {callee' callee : Expr}
    (hcallee : Shape.expr.Agrees callee' callee) (hgiven : tally k callee'.references ≤ given) :
    Follows k given .expr (callRestWithin (b + 1) callee')
      (Parser.callRestWithin (b + 1) callee) := by
  rw [callRestWithin, Parser.callRestWithin]
  refine .reading fun calls => ?_
  cases calls with
  | true =>
      refine ih.arguments.bind fun arguments' arguments harguments => .reading fun closing =>
        ih.callRest ?_ ?_
      · have hcall := congrArg₂ (Expr.call · · closing.line) hcallee harguments
        simpa [Shape.Agrees, Shape.expr, Shape.exprs, Expr.erase, Expr.renumber,
          Renumbering.bare] using hcall
      · rw [Expr.references, tally_append]
        exact Nat.add_le_add_right hgiven _
  | false =>
      refine .reading fun gets => ?_
      cases gets with
      | true =>
          exact .expectName fun property =>
            ih.callRest (congrArg (Expr.get · _) hcallee) hgiven
      | false => exact .pure hcallee hgiven

theorem follows_arguments_step (ih : ExpressionFollows k b) :
    Follows k 0 .exprs (argumentsWithin (b + 1)) (Parser.argumentsWithin (b + 1)) := by
  rw [argumentsWithin, Parser.argumentsWithin]
  refine .reading fun closes => ?_
  cases closes with
  | true => exact .pure rfl (Nat.zero_le _)
  | false => exact ih.argumentList 0

theorem follows_argumentList_step (ih : ExpressionFollows k b) (count : Nat) :
    Follows k 0 .exprs (argumentListWithin (b + 1) count)
      (Parser.argumentListWithin (b + 1) count) := by
  have hlist : Follows k 0 .exprs
      (do
        let argument ← expressionWithin b
        if ← reading (Parser.acceptMark .comma) then
          let arguments ← argumentListWithin b (count + 1)
          pure (argument :: arguments)
        else
          pure [argument])
      (do
        let argument ← Parser.expressionWithin b
        if ← Parser.acceptMark .comma then
          let arguments ← Parser.argumentListWithin b (count + 1)
          pure (argument :: arguments)
        else
          pure [argument]) := by
    refine ih.expression.bind fun argument' argument hargument => .reading fun more => ?_
    cases more with
    | true =>
        refine (ih.argumentList (count + 1)).bind fun arguments' arguments harguments =>
          .pure (congrArg₂ List.cons hargument harguments) ?_
        exact Nat.le_of_eq ((tally_append _ _).trans (congrArg (· + _) (Nat.zero_add _).symm))
    | false =>
        refine .pure (congrArg ([·]) hargument) ?_
        exact Nat.le_of_eq ((tally_append _ _).trans (Nat.zero_add _).symm)
  rw [argumentListWithin, Parser.argumentListWithin]
  split
  · exact .reading fun token => .reading fun _ => hlist
  · exact hlist

theorem follows_primary_step (ih : ExpressionFollows k b) :
    Follows k 0 .expr (primaryWithin (b + 1)) (Parser.primaryWithin (b + 1)) := by
  rw [primaryWithin, Parser.primaryWithin]
  refine .reading fun token => ?_
  cases Literal.ofKind? token.kind with
  | some value => exact .reading fun _ => .pure rfl (Nat.zero_le _)
  | none =>
      dsimp only
      cases token.kind with
      | keyword w =>
          cases w with
          | thisWord =>
              refine .reading fun _ => .refer rfl fun m hm => .pure ?_ ?_
              · exact congrArg Expr.this hm
              · exact tally_reference_le .this m
          | superWord =>
              refine .reading fun _ => .reading fun _ => .expectName fun method => .refer rfl
                fun m hm => .pure ?_ ?_
              · exact congrArg (Expr.super · _) hm
              · exact tally_reference_le .super m
          | _ => exact follows_fail _
      | identifier =>
          refine .reading fun _ => .refer rfl fun m hm => .pure ?_ ?_
          · exact congrArg Expr.variable hm
          · exact tally_reference_le .variable m
      | mark m =>
          cases m with
          | leftParen =>
              refine .reading fun _ => ih.expression.bind fun inner' inner hinner =>
                .reading fun _ => .pure ?_ (Nat.le_add_left _ _)
              exact congrArg Expr.grouping hinner
          | _ => exact follows_fail _
      | _ => exact follows_fail _

theorem expressionFollows (k b : Nat) : ExpressionFollows k b := by
  induction b with
  | zero =>
      exact ⟨.exhaust, fun _ => .exhaust, fun _ _ _ _ _ _ => .exhaust, fun _ => .exhaust, .exhaust,
        fun _ _ => .exhaust, .exhaust, fun _ => .exhaust, .exhaust⟩
  | succ b ih =>
      exact ⟨follows_expression_step ih, follows_level_step ih,
        fun l _ _ _ => follows_levelRest_step ih l, follows_operand_step ih,
        follows_unary_step ih, fun {_ _ _} => follows_callRest_step ih,
        follows_arguments_step ih, follows_argumentList_step ih, follows_primary_step ih⟩

theorem follows_expression : Follows k 0 .expr expression Parser.expression :=
  .budgeted fun b => (expressionFollows k b).expression

/-- An expression, the mark that closes it and what is made of the expression. -/
theorem follows_closed {α : Type} {t : Shape α} {make make' : Expr → α} (m : Mark)
    (cause : ParseError.Cause)
    (h : ∀ e' e, Shape.expr.Agrees e' e → t.Agrees (make' e') (make e))
    (htally : ∀ e', t.tally k (make' e') = tally k e'.references) :
    Follows k 0 t
      (expression >>= fun e => reading (Parser.expectMark m cause) >>= fun _ => pure (make' e))
      (Parser.expression >>= fun e => Parser.expectMark m cause >>= fun _ => pure (make e)) := by
  refine follows_expression.bind fun e' e he => .reading fun _ => .pure (h e' e he) ?_
  rw [htally]
  exact Nat.le_add_left _ _

/-! ## Simple statements -/

theorem follows_optionalBefore (m : Mark) (cause : ParseError.Cause) :
    Follows k 0 .maybeExpr (optionalBefore m cause) (Parser.optionalBefore m cause) := by
  rw [optionalBefore, Parser.optionalBefore]
  refine .reading fun missing => ?_
  cases missing with
  | true => exact .pure rfl (Nat.zero_le _)
  | false => exact follows_closed m cause (fun _ _ he => congrArg some he) fun _ => rfl

theorem follows_variableDeclaration :
    Follows k 0 .stmt variableDeclaration Parser.variableDeclaration := by
  rw [variableDeclaration, Parser.variableDeclaration]
  refine .expectName fun name => .reading fun assigned => ?_
  cases assigned with
  | true =>
      refine follows_expression.bind fun e' e he => .reading fun _ => .pure ?_ ?_
      · exact congrArg (fun e => Stmt.var _ (some e)) he
      · exact Nat.le_add_left _ _
  | false => exact .reading fun _ => .pure rfl (Nat.zero_le _)

theorem follows_expressionStatement :
    Follows k 0 .stmt expressionStatement Parser.expressionStatement :=
  follows_closed _ _ (fun _ _ he => congrArg Stmt.expression he) fun _ => rfl

theorem follows_printStatement : Follows k 0 .stmt printStatement Parser.printStatement :=
  follows_closed _ _ (fun _ _ he => congrArg Stmt.print he) fun _ => rfl

theorem follows_returnStatement (keyword : Name) :
    Follows k 0 .stmt (returnStatement keyword) (Parser.returnStatement keyword) := by
  rw [returnStatement, Parser.returnStatement]
  refine .reading fun bare => ?_
  cases bare with
  | true => exact .pure rfl (Nat.zero_le _)
  | false =>
      exact follows_closed _ _ (fun _ _ he => congrArg (fun e => Stmt.ret _ (some e)) he)
        fun _ => rfl

/-- A clause that is a statement. -/
theorem follows_clause {p : Drawing Stmt} {q : Parser Stmt} (h : Follows k 0 .stmt p q) :
    Follows k 0 .maybeStmt (p >>= fun s => pure (some s)) (q >>= fun s => pure (some s)) := by
  refine h.bind fun s' s hs => .pure (congrArg some hs) ?_
  exact Nat.le_of_eq ((tally_append _ _).trans (Nat.zero_add _).symm)

theorem follows_forInitial : Follows k 0 .maybeStmt forInitial Parser.forInitial := by
  rw [forInitial, Parser.forInitial]
  refine .reading fun missing => ?_
  cases missing with
  | true => exact .pure rfl (Nat.zero_le _)
  | false =>
      refine .reading fun declares => ?_
      cases declares with
      | true => exact follows_clause follows_variableDeclaration
      | false => exact follows_clause follows_expressionStatement

theorem follows_superclassClause :
    Follows k 0 .superclass superclassClause Parser.superclassClause := by
  rw [superclassClause, Parser.superclassClause]
  refine .reading fun inherits => ?_
  cases inherits with
  | true =>
      refine .reading fun name => .refer rfl fun m hm => .pure ?_ ?_
      · exact congrArg some hm
      · exact tally_reference_le .variable m
  | false => exact .pure rfl (Nat.zero_le _)

/-! ## Statements -/

/-- What the statement parsers have in common with a budget. -/
structure StatementFollows (k b : Nat) : Prop where
  declaration : Follows k 0 .maybeStmt (declarationWithin b) (Parser.declarationWithin b)
  declarationOrFail : Follows k 0 .stmt (declarationOrFail b) (Parser.declarationOrFail b)
  classDecl : Follows k 0 .stmt (classWithin b) (Parser.classWithin b)
  methods : Follows k 0 .functions (methodsWithin b) (Parser.methodsWithin b)
  function : ∀ kind : FunctionKind,
    Follows k 0 .function (functionWithin b kind) (Parser.functionWithin b kind)
  statement : Follows k 0 .stmt (statementWithin b) (Parser.statementWithin b)
  block : Follows k 0 .stmts (blockWithin b) (Parser.blockWithin b)
  declarations : Follows k 0 .stmts (declarationsWithin b) (Parser.declarationsWithin b)

theorem follows_declarationOrFail_step (ih : StatementFollows k b) :
    Follows k 0 .stmt (declarationOrFail (b + 1)) (Parser.declarationOrFail (b + 1)) := by
  rw [declarationOrFail, Parser.declarationOrFail]
  refine .reading fun isClass => ?_
  cases isClass with
  | true => exact ih.classDecl
  | false =>
      refine .reading fun isFunction => ?_
      cases isFunction with
      | true =>
          refine (ih.function .function).bind fun f' f hf => .pure ?_ (Nat.le_add_left _ _)
          exact congrArg Stmt.function hf
      | false =>
          refine .reading fun isVariable => ?_
          cases isVariable with
          | true => exact follows_variableDeclaration
          | false => exact ih.statement

theorem follows_classDecl_step (ih : StatementFollows k b) :
    Follows k 0 .stmt (classWithin (b + 1)) (Parser.classWithin (b + 1)) := by
  rw [classWithin, Parser.classWithin]
  refine .expectName fun name => follows_superclassClause.bind fun above' above habove =>
    .reading fun _ => ih.methods.bind fun methods' methods hmethods => .reading fun _ =>
      .pure ?_ ?_
  · have hclass := congrArg₂ (Stmt.classDecl (name.renumber .bare) · ·) habove hmethods
    simpa [Shape.Agrees, Shape.stmt, Shape.superclass, Shape.functions, Stmt.erase,
      Stmt.renumber] using hclass
  · exact Nat.le_of_eq ((tally_append _ _).trans (congrArg (· + _) (Nat.zero_add _).symm))

theorem follows_methods_step (ih : StatementFollows k b) :
    Follows k 0 .functions (methodsWithin (b + 1)) (Parser.methodsWithin (b + 1)) := by
  rw [methodsWithin, Parser.methodsWithin]
  refine .reading fun ends => ?_
  cases ends with
  | true => exact .pure rfl (Nat.zero_le _)
  | false =>
      refine (ih.function .method).bind fun f' f hf => ih.methods.bind fun fs' fs hfs =>
        .pure (congrArg₂ List.cons hf hfs) ?_
      exact Nat.le_of_eq ((tally_append _ _).trans (congrArg (· + _) (Nat.zero_add _).symm))

theorem follows_function_step (ih : StatementFollows k b) (kind : FunctionKind) :
    Follows k 0 .function (functionWithin (b + 1) kind) (Parser.functionWithin (b + 1) kind) := by
  rw [functionWithin, Parser.functionWithin]
  refine .expectName fun name => .reading fun _ => .parameters fun parameters =>
    .reading fun _ => .reading fun _ => ih.block.bind fun body' body hbody => .pure ?_ ?_
  · have hfunction := congrArg (Function.mk (name.renumber .bare)
      (parameters.map (Name.renumber .bare))) hbody
    simpa [Shape.Agrees, Shape.function, Shape.stmts, Function.erase, Function.renumber]
      using hfunction
  · exact Nat.le_add_left _ _

/-- A loop refers to what its clauses and its body refer to. -/
theorem tally_forLoop (initial : Option Stmt) (condition increment : Option Expr) (body : Stmt) :
    tally k (Stmt.forLoop initial condition increment body).references =
      tally k (Stmt.referencesAll initial.toList) + (tally k (Expr.referencesOf? condition) +
        (tally k (Expr.referencesOf? increment) + tally k body.references)) := by
  have htally := Reference.tally_of_perm (k := k)
    (Grammar.perm_references_forLoop initial condition increment body)
  rw [tally_append, tally_append, tally_append] at htally
  rw [htally]
  cases initial <;> cases condition <;> cases increment <;>
    simp [Grammar.Tree.references, Stmt.referencesAll, Expr.referencesOf?]

theorem agrees_forLoop {initial' initial : Option Stmt}
    {condition' condition increment' increment : Option Expr} {body' body : Stmt}
    (hinitial : Shape.maybeStmt.Agrees initial' initial)
    (hcondition : Shape.maybeExpr.Agrees condition' condition)
    (hincrement : Shape.maybeExpr.Agrees increment' increment)
    (hbody : Shape.stmt.Agrees body' body) :
    Shape.stmt.Agrees (.forLoop initial' condition' increment' body')
      (.forLoop initial condition increment body) := by
  refine (Stmt.erase_forLoop initial' condition' increment' body').trans ?_
  refine Eq.trans ?_ (Stmt.renumber_forLoop .bare initial condition increment body).symm
  simp only [Shape.Agrees, Shape.maybeStmt, Shape.maybeExpr, Shape.stmt] at *
  rw [hinitial, hcondition, hincrement, hbody]

theorem follows_forLoop (ih : StatementFollows k b) :
    Follows k 0 .stmt
      (do
        let _ ← reading (Parser.expectMark .leftParen .forClauses)
        let initial ← forInitial
        let condition ← optionalBefore .semicolon .loopConditionEnd
        let increment ← optionalBefore .rightParen .forClausesEnd
        let body ← statementWithin b
        pure (.forLoop initial condition increment body))
      (do
        let _ ← Parser.expectMark .leftParen .forClauses
        let initial ← Parser.forInitial
        let condition ← Parser.optionalBefore .semicolon .loopConditionEnd
        let increment ← Parser.optionalBefore .rightParen .forClausesEnd
        let body ← Parser.statementWithin b
        pure (.forLoop initial condition increment body)) := by
  refine .reading fun _ => follows_forInitial.bind fun initial' initial hinitial =>
    (follows_optionalBefore _ _).bind fun condition' condition hcondition =>
      (follows_optionalBefore _ _).bind fun increment' increment hincrement =>
        ih.statement.bind fun body' body hbody =>
          .pure (agrees_forLoop hinitial hcondition hincrement hbody) ?_
  have htally := tally_forLoop (k := k) initial' condition' increment' body'
  unfold Shape.tally Shape.maybeStmt Shape.maybeExpr Shape.stmt
  dsimp only
  omega

theorem follows_branch (ih : StatementFollows k b) :
    Follows k 0 .stmt
      (do
        let _ ← reading (Parser.expectMark .leftParen .ifCondition)
        let condition ← expression
        let _ ← reading (Parser.expectMark .rightParen .ifConditionEnd)
        let yes ← statementWithin b
        if ← reading (Parser.acceptKeyword .elseWord) then
          let no ← statementWithin b
          pure (.branch condition yes (some no))
        else
          pure (.branch condition yes none))
      (do
        let _ ← Parser.expectMark .leftParen .ifCondition
        let condition ← Parser.expression
        let _ ← Parser.expectMark .rightParen .ifConditionEnd
        let yes ← Parser.statementWithin b
        if ← Parser.acceptKeyword .elseWord then
          let no ← Parser.statementWithin b
          pure (.branch condition yes (some no))
        else
          pure (.branch condition yes none)) := by
  refine .reading fun _ => follows_expression.bind fun condition' condition hcondition =>
    .reading fun _ => ih.statement.bind fun yes' yes hyes => .reading fun otherwise => ?_
  cases otherwise with
  | true =>
      refine ih.statement.bind fun no' no hno => .pure ?_ ?_
      · simp only [Shape.Agrees, Shape.expr, Shape.stmt] at hcondition hyes hno ⊢
        simp only [Stmt.erase, Stmt.renumber, hcondition, hyes, hno]
      · have hbranch : Shape.stmt.tally k (.branch condition' yes' (some no')) =
            tally k (condition'.references ++ yes'.references ++ no'.references) := rfl
        rw [hbranch, tally_append, tally_append]
        exact Nat.le_of_eq (congrArg (· + _ + _) (Nat.zero_add _).symm)
  | false =>
      refine .pure (congrArg₂ (Stmt.branch · · none) hcondition hyes) ?_
      exact Nat.le_of_eq ((tally_append _ _).trans (congrArg (· + _) (Nat.zero_add _).symm))

theorem follows_loop (ih : StatementFollows k b) :
    Follows k 0 .stmt
      (do
        let _ ← reading (Parser.expectMark .leftParen .whileCondition)
        let condition ← expression
        let _ ← reading (Parser.expectMark .rightParen .whileConditionEnd)
        let body ← statementWithin b
        pure (.loop condition body))
      (do
        let _ ← Parser.expectMark .leftParen .whileCondition
        let condition ← Parser.expression
        let _ ← Parser.expectMark .rightParen .whileConditionEnd
        let body ← Parser.statementWithin b
        pure (.loop condition body)) := by
  refine .reading fun _ => follows_expression.bind fun condition' condition hcondition =>
    .reading fun _ => ih.statement.bind fun body' body hbody =>
      .pure (congrArg₂ Stmt.loop hcondition hbody) ?_
  exact Nat.le_of_eq ((tally_append _ _).trans (congrArg (· + _) (Nat.zero_add _).symm))

theorem follows_statement_step (ih : StatementFollows k b) :
    Follows k 0 .stmt (statementWithin (b + 1)) (Parser.statementWithin (b + 1)) := by
  rw [statementWithin, Parser.statementWithin]
  refine .reading fun token => .reading fun isFor => ?_
  cases isFor with
  | true => exact follows_forLoop ih
  | false =>
  refine .reading fun isIf => ?_
  cases isIf with
  | true => exact follows_branch ih
  | false =>
  refine .reading fun isPrint => ?_
  cases isPrint with
  | true => exact follows_printStatement
  | false =>
  refine .reading fun isReturn => ?_
  cases isReturn with
  | true => exact follows_returnStatement token.toName
  | false =>
  refine .reading fun isWhile => ?_
  cases isWhile with
  | true => exact follows_loop ih
  | false =>
  refine .reading fun opens => ?_
  cases opens with
  | true =>
      refine ih.block.bind fun body' body hbody => .pure ?_ (Nat.le_add_left _ _)
      have hblock := congrArg Stmt.block hbody
      simpa [Shape.Agrees, Shape.stmt, Shape.stmts, Stmt.erase, Stmt.renumber] using hblock
  | false => exact follows_expressionStatement

theorem tally_declarations (first? : Option Stmt) (rest : List Stmt) :
    tally k (Stmt.referencesAll (first?.toList ++ rest)) =
      tally k (Stmt.referencesAll first?.toList) + tally k (Stmt.referencesAll rest) := by
  cases first? with
  | none => exact (Nat.zero_add _).symm
  | some s => simp [Stmt.referencesAll]

/-- One declaration after another. -/
theorem follows_declarations {p : Drawing (Option Stmt)} {q : Parser (Option Stmt)}
    {ps : Drawing (List Stmt)} {qs : Parser (List Stmt)} (hp : Follows k 0 .maybeStmt p q)
    (hps : Follows k 0 .stmts ps qs) :
    Follows k 0 .stmts (p >>= fun first? => ps >>= fun rest => pure (first?.toList ++ rest))
      (q >>= fun first? => qs >>= fun rest => pure (first?.toList ++ rest)) := by
  refine hp.bind fun first?' first? hfirst => hps.bind fun rest' rest hrest => .pure ?_ ?_
  · simp only [Shape.Agrees, Shape.stmts, Shape.maybeStmt] at hfirst hrest ⊢
    rw [List.map_append, List.map_append, hrest, ← Option.toList_map, ← Option.toList_map, hfirst]
  · have htally := tally_declarations (k := k) first?' rest'
    unfold Shape.tally Shape.stmts Shape.maybeStmt
    dsimp only
    omega

theorem follows_declarations_step (ih : StatementFollows k b) :
    Follows k 0 .stmts (declarationsWithin (b + 1)) (Parser.declarationsWithin (b + 1)) := by
  rw [declarationsWithin, Parser.declarationsWithin]
  refine .reading fun ends => ?_
  cases ends with
  | true => exact .pure rfl (Nat.zero_le _)
  | false => exact follows_declarations ih.declaration ih.declarations

theorem statementFollows (k b : Nat) : StatementFollows k b := by
  induction b with
  | zero =>
      exact ⟨.exhaust, .exhaust, .exhaust, .exhaust, fun _ => .exhaust, .exhaust, .exhaust,
        .exhaust⟩
  | succ b ih =>
      constructor
      case declaration => exact ih.declarationOrFail.recovering
      case declarationOrFail => exact follows_declarationOrFail_step ih
      case classDecl => exact follows_classDecl_step ih
      case methods => exact follows_methods_step ih
      case function => exact follows_function_step ih
      case statement => exact follows_statement_step ih
      case block =>
        rw [blockWithin, Parser.blockWithin]
        refine ih.declarations.bind fun body' body hbody => .reading fun _ => .pure hbody ?_
        exact Nat.le_add_left _ _
      case declarations => exact follows_declarations_step ih

theorem follows_declaration : Follows k 0 .maybeStmt declaration Parser.declaration :=
  .budgeted fun b => (statementFollows k b).declaration

theorem follows_program (b : Nat) :
    Follows k 0 .stmts (programWithin b) (Parser.programWithin b) := by
  induction b with
  | zero => exact .exhaust
  | succ b ih =>
      rw [programWithin, Parser.programWithin]
      refine .reading fun ends => ?_
      cases ends with
      | true => exact .pure rfl (Nat.zero_le _)
      | false => exact follows_declarations follows_declaration ih

end Drawing

end Lox
