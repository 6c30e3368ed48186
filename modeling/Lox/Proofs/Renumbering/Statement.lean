import Lox.Proofs.Renumbering.Expression

set_option autoImplicit false

/-! # Statement parsers on renumbered tokens

A statement ends with a semicolon or a brace, or with a statement. So the tokens that come after it
change nothing, but for an `else` that could belong to it.
-/

namespace Lox.Parser

variable {r : Renumbering} {rest : Option (List Token)} {k b : Nat}

/-! ## Simple statements -/

theorem follows_parameterList (b k count : Nat) :
    Follows r rest .looks (List.map (Name.renumber r)) (parameterListWithin b count)
      (parameterListWithin (b + k) count) := by
  induction b generalizing count with
  | zero => exact .exhaust
  | succ b ih =>
      have hlist : Follows r rest .looks (List.map (Name.renumber r))
          (do
            let parameter ← expectName .parameterName
            if ← acceptMark .comma then
              let parameters ← parameterListWithin b (count + 1)
              pure (parameter :: parameters)
            else
              pure [parameter] : Parser (List Name))
          (do
            let parameter ← expectName .parameterName
            if ← acceptMark .comma then
              let parameters ← parameterListWithin (b + k) (count + 1)
              pure (parameter :: parameters)
            else
              pure [parameter]) := by
        refine (follows_expectName _).bind fun parameter => ?_
        refine (asks_acceptMark .comma).chooseLooks ?_ (Follows.pure [parameter]).looks
        exact (ih (count + 1)).map fun _ => rfl
      rw [Nat.add_right_comm, parameterListWithin, parameterListWithin]
      split
      · exact follows_peek.bind fun token => (follows_report _ token).bind fun _ => hlist
      · exact hlist

theorem follows_parameters :
    Follows r rest .looks (List.map (Name.renumber r)) parameters parameters := by
  rw [parameters]
  refine (follows_checkMark _).bind fun closes => ?_
  cases closes with
  | true => exact (Follows.pure []).looks
  | false =>
      exact .budgeted (parameterListWithin · 0) (parameterListWithin · 0) fun b k =>
        follows_parameterList b k 0

theorem follows_variableDeclaration :
    Follows r rest .consumes (Stmt.renumber r) variableDeclaration variableDeclaration := by
  rw [variableDeclaration]
  refine (follows_expectName _).bindConsumes fun name => ?_
  have hend : ∀ initial : Option Expr, Follows r rest .consumes (Stmt.renumber r)
      (do
        let _ ← expectMark .semicolon .variableEnd
        pure (.var name initial))
      (do
        let _ ← expectMark .semicolon .variableEnd
        pure (.var (name.renumber r) (initial.map (Expr.renumber r)))) :=
    fun initial => (follows_expectMark _ _).map fun _ => rfl
  have hpure : ∀ initial : Option Expr, Follows r rest .consumes (Stmt.renumber r)
      (pure initial >>= fun initial => do
        let _ ← expectMark .semicolon .variableEnd
        pure (.var name initial))
      (pure (initial.map (Expr.renumber r)) >>= fun initial => do
        let _ ← expectMark .semicolon .variableEnd
        pure (.var (name.renumber r) initial)) :=
    fun initial => (Follows.pure initial).bindConsumes hend
  refine (asks_acceptMark .equal).chooseConsumes ?_ (hpure none)
  exact (follows_expression.bindConsumes fun e => hpure (some e)).stops

theorem follows_expressionStatement :
    Follows r rest .consumes (Stmt.renumber r) expressionStatement expressionStatement := by
  rw [expressionStatement]
  exact follows_expression.bindConsumes fun e => (follows_expectMark _ _).map fun _ => rfl

theorem follows_printStatement :
    Follows r rest .consumes (Stmt.renumber r) printStatement printStatement := by
  rw [printStatement]
  exact follows_expression.bindConsumes fun e => (follows_expectMark _ _).map fun _ => rfl

theorem follows_returnStatement (keyword : Name) :
    Follows r rest .consumes (Stmt.renumber r) (returnStatement keyword)
      (returnStatement (keyword.renumber r)) := by
  rw [returnStatement, returnStatement]
  refine (asks_acceptMark .semicolon).chooseConsumes (Follows.pure (Stmt.ret keyword none)) ?_
  exact follows_expression.bindConsumes fun e => (follows_expectMark _ _).map fun _ => rfl

theorem follows_forInitial :
    Follows r rest .looks (Option.map (Stmt.renumber r)) forInitial forInitial := by
  rw [forInitial]
  refine (asks_acceptMark .semicolon).chooseLooks (Follows.pure none).looks ?_
  refine (asks_acceptKeyword .varWord).chooseLooks ?_ ?_
  · exact follows_variableDeclaration.looks.map fun _ => rfl
  · exact follows_expressionStatement.looks.map fun _ => rfl

theorem follows_optionalBefore (m : Mark) (cause : ParseError.Cause) :
    Follows r rest .looks (Option.map (Expr.renumber r)) (optionalBefore m cause)
      (optionalBefore m cause) := by
  rw [optionalBefore]
  refine (asks_acceptMark m).chooseLooks (Follows.pure none).looks ?_
  exact follows_expression.bind fun e => (follows_expectMark _ _).looks.map fun _ => rfl

theorem follows_superclassClause :
    Follows r rest .looks (Option.map (Name.renumber r)) superclassClause superclassClause := by
  rw [superclassClause]
  refine (asks_acceptMark .less).chooseLooks ?_ (Follows.pure none).looks
  exact (follows_expectName _).looks.map fun _ => rfl

/-! ## Statements and declarations -/

/-- What the statement parsers do with a budget and with a larger one. -/
structure StatementFollows (r : Renumbering) (rest : Option (List Token)) (k b : Nat) : Prop where
  declaration : Follows r rest .consumes (Option.map (Stmt.renumber r)) (declarationWithin b)
    (declarationWithin (b + k))
  declarationOrFail : Follows r rest .consumes (Stmt.renumber r) (declarationOrFail b)
    (declarationOrFail (b + k))
  classDecl : Follows r rest .consumes (Stmt.renumber r) (classWithin b) (classWithin (b + k))
  methods : Follows r rest .looks (List.map (Function.renumber r)) (methodsWithin b)
    (methodsWithin (b + k))
  function : ∀ kind : FunctionKind,
    Follows r rest .consumes (Function.renumber r) (functionWithin b kind)
      (functionWithin (b + k) kind)
  statement : Follows r rest .consumes (Stmt.renumber r) (statementWithin b)
    (statementWithin (b + k))
  block : Follows r rest .consumes (List.map (Stmt.renumber r)) (blockWithin b)
    (blockWithin (b + k))
  declarations : Follows r rest .looks (List.map (Stmt.renumber r)) (declarationsWithin b)
    (declarationsWithin (b + k))

theorem follows_declarationOrFail_step (ih : StatementFollows r rest k b) :
    Follows r rest .consumes (Stmt.renumber r) (declarationOrFail (b + 1))
      (declarationOrFail (b + k + 1)) := by
  rw [declarationOrFail, declarationOrFail]
  refine (asks_acceptKeyword .classWord).chooseConsumes ih.classDecl.stops ?_
  refine (asks_acceptKeyword .funWord).chooseConsumes ?_ ?_
  · exact (ih.function .function).stops.map fun _ => rfl
  · exact (asks_acceptKeyword .varWord).chooseConsumes follows_variableDeclaration.stops
      ih.statement

theorem follows_classDecl_step (ih : StatementFollows r rest k b) :
    Follows r rest .consumes (Stmt.renumber r) (classWithin (b + 1)) (classWithin (b + k + 1)) := by
  rw [classWithin, classWithin]
  refine (follows_expectName _).bindConsumes fun name =>
    follows_superclassClause.bindConsumes fun superclass =>
      (follows_expectMark _ _).bindConsumes fun _ => ih.methods.bindConsumes fun methods => ?_
  exact (follows_expectMark _ _).map fun _ => by rw [Stmt.renumber, Function.renumberAll_eq_map]

theorem follows_methods_step (ih : StatementFollows r rest k b) :
    Follows r rest .looks (List.map (Function.renumber r)) (methodsWithin (b + 1))
      (methodsWithin (b + k + 1)) := by
  rw [methodsWithin, methodsWithin]
  refine follows_atBlockEnd.bind fun ends => ?_
  cases ends with
  | true => exact (Follows.pure []).looks
  | false => exact (ih.function .method).bind fun f => ih.methods.map fun _ => rfl

theorem follows_function_step (ih : StatementFollows r rest k b) (kind : FunctionKind) :
    Follows r rest .consumes (Function.renumber r) (functionWithin (b + 1) kind)
      (functionWithin (b + k + 1) kind) := by
  rw [functionWithin, functionWithin]
  refine (follows_expectName _).bindConsumes fun name =>
    (follows_expectMark _ _).bindConsumes fun _ =>
      follows_parameters.bindConsumes fun parameters =>
        (follows_expectMark _ _).bindConsumes fun _ =>
          (follows_expectMark _ _).bindConsumes fun _ => ?_
  exact ih.block.map fun body => by rw [Function.renumber, Stmt.renumberAll_eq_map]

theorem follows_for_step (ih : StatementFollows r rest k b) :
    Follows r rest .consumes (Stmt.renumber r)
      (do
        let _ ← expectMark .leftParen .forClauses
        let initial ← forInitial
        let condition ← optionalBefore .semicolon .loopConditionEnd
        let increment ← optionalBefore .rightParen .forClausesEnd
        let body ← statementWithin b
        pure (.forLoop initial condition increment body))
      (do
        let _ ← expectMark .leftParen .forClauses
        let initial ← forInitial
        let condition ← optionalBefore .semicolon .loopConditionEnd
        let increment ← optionalBefore .rightParen .forClausesEnd
        let body ← statementWithin (b + k)
        pure (.forLoop initial condition increment body)) := by
  refine (follows_expectMark _ _).bindConsumes fun _ =>
    follows_forInitial.bindConsumes fun initial =>
      (follows_optionalBefore _ _).bindConsumes fun condition =>
        (follows_optionalBefore _ _).bindConsumes fun increment => ?_
  exact ih.statement.map fun body => Stmt.renumber_forLoop r initial condition increment body

/-- A conditional ends where its last statement ends, if no `else` comes after it. -/
theorem follows_if_step (ih : StatementFollows r rest k b)
    (hrest : nextKind (rest.getD []) ≠ .keyword .elseWord) :
    Follows r rest .consumes (Stmt.renumber r)
      (do
        let _ ← expectMark .leftParen .ifCondition
        let condition ← expression
        let _ ← expectMark .rightParen .ifConditionEnd
        let yes ← statementWithin b
        if ← acceptKeyword .elseWord then
          let no ← statementWithin b
          pure (.branch condition yes (some no))
        else
          pure (.branch condition yes none))
      (do
        let _ ← expectMark .leftParen .ifCondition
        let condition ← expression
        let _ ← expectMark .rightParen .ifConditionEnd
        let yes ← statementWithin (b + k)
        if ← acceptKeyword .elseWord then
          let no ← statementWithin (b + k)
          pure (.branch condition yes (some no))
        else
          pure (.branch condition yes none)) := by
  refine (follows_expectMark _ _).bindConsumes fun _ => follows_expression.bindConsumes fun
    condition => (follows_expectMark _ _).bindConsumes fun _ => ih.statement.bindStops fun yes => ?_
  refine (asks_acceptKeyword .elseWord).choose ?_ (Follows.pure (Stmt.branch condition yes none))
    fun _ => ?_
  · exact ih.statement.stops.map fun no => rfl
  · exact Bool.eq_false_iff.2 fun h => hrest (Token.Kind.isKeyword_iff.1 h)

theorem follows_statement_step (ih : StatementFollows r rest k b)
    (hrest : nextKind (rest.getD []) ≠ .keyword .elseWord) :
    Follows r rest .consumes (Stmt.renumber r) (statementWithin (b + 1))
      (statementWithin (b + k + 1)) := by
  rw [statementWithin, statementWithin]
  refine follows_peek.bindConsumes fun token => ?_
  refine (asks_acceptKeyword .forWord).chooseConsumes (follows_for_step ih).stops ?_
  refine (asks_acceptKeyword .ifWord).chooseConsumes (follows_if_step ih hrest).stops ?_
  refine (asks_acceptKeyword .printWord).chooseConsumes follows_printStatement.stops ?_
  refine (asks_acceptKeyword .returnWord).chooseConsumes
    (follows_returnStatement token.toName).stops ?_
  refine (asks_acceptKeyword .whileWord).chooseConsumes ?_ ?_
  · refine Follows.stops ((follows_expectMark _ _).bindConsumes fun _ =>
      follows_expression.bindConsumes fun condition =>
        (follows_expectMark _ _).bindConsumes fun _ => ?_)
    exact ih.statement.map fun _ => rfl
  · refine (asks_acceptMark .leftBrace).chooseConsumes ?_ follows_expressionStatement
    exact ih.block.stops.map fun body => by rw [Stmt.renumber, Stmt.renumberAll_eq_map]

theorem follows_block_step (ih : StatementFollows r rest k b) :
    Follows r rest .consumes (List.map (Stmt.renumber r)) (blockWithin (b + 1))
      (blockWithin (b + k + 1)) := by
  rw [blockWithin, blockWithin]
  exact ih.declarations.bindConsumes fun body => (follows_expectMark _ _).map fun _ => rfl

theorem map_toList_append (f : Stmt → Stmt) (first? : Option Stmt) (ss : List Stmt) :
    (first?.toList ++ ss).map f = (first?.map f).toList ++ ss.map f := by
  cases first? <;> rfl

theorem follows_declarations_step (ih : StatementFollows r rest k b) :
    Follows r rest .looks (List.map (Stmt.renumber r)) (declarationsWithin (b + 1))
      (declarationsWithin (b + k + 1)) := by
  rw [declarationsWithin, declarationsWithin]
  refine follows_atBlockEnd.bind fun ends => ?_
  cases ends with
  | true => exact (Follows.pure []).looks
  | false =>
      refine ih.declaration.bind fun first? => ?_
      exact ih.declarations.map fun ss => map_toList_append _ first? ss

theorem statementFollows (hrest : nextKind (rest.getD []) ≠ .keyword .elseWord) (k b : Nat) :
    StatementFollows r rest k b := by
  induction b with
  | zero =>
      exact ⟨.exhaust, .exhaust, .exhaust, .exhaust, fun _ => .exhaust, .exhaust, .exhaust,
        .exhaust⟩
  | succ b ih =>
      have hk : b + 1 + k = b + k + 1 := Nat.add_right_comm b 1 k
      constructor <;> rw [hk]
      · exact ih.declarationOrFail.recovering
      · exact follows_declarationOrFail_step ih
      · exact follows_classDecl_step ih
      · exact follows_methods_step ih
      · exact follows_function_step ih
      · exact follows_statement_step ih hrest
      · exact follows_block_step ih
      · exact follows_declarations_step ih

/-- A declaration or statement. -/
theorem follows_declaration (hrest : nextKind (rest.getD []) ≠ .keyword .elseWord) :
    Follows r rest .consumes (Option.map (Stmt.renumber r)) declaration declaration :=
  .budgeted _ _ fun b k => (statementFollows hrest k b).declaration

end Lox.Parser
