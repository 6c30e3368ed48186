import Lox.Proofs.Renumbering.Follow

set_option autoImplicit false

/-! # Expression parsers on renumbered tokens

An expression parser gives the renumbered tree for renumbered tokens. It looks at the token after
the expression, so it has to be followed by one of its own tokens if others come after these.
-/

namespace Lox.Parser

/-- What the expression parsers do with a budget and with a larger one. -/
structure ExpressionFollows (r : Renumbering) (rest : Option (List Token)) (k b : Nat) : Prop where
  expression : Follows r rest .looks (Expr.renumber r) (expressionWithin b)
    (expressionWithin (b + k))
  level : ∀ l : Level, Follows r rest .looks (Expr.renumber r) (levelWithin b l)
    (levelWithin (b + k) l)
  levelRest : ∀ (l : Level) (left : Expr),
    Follows r rest .looks (Expr.renumber r) (levelRestWithin b l left)
      (levelRestWithin (b + k) l (left.renumber r))
  operand : ∀ l : Level, Follows r rest .looks (Expr.renumber r) (operandWithin b l)
    (operandWithin (b + k) l)
  unary : Follows r rest .looks (Expr.renumber r) (unaryWithin b) (unaryWithin (b + k))
  callRest : ∀ callee : Expr,
    Follows r rest .looks (Expr.renumber r) (callRestWithin b callee)
      (callRestWithin (b + k) (callee.renumber r))
  arguments : Follows r rest .looks (List.map (Expr.renumber r)) (argumentsWithin b)
    (argumentsWithin (b + k))
  argumentList : ∀ count : Nat,
    Follows r rest .looks (List.map (Expr.renumber r)) (argumentListWithin b count)
      (argumentListWithin (b + k) count)
  primary : Follows r rest .looks (Expr.renumber r) (primaryWithin b) (primaryWithin (b + k))

variable {r : Renumbering} {rest : Option (List Token)} {k b : Nat}

theorem follows_assignTo (left value : Expr) (equals : Token) :
    Follows r rest .stops (Expr.renumber r) (assignTo left value equals)
      (assignTo (left.renumber r) (value.renumber r) (equals.renumber r)) := by
  cases left with
  | «variable» name => exact .pure (Expr.assign name value)
  | get object property => exact .pure (Expr.set object property value)
  | _ => exact (follows_report _ _).map fun _ => rfl

theorem follows_expression_step (ih : ExpressionFollows r rest k b) :
    Follows r rest .looks (Expr.renumber r) (expressionWithin (b + 1))
      (expressionWithin (b + k + 1)) := by
  rw [expressionWithin, expressionWithin]
  refine (ih.level .disjunction).bind fun left => follows_peek.bind fun equals => ?_
  refine (asks_acceptMark .equal).chooseLooks ?_ (Follows.pure left).looks
  exact ih.expression.bind fun value => (follows_assignTo left value equals).looks

theorem follows_level_step (ih : ExpressionFollows r rest k b) (l : Level) :
    Follows r rest .looks (Expr.renumber r) (levelWithin (b + 1) l)
      (levelWithin (b + k + 1) l) := by
  rw [levelWithin, levelWithin]
  exact (ih.operand l).bind fun left => ih.levelRest l left

theorem follows_levelRest_step (ih : ExpressionFollows r rest k b) (l : Level) (left : Expr) :
    Follows r rest .looks (Expr.renumber r) (levelRestWithin (b + 1) l left)
      (levelRestWithin (b + k + 1) l (left.renumber r)) := by
  rw [levelRestWithin, levelRestWithin]
  refine follows_peek.bind fun token => ?_
  rw [Token.renumber_kind]
  cases l.operator? token.kind with
  | none => exact (Follows.pure left).looks
  | some op =>
      refine follows_advance.bind fun _ => (ih.operand l).bind fun right => ?_
      have h := ih.levelRest l (op.join token.line left right)
      rwa [InfixOp.renumber_join] at h

theorem follows_operand_step (ih : ExpressionFollows r rest k b) (l : Level) :
    Follows r rest .looks (Expr.renumber r) (operandWithin (b + 1) l)
      (operandWithin (b + k + 1) l) := by
  rw [operandWithin, operandWithin]
  cases l.tighter? with
  | some tighter => exact ih.level tighter
  | none => exact ih.unary

theorem follows_unary_step (ih : ExpressionFollows r rest k b) :
    Follows r rest .looks (Expr.renumber r) (unaryWithin (b + 1)) (unaryWithin (b + k + 1)) := by
  rw [unaryWithin, unaryWithin]
  refine follows_peek.bind fun token => ?_
  rw [Token.renumber_kind]
  cases UnaryOp.ofKind? token.kind with
  | some op => exact follows_advance.bind fun _ => ih.unary.map fun _ => rfl
  | none => exact ih.primary.bind fun callee => ih.callRest callee

theorem follows_callRest_step (ih : ExpressionFollows r rest k b) (callee : Expr) :
    Follows r rest .looks (Expr.renumber r) (callRestWithin (b + 1) callee)
      (callRestWithin (b + k + 1) (callee.renumber r)) := by
  rw [callRestWithin, callRestWithin]
  refine (asks_acceptMark .leftParen).chooseLooks ?_
    ((asks_acceptMark .dot).chooseLooks ?_ (Follows.pure callee).looks)
  · refine ih.arguments.bind fun arguments => (follows_expectMark _ _).bind fun closing => ?_
    have h := ih.callRest (.call callee arguments closing.line)
    rwa [Expr.renumber, Expr.renumberAll_eq_map] at h
  · exact (follows_expectName _).bind fun property => ih.callRest (.get callee property)

theorem follows_arguments_step (ih : ExpressionFollows r rest k b) :
    Follows r rest .looks (List.map (Expr.renumber r)) (argumentsWithin (b + 1))
      (argumentsWithin (b + k + 1)) := by
  rw [argumentsWithin, argumentsWithin]
  refine (follows_checkMark _).bind fun closes => ?_
  cases closes with
  | true => exact (Follows.pure []).looks
  | false => exact ih.argumentList 0

theorem follows_argumentList_step (ih : ExpressionFollows r rest k b) (count : Nat) :
    Follows r rest .looks (List.map (Expr.renumber r)) (argumentListWithin (b + 1) count)
      (argumentListWithin (b + k + 1) count) := by
  have hlist : Follows r rest .looks (List.map (Expr.renumber r))
      (do
        let argument ← expressionWithin b
        if ← acceptMark .comma then
          let arguments ← argumentListWithin b (count + 1)
          pure (argument :: arguments)
        else
          pure [argument] : Parser (List Expr))
      (do
        let argument ← expressionWithin (b + k)
        if ← acceptMark .comma then
          let arguments ← argumentListWithin (b + k) (count + 1)
          pure (argument :: arguments)
        else
          pure [argument]) := by
    refine ih.expression.bind fun argument => ?_
    refine (asks_acceptMark .comma).chooseLooks ?_ (Follows.pure [argument]).looks
    exact (ih.argumentList (count + 1)).map fun _ => rfl
  rw [argumentListWithin, argumentListWithin]
  split
  · exact follows_peek.bind fun token => (follows_report _ token).bind fun _ => hlist
  · exact hlist

theorem follows_primary_step (ih : ExpressionFollows r rest k b) :
    Follows r rest .looks (Expr.renumber r) (primaryWithin (b + 1))
      (primaryWithin (b + k + 1)) := by
  rw [primaryWithin, primaryWithin]
  refine follows_peek.bind fun token => ?_
  rw [Token.renumber_kind]
  cases Literal.ofKind? token.kind with
  | some value => exact follows_advance.map fun _ => rfl
  | none =>
      dsimp only
      split
      · exact follows_advance.map fun _ => rfl
      · refine follows_advance.bind fun _ => (follows_expectMark _ _).bind fun _ => ?_
        exact (follows_expectName _).looks.map fun _ => rfl
      · exact follows_advance.map fun _ => rfl
      · refine follows_advance.bind fun _ => ih.expression.bind fun inner => ?_
        exact (follows_expectMark _ _).looks.map fun _ => rfl
      · exact .ofFail _

theorem expressionFollows (r : Renumbering) (rest : Option (List Token)) (k b : Nat) :
    ExpressionFollows r rest k b := by
  induction b with
  | zero =>
      exact ⟨.exhaust, fun _ => .exhaust, fun _ _ => .exhaust, fun _ => .exhaust, .exhaust,
        fun _ => .exhaust, .exhaust, fun _ => .exhaust, .exhaust⟩
  | succ b ih =>
      have hk : b + 1 + k = b + k + 1 := Nat.add_right_comm b 1 k
      constructor <;> rw [hk]
      · exact follows_expression_step ih
      · exact follows_level_step ih
      · exact follows_levelRest_step ih
      · exact follows_operand_step ih
      · exact follows_unary_step ih
      · exact follows_callRest_step ih
      · exact follows_arguments_step ih
      · exact follows_argumentList_step ih
      · exact follows_primary_step ih

/-- An expression. -/
theorem follows_expression :
    Follows r rest .looks (Expr.renumber r) expression expression :=
  .budgeted _ _ fun b k => (expressionFollows r rest k b).expression

end Lox.Parser
