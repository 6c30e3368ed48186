import Lox.Proofs.Grammar.Spelling
import Lox.Proofs.Parsing.Yield

set_option autoImplicit false

/-! # What the expression parsers read

Each expression parser, given enough budget, ends; and if it notes no error, what it read spells
the tree that it gives (`expressionSpecs`). The budget of a parser is sixteen steps for each token
ahead and a few more, one for each level of the grammar that it may descend before it reads a
token.
-/

namespace Lox.Parser

open Grammar

/-- What was read spells the value, unless errors were noted. -/
def Reads {α : Type} (p : Phrase) (tree : α → Tree) (a : α) (ts : List Token)
    (noted : List ParseError) : Prop :=
  noted = [] → Spells p ts (tree a)

/-- The same, and something was read. -/
def ReadsSome {α : Type} (p : Phrase) (tree : α → Tree) (a : α) (ts : List Token)
    (noted : List ParseError) : Prop :=
  ts ≠ [] ∧ Reads p tree a ts noted

/-- How many parsers stand between an operand of a level and a unary expression. -/
def levelDepth : Level → Nat
  | .factor => 4
  | .term => 6
  | .comparison => 8
  | .equality => 10
  | .conjunction => 12
  | .disjunction => 14

theorem le_levelDepth (l : Level) : 4 ≤ levelDepth l := by cases l <;> decide

theorem levelDepth_le (l : Level) : levelDepth l ≤ 14 := by cases l <;> decide

theorem levelDepth_tighter {l tighter : Level} (h : l.tighter? = some tighter) :
    levelDepth tighter + 2 = levelDepth l := by
  cases l <;> cases h <;> rfl

/-- What the expression parsers do with a budget. -/
structure ExpressionSpecs (b : Nat) : Prop where
  expression : ∀ c : Cursor, c.Affords 15 b →
    (expressionWithin b).Yields c (ReadsSome (.symbol .assignment) .expr)
  level : ∀ (l : Level) (c : Cursor), c.Affords (levelDepth l) b →
    (levelWithin b l).Yields c (ReadsSome (.symbol (levelSymbol l)) .expr)
  levelRest : ∀ (l : Level) (left : Expr) (c : Cursor), c.Affords 1 b →
    (levelRestWithin b l left).Yields c fun e ts noted =>
      noted = [] → ∀ ls, Spells (.symbol (levelSymbol l)) ls (.expr left) →
        Spells (.symbol (levelSymbol l)) (ls ++ ts) (.expr e)
  operand : ∀ (l : Level) (c : Cursor), c.Affords (levelDepth l - 1) b →
    (operandWithin b l).Yields c (ReadsSome (.symbol (operandSymbol l)) .expr)
  unary : ∀ c : Cursor, c.Affords 2 b →
    (unaryWithin b).Yields c (ReadsSome (.symbol .unary) .expr)
  callRest : ∀ (callee : Expr) (c : Cursor), c.Affords 2 b →
    (callRestWithin b callee).Yields c fun e ts noted =>
      noted = [] → ∀ ls, Spells (.symbol .call) ls (.expr callee) →
        Spells (.symbol .call) (ls ++ ts) (.expr e)
  arguments : ∀ c : Cursor, c.Affords 17 b →
    (argumentsWithin b).Yields c (Reads (.optional (.symbol .arguments)) .exprs)
  argumentList : ∀ (count : Nat) (c : Cursor), c.Affords 16 b →
    (argumentListWithin b count).Yields c fun es ts noted =>
      noted = [] → count < maxArguments ∧
        Spells (.listed (maxArguments - count) (.symbol .expression)) ts (.exprs es)
  primary : ∀ c : Cursor, c.Affords 1 b →
    (primaryWithin b).Yields c (ReadsSome (.symbol .primary) .expr)

variable {b : Nat} {c : Cursor}

/-- The assignment of a value to what was read on the left. -/
theorem yields_assignTo {left value : Expr} {equals : Token}
    (hequals : equals.kind = .mark .equal) :
    (assignTo left value equals).Yields c fun e vs noted =>
      vs = [] ∧ (noted = [] → ∀ ts us, Spells (.symbol .logicOr) ts (.expr left) →
        Spells (.symbol .assignment) us (.expr value) →
        Spells (.symbol .assignment) (ts ++ equals :: us) (.expr e)) := by
  unfold assignTo
  split
  · refine .pure ⟨rfl, fun _ ts us hleft hvalue => ?_⟩
    obtain ⟨t, rfl, ht, rfl⟩ := hleft.of_variable
    exact .assign ht hequals hvalue
  · refine .pure ⟨rfl, fun _ ts us hleft hvalue => ?_⟩
    obtain ⟨vs, dot, t, rfl, hobject, hdot, ht, rfl⟩ := hleft.of_get
    rw [List.append_assoc]
    exact .set hobject hdot ht hequals hvalue
  · refine .bind (yields_report _ _) ?_
    rintro _ c' vs noted _ ⟨rfl, hnoted⟩
    exact .pure ⟨rfl, fun h => absurd (List.append_eq_nil_iff.1 h).1 hnoted⟩

theorem expression_step (ih : ExpressionSpecs b) (h : c.Affords 15 (b + 1)) :
    (expressionWithin (b + 1)).Yields c (ReadsSome (.symbol .assignment) .expr) := by
  rw [expressionWithin]
  refine .bind (ih.level .disjunction c (h.deeper (.refl c) (by decide))) ?_
  rintro left c₁ ts es hreach ⟨hne, hleft⟩
  refine .peek (.byMark ?_ ?_)
  · -- The left side was read as a disjunction before it was known to be assigned to.
    rintro equals c₂ hreach₂ hpeek hequals
    refine .bind (ih.expression c₂
      (h.further (hreach.trans hreach₂) (by simp [hne]) (by decide))) ?_
    rintro value c₃ us fs _ ⟨-, hvalue⟩
    rw [hpeek]
    refine (yields_assignTo hequals).mono ?_
    rintro e vs gs ⟨rfl, hassign⟩
    refine ⟨by simp [hne], fun hnil => ?_⟩
    simp only [List.append_eq_nil_iff, List.nil_append] at hnil
    obtain ⟨rfl, rfl, rfl⟩ := hnil
    simpa using hassign rfl ts us (hleft rfl) (hvalue rfl)
  · refine .pure ⟨by simpa using hne, fun hnil => ?_⟩
    rw [List.append_nil] at hnil ⊢
    exact .disjunction (hleft hnil)

theorem level_step (ih : ExpressionSpecs b) (l : Level) (h : c.Affords (levelDepth l) (b + 1)) :
    (levelWithin (b + 1) l).Yields c (ReadsSome (.symbol (levelSymbol l)) .expr) := by
  rw [levelWithin]
  have hdepth := le_levelDepth l
  refine .bind (ih.operand l c (h.deeper (.refl c) (by omega))) ?_
  rintro left c₁ ts es hreach ⟨hne, hleft⟩
  refine (ih.levelRest l left c₁ (h.deeper hreach (by omega))).mono ?_
  rintro e us fs hrest
  refine ⟨by simp [hne], fun hnil => ?_⟩
  obtain ⟨rfl, rfl⟩ := List.append_eq_nil_iff.1 hnil
  exact hrest rfl ts (.operand (hleft rfl))

theorem levelRest_step (ih : ExpressionSpecs b) (l : Level) (left : Expr)
    (h : c.Affords 1 (b + 1)) :
    (levelRestWithin (b + 1) l left).Yields c fun e ts noted =>
      noted = [] → ∀ ls, Spells (.symbol (levelSymbol l)) ls (.expr left) →
        Spells (.symbol (levelSymbol l)) (ls ++ ts) (.expr e) := by
  rw [levelRestWithin]
  refine .peek ?_
  cases hop : l.operator? c.peek.kind with
  | none =>
      refine .pure fun _ ls hls => ?_
      rwa [List.append_nil]
  | some op =>
      have hkind : c.peek.kind ≠ .eof := by
        intro heof
        rw [heof] at hop
        cases l <;> cases hop
      refine .advance h.eof hkind fun c₁ hreach => ?_
      have hdepth := levelDepth_le l
      refine .bind (ih.operand l c₁ (h.further hreach (by simp) (by omega))) ?_
      rintro right c₂ us fs hreach₂ ⟨hne, hright⟩
      -- What was read so far is the left operand of what comes next.
      refine (ih.levelRest l _ c₂
        (h.further (hreach.trans hreach₂) (by simp) (by decide))).mono ?_
      rintro e vs gs hrest hnil ls hls
      simp only [List.append_eq_nil_iff, List.nil_append] at hnil
      obtain ⟨rfl, rfl⟩ := hnil
      have hjoin := hrest rfl _ (.infixed hls hop (hright rfl))
      simpa using hjoin

theorem operand_step (ih : ExpressionSpecs b) (l : Level)
    (h : c.Affords (levelDepth l - 1) (b + 1)) :
    (operandWithin (b + 1) l).Yields c (ReadsSome (.symbol (operandSymbol l)) .expr) := by
  rw [operandWithin]
  have hdepth := le_levelDepth l
  cases htighter : l.tighter? with
  | some tighter =>
      have hdepth' := levelDepth_tighter htighter
      have hsymbol : operandSymbol l = levelSymbol tighter := by rw [operandSymbol, htighter]
      rw [hsymbol]
      exact ih.level tighter c (h.deeper (.refl c) (by omega))
  | none =>
      have hsymbol : operandSymbol l = .unary := by rw [operandSymbol, htighter]
      rw [hsymbol]
      exact ih.unary c (h.deeper (.refl c) (by omega))

theorem unary_step (ih : ExpressionSpecs b) (h : c.Affords 2 (b + 1)) :
    (unaryWithin (b + 1)).Yields c (ReadsSome (.symbol .unary) .expr) := by
  rw [unaryWithin]
  refine .peek ?_
  cases hop : UnaryOp.ofKind? c.peek.kind with
  | some op =>
      have hkind : c.peek.kind ≠ .eof := by
        intro heof
        rw [heof] at hop
        cases hop
      refine .advance h.eof hkind fun c₁ hreach => ?_
      refine .bind (ih.unary c₁ (h.further hreach (by simp) (by decide))) ?_
      rintro operand c₂ us fs _ ⟨-, hoperand⟩
      refine .pure ⟨by simp, fun hnil => ?_⟩
      simp only [List.append_eq_nil_iff, List.nil_append, and_true] at hnil
      simpa using Spells.unary hop (hoperand hnil)
  | none =>
      refine .bind (ih.primary c (h.deeper (.refl c) (by decide))) ?_
      rintro callee c₁ ts es hreach ⟨hne, hcallee⟩
      refine (ih.callRest callee c₁ (h.further hreach hne (by decide))).mono ?_
      rintro e us fs hrest
      refine ⟨by simp [hne], fun hnil => ?_⟩
      obtain ⟨rfl, rfl⟩ := List.append_eq_nil_iff.1 hnil
      exact .callUnary (hrest rfl ts (.primary (hcallee rfl)))

theorem callRest_step (ih : ExpressionSpecs b) (callee : Expr) (h : c.Affords 2 (b + 1)) :
    (callRestWithin (b + 1) callee).Yields c fun e ts noted =>
      noted = [] → ∀ ls, Spells (.symbol .call) ls (.expr callee) →
        Spells (.symbol .call) (ls ++ ts) (.expr e) := by
  rw [callRestWithin]
  refine .byMark ?_ (.byMark ?_ ?_)
  · rintro opening c₁ hreach _ hopening
    refine .bind (ih.arguments c₁ (h.further hreach (by simp) (by decide))) ?_
    rintro arguments c₂ ts es hreach₂ harguments
    refine .bind (yields_expectMark _ _) ?_
    rintro closing c₃ us fs hreach₃ ⟨rfl, rfl, hclosing⟩
    refine (ih.callRest _ c₃
      (h.further ((hreach.trans hreach₂).trans hreach₃) (by simp) (by decide))).mono ?_
    rintro e vs gs hrest hnil ls hls
    simp only [List.append_eq_nil_iff, List.nil_append] at hnil
    obtain ⟨rfl, rfl⟩ := hnil
    simpa using hrest rfl _ (.call hls hopening (harguments rfl) hclosing)
  · rintro dot c₁ hreach _ hdot
    refine .bind (yields_expectName _) ?_
    rintro property c₂ ts es hreach₂ ⟨rfl, t, rfl, ht, rfl⟩
    refine (ih.callRest _ c₂
      (h.further (hreach.trans hreach₂) (by simp) (by decide))).mono ?_
    rintro e vs gs hrest hnil ls hls
    simpa using hrest hnil _ (.get hls hdot ht)
  · refine .pure fun _ ls hls => ?_
    rwa [List.append_nil]

theorem arguments_step (ih : ExpressionSpecs b) (h : c.Affords 17 (b + 1)) :
    (argumentsWithin (b + 1)).Yields c (Reads (.optional (.symbol .arguments)) .exprs) := by
  rw [argumentsWithin]
  refine .bind (yields_checkMark _) ?_
  rintro closes c₁ ts es hreach ⟨rfl, rfl, -⟩
  cases closes with
  | true => exact .pure fun _ => .noArguments
  | false =>
      refine (ih.argumentList 0 c₁ (h.deeper hreach (by decide))).mono ?_
      rintro arguments us fs harguments hnil
      exact .arguments (harguments hnil).2

/-- The arguments from one on, when it is known whether there are too many of them. -/
theorem argumentList_rest (ih : ExpressionSpecs b) (count : Nat) (h : c.Affords 16 (b + 1)) :
    (do
      let argument ← expressionWithin b
      if ← acceptMark .comma then
        let arguments ← argumentListWithin b (count + 1)
        pure (argument :: arguments)
      else
        pure [argument] : Parser (List Expr)).Yields c fun es ts noted =>
      noted = [] → count < maxArguments →
        Spells (.listed (maxArguments - count) (.symbol .expression)) ts (.exprs es) := by
  refine .bind (ih.expression c (h.deeper (.refl c) (by decide))) ?_
  rintro argument c₁ ts es hreach ⟨hne, hargument⟩
  refine .byMark ?_ ?_
  · rintro comma c₂ hreach₂ _ hcomma
    refine .bind (ih.argumentList (count + 1) c₂
      (h.further (hreach.trans hreach₂) (by simp) (by decide))) ?_
    rintro arguments c₃ us fs _ harguments
    refine .pure fun hnil hcount => ?_
    simp only [List.append_eq_nil_iff, List.nil_append, and_true] at hnil
    obtain ⟨rfl, rfl⟩ := hnil
    have hmost : maxArguments - count = maxArguments - (count + 1) + 1 := by omega
    rw [hmost]
    simpa using Spells.moreExprs (.expression (hargument rfl)) hcomma (harguments rfl).2
  · refine .pure fun hnil hcount => ?_
    rw [List.append_nil] at hnil ⊢
    have hmost : maxArguments - count = maxArguments - (count + 1) + 1 := by omega
    rw [hmost]
    exact .lastExpr (.expression (hargument hnil))

theorem argumentList_step (ih : ExpressionSpecs b) (count : Nat) (h : c.Affords 16 (b + 1)) :
    (argumentListWithin (b + 1) count).Yields c fun es ts noted =>
      noted = [] → count < maxArguments ∧
        Spells (.listed (maxArguments - count) (.symbol .expression)) ts (.exprs es) := by
  rw [argumentListWithin]
  split
  · -- Too many arguments are noted but read, so no claim about them is left to show.
    refine .peek (.bind (yields_report _ _) ?_)
    rintro _ c₁ ts es hreach ⟨rfl, hes⟩
    refine (argumentList_rest ih count (h.reach hreach)).mono ?_
    rintro e us fs _ hnil
    exact absurd (List.append_eq_nil_iff.1 hnil).1 hes
  · rename_i hcount
    refine (argumentList_rest ih count h).mono ?_
    rintro e us fs hrest hnil
    exact ⟨by omega, hrest hnil (by omega)⟩

theorem primary_step (ih : ExpressionSpecs b) (h : c.Affords 1 (b + 1)) :
    (primaryWithin (b + 1)).Yields c (ReadsSome (.symbol .primary) .expr) := by
  rw [primaryWithin]
  refine .peek ?_
  cases hliteral : Literal.ofKind? c.peek.kind with
  | some value =>
      have hkind : c.peek.kind ≠ .eof := by
        intro heof
        rw [heof] at hliteral
        cases hliteral
      refine .advance h.eof hkind fun c₁ _ => ?_
      exact .pure ⟨by simp, fun _ => .literal hliteral⟩
  | none =>
      dsimp only
      split
      · rename_i hkind
        have hne : c.peek.kind ≠ .eof := by
          rw [hkind]
          exact Token.Kind.noConfusion
        refine .advance h.eof hne fun c₁ _ => ?_
        exact .pure ⟨by simp, fun _ => .this hkind⟩
      · rename_i hkind
        have hne : c.peek.kind ≠ .eof := by
          rw [hkind]
          exact Token.Kind.noConfusion
        refine .advance h.eof hne fun c₁ _ => ?_
        refine .bind (yields_expectMark _ _) ?_
        rintro dot c₂ us fs _ ⟨rfl, rfl, hdot⟩
        refine .bind (yields_expectName _) ?_
        rintro method c₃ vs gs _ ⟨rfl, t, rfl, ht, rfl⟩
        exact .pure ⟨by simp, fun _ => .super hkind hdot ht⟩
      · rename_i hkind
        have hne : c.peek.kind ≠ .eof := by
          rw [hkind]
          exact Token.Kind.noConfusion
        refine .advance h.eof hne fun c₁ _ => ?_
        exact .pure ⟨by simp, fun _ => .identifier hkind⟩
      · rename_i hkind
        have hne : c.peek.kind ≠ .eof := by
          rw [hkind]
          exact Token.Kind.noConfusion
        refine .advance h.eof hne fun c₁ hreach => ?_
        refine .bind (ih.expression c₁ (h.further hreach (by simp) (by decide))) ?_
        rintro inner c₂ us fs _ ⟨-, hinner⟩
        refine .bind (yields_expectMark _ _) ?_
        rintro closing c₃ vs gs _ ⟨rfl, rfl, hclosing⟩
        refine .pure ⟨by simp, fun hnil => ?_⟩
        simp only [List.append_nil, List.nil_append] at hnil
        exact .grouping hkind (.expression (hinner hnil)) hclosing
      · exact yields_fail _

/-- The expression parsers end, and read what they give. -/
theorem expressionSpecs (b : Nat) : ExpressionSpecs b := by
  induction b with
  | zero =>
      -- Nothing is afforded without a budget.
      constructor
      case level | operand =>
        intro l c h
        have := le_levelDepth l
        exact absurd rfl (h.budget_ne_zero (by omega))
      all_goals
        intros
        exact absurd rfl (Cursor.Affords.budget_ne_zero ‹_› (by decide))
  | succ b ih =>
      exact
        { expression := fun _ h => expression_step ih h
          level := fun l _ h => level_step ih l h
          levelRest := fun l left _ h => levelRest_step ih l left h
          operand := fun l _ h => operand_step ih l h
          unary := fun _ h => unary_step ih h
          callRest := fun callee _ h => callRest_step ih callee h
          arguments := fun _ h => arguments_step ih h
          argumentList := fun count _ h => argumentList_step ih count h
          primary := fun _ h => primary_step ih h }

/-- An expression, read with the budget that its tokens call for. -/
theorem yields_expression {c : Cursor} (hc : c.eof.kind = .eof) :
    expression.Yields c (ReadsSome (.symbol .expression) .expr) := by
  refine Yields.budgeted expressionWithin ?_
  refine ((expressionSpecs c.budget).expression c (.of_budget hc (by decide))).mono ?_
  rintro e ts es ⟨hne, he⟩
  exact ⟨hne, fun hnil => .expression (he hnil)⟩

end Lox.Parser
