import Lox.Proofs.Grammar.Inversion
import Lox.Proofs.Parsing.Acceptance
import Lox.Proofs.Parsing.Expression

set_option autoImplicit false

/-! # Every expression of the grammar is accepted

The expression parsers accept the tokens that the grammar derives, whenever the token after them
could not go on with the expression (`Settled`). The derivations are followed from the left, as the
parsers read, and the induction is on the budget.

The target of an assignment is read before the parser can know that it is one, so the parsers of
the levels between are also shown to leave a variable or a property access as it is (`Wanted`).
-/

namespace Lox.Parser

open Grammar

/-! ## First tokens -/

/-- A token that starts an expression. -/
def startsExpression : Token.Kind → Bool
  | .number _ | .string _ | .identifier => true
  | .keyword .nilWord | .keyword .trueWord | .keyword .falseWord => true
  | .keyword .thisWord | .keyword .superWord => true
  | .mark .bang | .mark .minus | .mark .leftParen => true
  | _ => false

/-- Tokens start with one that starts an expression. -/
def Starts (ts : List Token) : Prop :=
  ∃ t us, ts = t :: us ∧ startsExpression t.kind = true

theorem Starts.append {ts : List Token} (h : Starts ts) (us : List Token) : Starts (ts ++ us) := by
  obtain ⟨t, vs, rfl, ht⟩ := h
  exact ⟨t, vs ++ us, rfl, ht⟩

theorem Starts.nextKind {ts : List Token} (h : Starts ts) :
    startsExpression (nextKind ts) = true := by
  obtain ⟨t, vs, rfl, ht⟩ := h
  exact ht

theorem starts_primary {ts : List Token} (h : Derives (.symbol .primary) ts) : Starts ts := by
  rcases primary_cases h with ⟨t, value, rfl, ht⟩ | ⟨t, rfl, ht⟩ | ⟨t, rfl, ht⟩ |
    ⟨t, us, closing, rfl, ht, -⟩ | ⟨t, dot, method, rfl, ht, -⟩
  · refine ⟨t, [], rfl, ?_⟩
    unfold Literal.ofKind? at ht
    split at ht <;> simp_all [startsExpression]
  all_goals exact ⟨t, _, rfl, by rw [ht]; rfl⟩

theorem starts_call {ts : List Token} (h : Derives (.symbol .call) ts) : Starts ts := by
  obtain ⟨us, vs, rfl, hprimary, -⟩ := call_cases h
  exact (starts_primary hprimary).append vs

theorem starts_unary {ts : List Token} (h : Derives (.symbol .unary) ts) : Starts ts := by
  rcases unary_cases h with ⟨t, op, us, rfl, hop, -⟩ | h
  · refine ⟨t, us, rfl, ?_⟩
    unfold UnaryOp.ofKind? at hop
    split at hop <;> simp_all [startsExpression]
  · exact starts_call h

/-- What unary expressions have, and levels if their operands do, every level has. -/
theorem level_induction {motive : Symbol → Prop} (hunary : motive .unary)
    (hlevel : ∀ l, motive (operandSymbol l) → motive (levelSymbol l)) (l : Level) :
    motive (levelSymbol l) := by
  have hfactor := hlevel .factor hunary
  have hterm := hlevel .term hfactor
  have hcomparison := hlevel .comparison hterm
  have hequality := hlevel .equality hcomparison
  have hconjunction := hlevel .conjunction hequality
  have hdisjunction := hlevel .disjunction hconjunction
  cases l <;> assumption

theorem starts_level (l : Level) :
    ∀ ts : List Token, Derives (.symbol (levelSymbol l)) ts → Starts ts := by
  refine level_induction (motive := fun s => ∀ ts, Derives (.symbol s) ts → Starts ts)
    (fun ts => starts_unary) (fun l ih ts h => ?_) l
  obtain ⟨us, vs, rfl, hoperand, -⟩ := level_cases h
  exact (ih us hoperand).append vs

theorem starts_assignment {ts : List Token} (h : Derives (.symbol .assignment) ts) :
    Starts ts := by
  rcases assignment_cases h with ⟨us, equals, vs, rfl, htarget, -⟩ | h
  · cases htarget with
    | name ht => exact ⟨_, _, rfl, by rw [ht]; rfl⟩
    | property hobject => exact ((starts_call hobject).append _).append _
  · exact starts_level .disjunction ts h

theorem starts_expression {ts : List Token} (h : Derives (.symbol .expression) ts) :
    Starts ts :=
  starts_assignment (derives_symbol_iff.1 h)

/-! ## What comes after -/

/-- What may follow an expression of some depth: no operator that it would go on with, and
nothing that would call or access it. -/
structure Settled (depth : Nat) (k : Token.Kind) : Prop where
  noOperator : ∀ l : Level, levelDepth l ≤ depth → l.operator? k = none
  noCall : k ≠ .mark .leftParen
  noAccess : k ≠ .mark .dot

namespace Settled

variable {depth depth' : Nat} {k : Token.Kind}

theorem mono (h : Settled depth k) (hdepth : depth' ≤ depth) : Settled depth' k :=
  ⟨fun l hl => h.noOperator l (by omega), h.noCall, h.noAccess⟩

/-- Every operand is settled by an operator of its own level. -/
theorem of_operator {l : Level} {op : InfixOp} (h : l.operator? k = some op) :
    Settled (levelDepth l - 1) k := by
  unfold Level.operator? at h
  split at h
  case h_13 => cases h
  all_goals
    refine ⟨fun l hl => ?_, by simp, by simp⟩
    cases l <;> first | rfl | exact absurd hl (by decide)

/-- An operand is settled by the operators and operands after it, and by what comes after these. -/
theorem of_levelRest {l : Level} {ts rest : List Token} (h : Derives (levelRest l) ts)
    (hnext : Settled (levelDepth l) (nextKind rest)) :
    Settled (levelDepth l - 1) (nextKind (ts ++ rest)) := by
  rcases levelRest_cases h with rfl | ⟨t, op, us, vs, rfl, hop, -⟩
  · exact hnext.mono (by omega)
  · exact of_operator hop

end Settled

/-- What may follow a whole expression. -/
def EndsExpression (k : Token.Kind) : Prop :=
  Settled 15 k ∧ k ≠ .mark .equal

theorem endsExpression_mark {m : Mark} (h : m = .comma ∨ m = .rightParen ∨ m = .semicolon) :
    EndsExpression (.mark m) := by
  rcases h with rfl | rfl | rfl <;>
    exact ⟨⟨fun l _ => by cases l <;> rfl, by simp, by simp⟩, by simp⟩

theorem settled_equal : Settled 14 (.mark .equal) :=
  ⟨fun l _ => by cases l <;> rfl, by simp, by simp⟩

/-! ## Acceptance -/

/-- What an assignment can assign to. -/
inductive Assignable : Expr → Prop
  | variable (n : Name) : Assignable (.variable n)
  | get (object : Expr) (n : Name) : Assignable (.get object n)

/-- What a parser for a symbol is wanted for: any tree, or a target of an assignment. -/
inductive Wanted (s : Symbol) (ts : List Token) : (Expr → Prop) → Prop
  | value (h : Derives (.symbol s) ts) : Wanted s ts anything
  | target (h : IsTarget ts) : Wanted s ts Assignable

/-- What the expression parsers accept with a budget. -/
structure ExpressionAcceptance (eof : Token) (b : Nat) : Prop where
  expression : ∀ ts rest, Derives (.symbol .assignment) ts → EndsExpression (nextKind rest) →
    16 * (ts.length + rest.length) + 15 ≤ b →
    (expressionWithin b).Accepts eof ts rest anything
  level : ∀ l ts rest post, Wanted (levelSymbol l) ts post →
    Settled (levelDepth l) (nextKind rest) →
    16 * (ts.length + rest.length) + levelDepth l ≤ b →
    (levelWithin b l).Accepts eof ts rest post
  levelRest : ∀ l left ts rest, Derives (levelRest l) ts →
    Settled (levelDepth l) (nextKind rest) → 16 * (ts.length + rest.length) + 1 ≤ b →
    (levelRestWithin b l left).Accepts eof ts rest fun e => ts = [] → e = left
  operand : ∀ l ts rest post, Wanted (operandSymbol l) ts post →
    Settled (levelDepth l - 1) (nextKind rest) →
    16 * (ts.length + rest.length) + (levelDepth l - 1) ≤ b →
    (operandWithin b l).Accepts eof ts rest post
  unary : ∀ ts rest post, Wanted .unary ts post → Settled 2 (nextKind rest) →
    16 * (ts.length + rest.length) + 2 ≤ b → (unaryWithin b).Accepts eof ts rest post
  callRest : ∀ callee ts rest, Derives (.repeated callSuffix) ts → Settled 2 (nextKind rest) →
    16 * (ts.length + rest.length) + 2 ≤ b →
    (callRestWithin b callee).Accepts eof ts rest fun e => ts = [] → e = callee
  callRestGet : ∀ callee ts dot t rest, Derives (.repeated callSuffix) ts →
    dot.kind = .mark .dot → t.kind = .identifier → Settled 2 (nextKind rest) →
    16 * ((ts ++ [dot, t]).length + rest.length) + 2 ≤ b →
    (callRestWithin b callee).Accepts eof (ts ++ [dot, t]) rest Assignable
  arguments : ∀ ts rest, Derives (.optional (.symbol .arguments)) ts →
    nextKind rest = .mark .rightParen → 16 * (ts.length + rest.length) + 17 ≤ b →
    (argumentsWithin b).Accepts eof ts rest anything
  argumentList : ∀ count most ts rest, Derives (.listed most (.symbol .expression)) ts →
    count + most ≤ maxArguments → nextKind rest = .mark .rightParen →
    16 * (ts.length + rest.length) + 16 ≤ b →
    (argumentListWithin b count).Accepts eof ts rest anything
  primary : ∀ ts rest, Derives (.symbol .primary) ts → 16 * (ts.length + rest.length) + 1 ≤ b →
    (primaryWithin b).Accepts eof ts rest fun e =>
      ∀ t, ts = [t] → t.kind = .identifier → e = .variable t.toName

variable {eof : Token} {b : Nat} {ts rest : List Token} {post : Expr → Prop}

theorem accepts_assignTo {left : Expr} (h : Assignable left) (value : Expr) (equals : Token) :
    (assignTo left value equals).Accepts eof [] rest anything := by
  cases h with
  | «variable» n => exact .pure trivial
  | get object n => exact .pure trivial

theorem accepts_expression_step (ih : ExpressionAcceptance eof b)
    (h : Derives (.symbol .assignment) ts) (hnext : EndsExpression (nextKind rest))
    (hle : 16 * (ts.length + rest.length) + 15 ≤ b + 1) :
    (expressionWithin (b + 1)).Accepts eof ts rest anything := by
  rw [expressionWithin]
  rcases assignment_cases h with ⟨us, equals, vs, rfl, htarget, hequals, hvalue⟩ | h
  · have hsettled : Settled 14 (nextKind (equals :: vs ++ rest)) := by
      rw [List.cons_append, nextKind_cons, hequals]
      exact settled_equal
    simp only [List.length_append, List.length_cons] at hle
    refine .bind (ih.level .disjunction us _ _ (.target htarget) hsettled ?_) ?_
    · simp only [List.length_append, List.length_cons, levelDepth]
      omega
    rintro left hleft
    refine .peek (.mark hequals ?_)
    refine .bind_nil (ih.expression vs rest hvalue hnext (by omega)) ?_
    rintro value -
    exact accepts_assignTo hleft value _
  · have hsettled : Settled 14 (nextKind rest) := hnext.1.mono (by decide)
    refine .bind_nil (ih.level .disjunction ts rest _ (.value h) hsettled
      (by rw [levelDepth]; omega)) ?_
    rintro left -
    exact .peek (.noMark hnext.2 (.pure trivial))

theorem accepts_level_step (ih : ExpressionAcceptance eof b) {l : Level}
    (h : Wanted (levelSymbol l) ts post) (hnext : Settled (levelDepth l) (nextKind rest))
    (hle : 16 * (ts.length + rest.length) + levelDepth l ≤ b + 1) :
    (levelWithin (b + 1) l).Accepts eof ts rest post := by
  rw [levelWithin]
  have hdepth := le_levelDepth l
  cases h with
  | value h =>
      obtain ⟨us, vs, rfl, hoperand, hrest⟩ := level_cases h
      rw [List.length_append] at hle
      refine .bind (ih.operand l us _ _ (.value hoperand) (.of_levelRest hrest hnext)
        (by rw [List.length_append]; omega)) ?_
      rintro left -
      exact (ih.levelRest l left vs rest hrest hnext (by omega)).mono fun _ _ => trivial
  | target h =>
      refine .bind_nil (ih.operand l ts rest _ (.target h) (hnext.mono (by omega))
        (by omega)) ?_
      rintro left hleft
      refine (ih.levelRest l left [] rest .done hnext (by simp only [List.length_nil]; omega)).mono
        ?_
      rintro e he
      rw [he rfl]
      exact hleft

theorem accepts_levelRest_step (heof : eof.kind = .eof) (ih : ExpressionAcceptance eof b)
    {l : Level} (left : Expr) (h : Derives (levelRest l) ts)
    (hnext : Settled (levelDepth l) (nextKind rest))
    (hle : 16 * (ts.length + rest.length) + 1 ≤ b + 1) :
    (levelRestWithin (b + 1) l left).Accepts eof ts rest fun e => ts = [] → e = left := by
  rw [levelRestWithin]
  refine .peek ?_
  rw [Cursor.peek_kind heof]
  rcases levelRest_cases h with rfl | ⟨t, op, us, vs, rfl, hop, hoperand, hrest⟩
  · rw [List.nil_append, hnext.noOperator l (Nat.le_refl _)]
    exact .pure fun _ => rfl
  · rw [List.cons_append, nextKind_cons, hop]
    simp only [List.length_cons, List.length_append] at hle
    have hdepth := levelDepth_le l
    refine .advance (.bind (ih.operand l us _ _ (.value hoperand) (.of_levelRest hrest hnext)
      (by rw [List.length_append]; omega)) ?_)
    rintro right -
    refine (ih.levelRest l _ vs rest hrest hnext (by omega)).mono ?_
    rintro e - hnil
    cases hnil

theorem accepts_operand_step (ih : ExpressionAcceptance eof b) {l : Level}
    (h : Wanted (operandSymbol l) ts post) (hnext : Settled (levelDepth l - 1) (nextKind rest))
    (hle : 16 * (ts.length + rest.length) + (levelDepth l - 1) ≤ b + 1) :
    (operandWithin (b + 1) l).Accepts eof ts rest post := by
  rw [operandWithin]
  have hdepth := le_levelDepth l
  cases htighter : l.tighter? with
  | some tighter =>
      have hdepth' := levelDepth_tighter htighter
      rw [operandSymbol, htighter] at h
      exact ih.level tighter ts rest post h (hnext.mono (by omega)) (by omega)
  | none =>
      rw [operandSymbol, htighter] at h
      exact ih.unary ts rest post h (hnext.mono (by omega)) (by omega)

/-- No primary expression starts with an operator. -/
theorem ofKind?_primary (h : Derives (.symbol .primary) ts) (us : List Token) :
    UnaryOp.ofKind? (nextKind (ts ++ us)) = none := by
  rcases primary_cases h with ⟨t, value, rfl, ht⟩ | ⟨t, rfl, ht⟩ | ⟨t, rfl, ht⟩ |
    ⟨t, us, closing, rfl, ht, -⟩ | ⟨t, dot, method, rfl, ht, -⟩
  · unfold Literal.ofKind? at ht
    split at ht <;> simp_all [UnaryOp.ofKind?]
  all_goals simp [ht, UnaryOp.ofKind?]

/-- A unary expression without an operator: a primary expression, and what calls and accesses it. -/
theorem accepts_unary_of_primary {us vs : List Token} (heof : eof.kind = .eof)
    (ih : ExpressionAcceptance eof b) (h : Derives (.symbol .primary) us)
    (hle : 16 * (us.length + (vs ++ rest).length) + 1 ≤ b)
    (hcallee : ∀ callee, (∀ t, us = [t] → t.kind = .identifier → callee = .variable t.toName) →
      (callRestWithin b callee).Accepts eof vs rest post) :
    (unaryWithin (b + 1)).Accepts eof (us ++ vs) rest post := by
  rw [unaryWithin]
  refine .peek ?_
  rw [Cursor.peek_kind heof, List.append_assoc, ofKind?_primary h]
  exact .bind (ih.primary us _ h hle) hcallee

theorem accepts_unary_step (heof : eof.kind = .eof) (ih : ExpressionAcceptance eof b)
    (h : Wanted .unary ts post) (hnext : Settled 2 (nextKind rest))
    (hle : 16 * (ts.length + rest.length) + 2 ≤ b + 1) :
    (unaryWithin (b + 1)).Accepts eof ts rest post := by
  cases h with
  | value h =>
      rcases unary_cases h with ⟨t, op, us, rfl, hop, hoperand⟩ | h
      · rw [unaryWithin]
        refine .peek ?_
        rw [Cursor.peek_kind heof, List.cons_append, nextKind_cons, hop]
        rw [List.length_cons] at hle
        refine .advance (.bind_nil (ih.unary us rest _ (.value hoperand) hnext (by omega)) ?_)
        rintro operand -
        exact .pure trivial
      · obtain ⟨us, vs, rfl, hprimary, hsuffixes⟩ := call_cases h
        rw [List.length_append] at hle
        obtain ⟨t, us', rfl, -⟩ := starts_primary hprimary
        rw [List.length_cons] at hle
        refine accepts_unary_of_primary heof ih hprimary
          (by simp only [List.length_append, List.length_cons]; omega) ?_
        rintro callee -
        exact (ih.callRest callee vs rest hsuffixes hnext (by omega)).mono fun _ _ => trivial
  | target h =>
      cases h with
      | @name t ht =>
          -- An identifier that nothing calls or accesses.
          have hprimary : Derives (.symbol .primary) [t] :=
            .symbol (.of_choice (r := name) (by simp) (.terminal ht))
          rw [List.length_singleton] at hle
          rw [← List.append_nil [t]]
          refine accepts_unary_of_primary heof ih hprimary
            (by simp only [List.nil_append, List.length_singleton]; omega) ?_
          intro callee hcallee
          refine (ih.callRest callee [] rest .done hnext
            (by rw [List.length_nil]; omega)).mono ?_
          rintro e he
          rw [he rfl, hcallee t rfl ht]
          exact .variable _
      | @property dot t us hobject hdot ht =>
          -- The last suffix of the call is the property that is assigned to.
          obtain ⟨us, vs, rfl, hprimary, hsuffixes⟩ := call_cases hobject
          obtain ⟨first, us', rfl, -⟩ := starts_primary hprimary
          simp only [List.length_append, List.length_cons] at hle
          rw [List.append_assoc]
          refine accepts_unary_of_primary heof ih hprimary
            (by simp only [List.length_append, List.length_cons]; omega) ?_
          rintro callee -
          exact ih.callRestGet callee vs dot t rest hsuffixes hdot ht hnext
            (by simp only [List.length_append, List.length_cons]; omega)

/-- One call or property access, before more of them. -/
theorem accepts_callSuffix {us : List Token}
    (ih : ExpressionAcceptance eof b) (callee : Expr) (h : Derives callSuffix us)
    (hle : 16 * ((us ++ ts).length + rest.length) + 2 ≤ b + 1)
    (hrest : ∀ callee, (callRestWithin b callee).Accepts eof ts rest post) :
    (callRestWithin (b + 1) callee).Accepts eof (us ++ ts) rest post := by
  rw [callRestWithin]
  rcases callSuffix_cases h with ⟨opening, vs, closing, rfl, hopening, harguments, hclosing⟩ |
    ⟨dot, t, rfl, hdot, ht⟩
  · simp only [List.length_append, List.length_cons, List.length_nil] at hle
    rw [List.cons_append, List.append_assoc]
    refine .mark hopening (.bind (ih.arguments vs _ harguments hclosing ?_) ?_)
    · simp only [List.length_append, List.length_cons, List.length_nil]
      omega
    · rintro arguments -
      exact .expectMark hclosing (hrest _)
  · refine .noMark ?_ (.mark hdot (.expectName ht (hrest _)))
    simp [hdot]

theorem length_callSuffix (h : Derives callSuffix ts) : 0 < ts.length := by
  rcases callSuffix_cases h with ⟨opening, us, closing, rfl, -⟩ | ⟨dot, t, rfl, -⟩ <;> simp

theorem accepts_callRest_step (ih : ExpressionAcceptance eof b) (callee : Expr)
    (h : Derives (.repeated callSuffix) ts) (hnext : Settled 2 (nextKind rest))
    (hle : 16 * (ts.length + rest.length) + 2 ≤ b + 1) :
    (callRestWithin (b + 1) callee).Accepts eof ts rest fun e => ts = [] → e = callee := by
  rcases derives_repeated_iff.1 h with rfl | ⟨us, vs, rfl, hsuffix, hrest⟩
  · rw [callRestWithin]
    exact .noMark hnext.noCall (.noMark hnext.noAccess (.pure fun _ => rfl))
  · have hpos := length_callSuffix hsuffix
    refine accepts_callSuffix ih callee hsuffix hle fun callee => ?_
    rw [List.length_append] at hle
    refine (ih.callRest callee vs rest hrest hnext (by omega)).mono ?_
    rintro e - hnil
    rw [(List.append_eq_nil_iff.1 hnil).1] at hpos
    cases hpos

theorem accepts_callRestGet_step (ih : ExpressionAcceptance eof b) (callee : Expr)
    {dot t : Token} (h : Derives (.repeated callSuffix) ts) (hdot : dot.kind = .mark .dot)
    (ht : t.kind = .identifier) (hnext : Settled 2 (nextKind rest))
    (hle : 16 * ((ts ++ [dot, t]).length + rest.length) + 2 ≤ b + 1) :
    (callRestWithin (b + 1) callee).Accepts eof (ts ++ [dot, t]) rest Assignable := by
  simp only [List.length_append, List.length_cons, List.length_nil] at hle
  rcases derives_repeated_iff.1 h with rfl | ⟨us, vs, rfl, hsuffix, hrest⟩
  · rw [callRestWithin]
    refine .noMark (by simp [hdot]) (.mark hdot (.expectName ht ?_))
    refine (ih.callRest _ [] rest .done hnext (by simp only [List.length_nil]; omega)).mono ?_
    rintro e he
    rw [he rfl]
    exact .get _ _
  · have hpos := length_callSuffix hsuffix
    rw [List.append_assoc]
    refine accepts_callSuffix ih callee hsuffix ?_ fun callee => ?_
    · simp only [List.length_append, List.length_cons, List.length_nil] at hle ⊢
      omega
    · refine ih.callRestGet callee vs dot t rest hrest hdot ht hnext ?_
      simp only [List.length_append, List.length_cons, List.length_nil] at hle ⊢
      omega

theorem accepts_arguments_step (ih : ExpressionAcceptance eof b)
    (h : Derives (.optional (.symbol .arguments)) ts) (hnext : nextKind rest = .mark .rightParen)
    (hle : 16 * (ts.length + rest.length) + 17 ≤ b + 1) :
    (argumentsWithin (b + 1)).Accepts eof ts rest anything := by
  rw [argumentsWithin]
  refine .checkMark ?_
  rcases arguments_cases h with rfl | h
  · rw [List.nil_append, hnext, Token.Kind.isMark_iff.2 rfl]
    exact .pure trivial
  · have hstarts : Starts ts := by
      rcases derives_listed_succ_iff.1 h with h | ⟨us, comma, vs, rfl, h, -⟩
      · exact starts_expression h
      · exact (starts_expression h).append _
    -- No expression starts with what would close the list.
    have hcloses : (nextKind (ts ++ rest)).isMark .rightParen = false := by
      rw [Bool.eq_false_iff, ne_eq, Token.Kind.isMark_iff]
      intro hkind
      have hstart := (hstarts.append rest).nextKind
      rw [hkind] at hstart
      cases hstart
    rw [hcloses]
    exact ih.argumentList 0 maxArguments ts rest h (by omega) hnext (by omega)

theorem accepts_argumentList_step (ih : ExpressionAcceptance eof b) {count most : Nat}
    (h : Derives (.listed most (.symbol .expression)) ts) (hmost : count + most ≤ maxArguments)
    (hnext : nextKind rest = .mark .rightParen)
    (hle : 16 * (ts.length + rest.length) + 16 ≤ b + 1) :
    (argumentListWithin (b + 1) count).Accepts eof ts rest anything := by
  cases most with
  | zero => exact absurd h not_derives_listed_zero
  | succ most =>
      rw [argumentListWithin, if_neg (by omega)]
      rcases derives_listed_succ_iff.1 h with h | ⟨us, comma, vs, rfl, h, hcomma, hrest⟩
      · have hends : EndsExpression (nextKind rest) := by
          rw [hnext]
          exact endsExpression_mark (by simp)
        refine .bind_nil (ih.expression ts rest (derives_symbol_iff.1 h) hends (by omega)) ?_
        rintro argument -
        exact .noMark (by rw [List.nil_append, hnext]; simp) (.pure trivial)
      · have hends : EndsExpression (nextKind (comma :: vs ++ rest)) := by
          rw [List.cons_append, nextKind_cons, hcomma]
          exact endsExpression_mark (by simp)
        simp only [List.length_append, List.length_cons] at hle
        refine .bind (ih.expression us _ (derives_symbol_iff.1 h) hends
          (by simp only [List.length_append, List.length_cons]; omega)) ?_
        rintro argument -
        refine .mark hcomma (.bind_nil (ih.argumentList (count + 1) most vs rest hrest
          (by omega) hnext (by omega)) ?_)
        rintro arguments -
        exact .pure trivial

theorem accepts_primary_step (ih : ExpressionAcceptance eof b)
    (h : Derives (.symbol .primary) ts) (hle : 16 * (ts.length + rest.length) + 1 ≤ b + 1) :
    (primaryWithin (b + 1)).Accepts eof ts rest fun e =>
      ∀ t, ts = [t] → t.kind = .identifier → e = .variable t.toName := by
  rw [primaryWithin]
  refine .peek ?_
  rcases primary_cases h with ⟨t, value, rfl, ht⟩ | ⟨t, rfl, ht⟩ | ⟨t, rfl, ht⟩ |
    ⟨t, us, closing, rfl, ht, hinner, hclosing⟩ | ⟨t, dot, method, rfl, ht, hdot, hmethod⟩
  · rw [List.cons_append, Cursor.peek_cons, ht]
    refine .advance (.pure ?_)
    rintro t' hone hidentifier
    cases hone
    rw [hidentifier] at ht
    cases ht
  · rw [List.cons_append, Cursor.peek_cons, ht]
    refine .advance (.pure ?_)
    rintro t' hone hidentifier
    cases hone
    rw [hidentifier] at ht
    cases ht
  · rw [List.cons_append, Cursor.peek_cons, ht]
    refine .advance (.pure ?_)
    rintro t' hone -
    cases hone
    rfl
  · rw [List.cons_append, Cursor.peek_cons, ht]
    have hends : EndsExpression (nextKind ([closing] ++ rest)) := by
      rw [List.cons_append, nextKind_cons, hclosing]
      exact endsExpression_mark (by simp)
    simp only [List.length_append, List.length_cons, List.length_nil] at hle
    refine .advance (.bind (ih.expression us _ (derives_symbol_iff.1 hinner) hends
      (by simp only [List.length_append, List.length_cons, List.length_nil]; omega)) ?_)
    rintro inner -
    refine .expectMark hclosing (.pure ?_)
    rintro t' hone
    simp at hone
  · rw [List.cons_append, Cursor.peek_cons, ht]
    refine .advance (.expectMark hdot (.expectName hmethod (.pure ?_)))
    rintro t' hone
    simp at hone

/-- The expression parsers accept every expression of the grammar. -/
theorem expressionAcceptance (heof : eof.kind = .eof) (b : Nat) : ExpressionAcceptance eof b := by
  induction b with
  | zero =>
      constructor
      case level | operand =>
        intro l ts rest post _ _ hle
        have := le_levelDepth l
        omega
      all_goals
        intros
        omega
  | succ b ih =>
      exact
        { expression := fun _ _ h hnext hle => accepts_expression_step ih h hnext hle
          level := fun _ _ _ _ h hnext hle => accepts_level_step ih h hnext hle
          levelRest := fun _ left _ _ h hnext hle =>
            accepts_levelRest_step heof ih left h hnext hle
          operand := fun _ _ _ _ h hnext hle => accepts_operand_step ih h hnext hle
          unary := fun _ _ _ h hnext hle => accepts_unary_step heof ih h hnext hle
          callRest := fun callee _ _ h hnext hle => accepts_callRest_step ih callee h hnext hle
          callRestGet := fun callee _ _ _ _ h hdot ht hnext hle =>
            accepts_callRestGet_step ih callee h hdot ht hnext hle
          arguments := fun _ _ h hnext hle => accepts_arguments_step ih h hnext hle
          argumentList := fun _ _ _ _ h hmost hnext hle =>
            accepts_argumentList_step ih h hmost hnext hle
          primary := fun _ _ h hle => accepts_primary_step ih h hle }

/-- An expression of the grammar is accepted before what may follow it. -/
theorem accepts_expression (heof : eof.kind = .eof) (h : Derives (.symbol .expression) ts)
    (hnext : EndsExpression (nextKind rest)) : expression.Accepts eof ts rest anything := by
  refine Accepts.budgeted expressionWithin ?_
  exact (expressionAcceptance heof _).expression ts rest (derives_symbol_iff.1 h) hnext
    (by rw [List.length_append]; omega)

end Lox.Parser
