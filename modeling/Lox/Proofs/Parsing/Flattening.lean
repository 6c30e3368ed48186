import Lox.Proofs.Grammar.Flattening
import Lox.Proofs.Parsing.Alone

set_option autoImplicit false

/-! # Reading a written expression

An expression whose operands have the grades that their places allow is read back from its tokens
(`Expr.ofTokens_flatten`), and what is read without an error noted is such an expression, written
with the same tokens.

A parser cannot be said to read the tokens of `e` and to stop there: the parser of a level goes on
with the operators of the level, and that of unary expressions with calls and accesses. So a
tree is followed until its tokens are read, and what is left to do is a run of `levelRestWithin` or
of `callRestWithin` from there (`ReadsLevel`, `ReadsCall`). That makes the induction on the trees
go through for operands on the left.
-/

namespace Lox

open Grammar

namespace Parser

variable {eof : Token} {b : Nat} {e : Expr} {rest : List Token}

/-! ## First tokens -/

theorem startsExpression_literal (value : Literal) : startsExpression value.kind = true := by
  rcases value with _ | value | _ | _
  · rfl
  · cases value <;> rfl
  · rfl
  · rfl

theorem starts_flatten : ∀ e : Expr, Starts e.flatten
  | .literal value => ⟨_, _, by rw [Expr.flatten], startsExpression_literal value⟩
  | .grouping _ | .variable _ | .assign _ _ | .this _ | .super _ _ =>
    ⟨_, _, by rw [Expr.flatten], rfl⟩
  | .unary op _ _ => ⟨_, _, by rw [Expr.flatten], by cases op <;> rfl⟩
  | .binary _ _ left _ | .logical _ left _ => by
    rw [Expr.flatten]
    exact (starts_flatten left).append _
  | .call callee _ _ => by
    rw [Expr.flatten]
    exact (starts_flatten callee).append _
  | .get object _ | .set object _ _ => by
    rw [Expr.flatten]
    exact (starts_flatten object).append _

theorem length_flatten_pos (e : Expr) : 0 < e.flatten.length := by
  obtain ⟨t, us, hflatten, -⟩ := starts_flatten e
  rw [hflatten]
  exact Nat.succ_pos _

/-! ## Reading along a tree -/

/-- The tokens of a primary expression are read. -/
def ReadsPrimary (eof : Token) (e : Expr) : Prop :=
  ∀ b rest, 16 * (e.flatten.length + rest.length) + 1 ≤ b →
    (primaryWithin b).Accepts eof e.flatten rest (· = e)

/-- The tokens of what calls and accesses may follow are read. -/
def ReadsCall (eof : Token) (e : Expr) : Prop :=
  ∀ b rest, 16 * (e.flatten.length + rest.length) + 2 ≤ b →
    ∃ b', 16 * rest.length + 2 ≤ b' ∧
      unaryWithin b ⟨e.flatten ++ rest, eof, []⟩ = callRestWithin b' e ⟨rest, eof, []⟩

/-- The tokens of a unary expression are read. -/
def ReadsUnary (eof : Token) (e : Expr) : Prop :=
  ∀ b rest, Settled 2 (nextKind rest) → 16 * (e.flatten.length + rest.length) + 2 ≤ b →
    (unaryWithin b).Accepts eof e.flatten rest (· = e)

/-- The tokens of an operand of a level are read. -/
def ReadsOperand (eof : Token) (l : Level) (e : Expr) : Prop :=
  ∀ b rest, Settled (levelDepth l - 1) (nextKind rest) →
    16 * (e.flatten.length + rest.length) + (levelDepth l - 1) ≤ b →
    (operandWithin b l).Accepts eof e.flatten rest (· = e)

/-- The tokens of what operators of a level may follow are read. -/
def ReadsLevel (eof : Token) (l : Level) (e : Expr) : Prop :=
  ∀ b rest, Settled (levelDepth l - 1) (nextKind rest) →
    16 * (e.flatten.length + rest.length) + levelDepth l ≤ b →
    ∃ b', 16 * rest.length + 1 ≤ b' ∧
      levelWithin b l ⟨e.flatten ++ rest, eof, []⟩ = levelRestWithin b' l e ⟨rest, eof, []⟩

/-- The tokens of an expression are read. -/
def ReadsExpression (eof : Token) (e : Expr) : Prop :=
  ∀ b rest, EndsExpression (nextKind rest) → 16 * (e.flatten.length + rest.length) + 15 ≤ b →
    (expressionWithin b).Accepts eof e.flatten rest (· = e)

/-! ## From tighter to looser -/

theorem ReadsPrimary.readsCall (heof : eof.kind = .eof) (h : ReadsPrimary eof e)
    (hop : ∀ rest, UnaryOp.ofKind? (nextKind (e.flatten ++ rest)) = none) : ReadsCall eof e := by
  intro b rest hle
  have hpos := length_flatten_pos e
  obtain ⟨b, rfl⟩ : ∃ b', b = b' + 1 := ⟨b - 1, by omega⟩
  obtain ⟨_, rfl, hread⟩ := h b rest (by omega)
  refine ⟨b, by omega, ?_⟩
  rw [unaryWithin]
  refine (bind_of_ok (p := peek) rfl).trans ?_
  rw [Cursor.peek_kind heof, hop]
  exact bind_of_ok hread

theorem callRestWithin_settled (hnext : Settled 2 (nextKind rest)) (hb : 0 < b) :
    callRestWithin b e ⟨rest, eof, []⟩ = .ok e ⟨rest, eof, []⟩ := by
  obtain ⟨b, rfl⟩ : ∃ b', b = b' + 1 := ⟨b - 1, by omega⟩
  have haccepts : (callRestWithin (b + 1) e).Accepts eof [] rest (· = e) := by
    rw [callRestWithin]
    exact .noMark hnext.noCall (.noMark hnext.noAccess (.pure rfl))
  obtain ⟨_, rfl, hread⟩ := haccepts
  exact hread

theorem levelRestWithin_settled {l : Level} (heof : eof.kind = .eof)
    (hnext : Settled (levelDepth l) (nextKind rest)) (hb : 0 < b) :
    levelRestWithin b l e ⟨rest, eof, []⟩ = .ok e ⟨rest, eof, []⟩ := by
  obtain ⟨b, rfl⟩ : ∃ b', b = b' + 1 := ⟨b - 1, by omega⟩
  have haccepts : (levelRestWithin (b + 1) l e).Accepts eof [] rest (· = e) := by
    rw [levelRestWithin]
    refine .peek ?_
    rw [Cursor.peek_kind heof, List.nil_append, hnext.noOperator l (Nat.le_refl _)]
    exact .pure rfl
  obtain ⟨_, rfl, hread⟩ := haccepts
  exact hread

theorem ReadsCall.readsUnary (h : ReadsCall eof e) : ReadsUnary eof e := by
  intro b rest hnext hle
  obtain ⟨b', hle', hread⟩ := h b rest hle
  exact ⟨e, rfl, hread.trans (callRestWithin_settled hnext (by omega))⟩

theorem ReadsOperand.readsLevel {l : Level} (h : ReadsOperand eof l e) : ReadsLevel eof l e := by
  intro b rest hnext hle
  have hpos := length_flatten_pos e
  have hdepth := le_levelDepth l
  obtain ⟨b, rfl⟩ : ∃ b', b = b' + 1 := ⟨b - 1, by omega⟩
  obtain ⟨_, rfl, hread⟩ := h b rest hnext (by omega)
  refine ⟨b, by omega, ?_⟩
  rw [levelWithin]
  exact bind_of_ok hread

theorem ReadsLevel.readsOperand {l tighter : Level} (heof : eof.kind = .eof)
    (htighter : l.tighter? = some tighter) (h : ReadsLevel eof tighter e) :
    ReadsOperand eof l e := by
  intro b rest hnext hle
  have hdepth := le_levelDepth l
  have hdepth' := levelDepth_tighter htighter
  obtain ⟨b, rfl⟩ : ∃ b', b = b' + 1 := ⟨b - 1, by omega⟩
  obtain ⟨b', hle', hread⟩ := h b rest (hnext.mono (by omega)) (by omega)
  refine ⟨e, rfl, ?_⟩
  rw [operandWithin, htighter]
  exact hread.trans (levelRestWithin_settled heof (hnext.mono (by omega)) (by omega))

theorem ReadsUnary.readsOperand {l : Level} (htightest : l.tighter? = none)
    (h : ReadsUnary eof e) : ReadsOperand eof l e := by
  intro b rest hnext hle
  have hdepth := le_levelDepth l
  obtain ⟨b, rfl⟩ : ∃ b', b = b' + 1 := ⟨b - 1, by omega⟩
  rw [operandWithin, htightest]
  exact h b rest (hnext.mono (by omega)) (by omega)

theorem ReadsLevel.readsExpression (heof : eof.kind = .eof) (h : ReadsLevel eof .disjunction e) :
    ReadsExpression eof e := by
  intro b rest hnext hle
  obtain ⟨b, rfl⟩ : ∃ b', b = b' + 1 := ⟨b - 1, by omega⟩
  have hdepth : levelDepth .disjunction = 14 := rfl
  obtain ⟨b', hle', hread⟩ := h b rest (hnext.1.mono (by decide)) (by omega)
  have hleft : (levelWithin b .disjunction).Accepts eof e.flatten rest (· = e) :=
    ⟨e, rfl, hread.trans (levelRestWithin_settled heof (hnext.1.mono (by decide)) (by omega))⟩
  rw [expressionWithin]
  refine .bind_nil hleft ?_
  rintro _ rfl
  exact .peek (.noMark hnext.2 (.pure rfl))

/-! ## All parsers that read an expression -/

/-- Every parser that the grade of an expression allows reads it. -/
structure Rereads (eof : Token) (e : Expr) : Prop where
  call : 8 ≤ e.grade → ReadsCall eof e
  unary : 7 ≤ e.grade → ReadsUnary eof e
  level : ∀ l : Level, l.grade ≤ e.grade → ReadsLevel eof l e
  expression : ReadsExpression eof e

theorem Rereads.operand (heof : eof.kind = .eof) (h : Rereads eof e) {l : Level}
    (hgrade : l.grade < e.grade) : ReadsOperand eof l e := by
  cases htighter : l.tighter? with
  | some tighter =>
      have hstep := Level.grade_tighter htighter
      exact (h.level tighter (by omega)).readsOperand heof htighter
  | none =>
      have htightest := Level.grade_of_tightest htighter
      exact (h.unary (by omega)).readsOperand htighter

/-- An infix expression is read by the parser of its level, and so by those of looser levels. -/
theorem Rereads.of_level {own : Level} (heof : eof.kind = .eof) (hgrade : e.grade = own.grade)
    (h : ReadsLevel eof own e) : Rereads eof e := by
  have hown := own.grade_le
  have hlevel : ∀ l : Level, l.grade ≤ e.grade → ReadsLevel eof l e := by
    intro l
    induction l using Level.induction_tighter with
    | h l ih =>
        intro hl
        by_cases hsame : l = own
        · rw [hsame]
          exact h
        · -- A looser level: the expression is an operand of it.
          have hlt : l.grade < own.grade := by
            have hne : l.grade ≠ own.grade := by
              cases l <;> cases own <;> first | decide | exact absurd rfl hsame
            omega
          cases htighter : l.tighter? with
          | some tighter =>
              have hstep := Level.grade_tighter htighter
              exact ((ih tighter htighter (by omega)).readsOperand heof htighter).readsLevel
          | none =>
              have htightest := Level.grade_of_tightest htighter
              omega
  have hloosest : Level.disjunction.grade ≤ e.grade := by
    rw [hgrade]
    cases own <;> decide
  exact ⟨by omega, by omega, hlevel, (hlevel _ hloosest).readsExpression heof⟩

/-- What is read as a unary expression is read by the parsers of all levels. -/
theorem Rereads.of_unary (heof : eof.kind = .eof) (hcall : 8 ≤ e.grade → ReadsCall eof e)
    (h : ReadsUnary eof e) : Rereads eof e := by
  have hlevel : ∀ l : Level, ReadsLevel eof l e := by
    intro l
    induction l using Level.induction_tighter with
    | h l ih =>
        cases htighter : l.tighter? with
        | some tighter => exact ((ih tighter htighter).readsOperand heof htighter).readsLevel
        | none => exact (h.readsOperand htighter).readsLevel
  exact ⟨hcall, fun _ => h, fun l _ => hlevel l, (hlevel .disjunction).readsExpression heof⟩

theorem Rereads.of_call (heof : eof.kind = .eof) (h : ReadsCall eof e) : Rereads eof e :=
  .of_unary heof (fun _ => h) h.readsUnary

theorem Rereads.of_primary (heof : eof.kind = .eof)
    (hop : ∀ rest, UnaryOp.ofKind? (nextKind (e.flatten ++ rest)) = none)
    (h : ReadsPrimary eof e) : Rereads eof e :=
  .of_call heof (h.readsCall heof hop)

/-! ## Trees from their parts -/

theorem rereads_literal (heof : eof.kind = .eof) (value : Literal) :
    Rereads eof (.literal value) := by
  have hkind : Literal.ofKind? value.kind = some value := Literal.ofKind?_eq_some_iff.2 rfl
  refine .of_primary heof (fun rest => ?_) fun b rest hle => ?_
  · rw [Expr.flatten, List.singleton_append, nextKind_cons]
    rcases value with _ | value | _ | _
    · rfl
    · cases value <;> rfl
    · rfl
    · rfl
  · obtain ⟨b, rfl⟩ : ∃ b', b = b' + 1 := ⟨b - 1, by omega⟩
    rw [primaryWithin, Expr.flatten]
    refine .peek ?_
    have hpeek : (Cursor.mk ([value.token] ++ rest) eof []).peek.kind = value.kind := rfl
    rw [hpeek, hkind]
    exact .advance (.pure rfl)

theorem rereads_this (heof : eof.kind = .eof) (keyword : Name) : Rereads eof (.this keyword) := by
  refine .of_primary heof (fun rest => by rw [Expr.flatten]; rfl) fun b rest hle => ?_
  obtain ⟨b, rfl⟩ : ∃ b', b = b' + 1 := ⟨b - 1, by omega⟩
  rw [primaryWithin, Expr.flatten]
  exact .peek (.advance (.pure rfl))

theorem rereads_variable (heof : eof.kind = .eof) (name : Name) :
    Rereads eof (.variable name) := by
  refine .of_primary heof (fun rest => by rw [Expr.flatten]; rfl) fun b rest hle => ?_
  obtain ⟨b, rfl⟩ : ∃ b', b = b' + 1 := ⟨b - 1, by omega⟩
  rw [primaryWithin, Expr.flatten]
  exact .peek (.advance (.pure rfl))

theorem rereads_super (heof : eof.kind = .eof) (keyword method : Name) :
    Rereads eof (.super keyword method) := by
  refine .of_primary heof (fun rest => by rw [Expr.flatten]; rfl) fun b rest hle => ?_
  obtain ⟨b, rfl⟩ : ∃ b', b = b' + 1 := ⟨b - 1, by omega⟩
  rw [primaryWithin, Expr.flatten]
  exact .peek (.advance (.expectMark rfl (.expectName rfl (.pure rfl))))

theorem rereads_grouping (heof : eof.kind = .eof) {inner : Expr} (h : ReadsExpression eof inner) :
    Rereads eof (.grouping inner) := by
  refine .of_primary heof (fun rest => by rw [Expr.flatten]; rfl) fun b rest hle => ?_
  obtain ⟨b, rfl⟩ : ∃ b', b = b' + 1 := ⟨b - 1, by omega⟩
  rw [Expr.flatten, List.length_cons, List.length_append, List.length_singleton] at hle
  rw [primaryWithin, Expr.flatten]
  refine .peek (.advance (.bind (h b _ (endsExpression_mark (by simp)) ?_) ?_))
  · rw [List.length_append, List.length_singleton]
    omega
  · rintro _ rfl
    exact .expectMark rfl (.pure rfl)

theorem rereads_unary (heof : eof.kind = .eof) (op : UnaryOp) (line : Nat) {operand : Expr}
    (h : ReadsUnary eof operand) : Rereads eof (.unary op line operand) := by
  have hgrade : ¬ 8 ≤ (Expr.unary op line operand).grade := by
    show ¬ 8 ≤ 7
    omega
  refine .of_unary heof (fun h => absurd h hgrade) fun b rest hnext hle => ?_
  obtain ⟨b, rfl⟩ : ∃ b', b = b' + 1 := ⟨b - 1, by omega⟩
  rw [Expr.flatten, List.length_cons] at hle
  have hop : UnaryOp.ofKind? (.mark op.mark) = some op := UnaryOp.ofKind?_eq_some_iff.2 rfl
  rw [unaryWithin, Expr.flatten]
  refine .peek ?_
  rw [List.cons_append, Cursor.peek_cons, Mark.kind_token, hop]
  refine .advance (.bind_nil (h b rest hnext (by omega)) ?_)
  rintro _ rfl
  exact .pure rfl

/-- The operator of an infix expression is met by the parser of its level, with all of the left
operand read. -/
theorem readsLevel_join (op : InfixOp) (line : Nat) {left right : Expr}
    (hleft : ReadsLevel eof op.level left) (hright : ReadsOperand eof op.level right) :
    ReadsLevel eof op.level (op.join line left right) := by
  intro b rest hnext hle
  rw [Expr.flatten_join] at hle ⊢
  rw [List.length_append, List.length_cons] at hle
  have hoperator : op.level.operator? (op.token line).kind = some op :=
    InfixOp.operator?_eq_some_iff.2 ⟨rfl, op.kind_token line⟩
  have hdepth := levelDepth_le op.level
  obtain ⟨b₁, hle₁, hread⟩ := hleft b (op.token line :: (right.flatten ++ rest))
    (.of_operator hoperator) (by rw [List.length_cons, List.length_append]; omega)
  rw [List.length_cons, List.length_append] at hle₁
  obtain ⟨b₁, rfl⟩ : ∃ b', b₁ = b' + 1 := ⟨b₁ - 1, by omega⟩
  obtain ⟨_, rfl, hreadRight⟩ := hright b₁ rest hnext (by omega)
  refine ⟨b₁, by omega, ?_⟩
  rw [List.append_assoc, List.cons_append, hread, levelRestWithin]
  refine (bind_of_ok (p := peek) rfl).trans ?_
  rw [Cursor.peek_cons, hoperator]
  refine (bind_of_ok (p := advance) rfl).trans ((bind_of_ok hreadRight).trans ?_)
  rw [op.join_line_token]

theorem rereads_join (heof : eof.kind = .eof) (op : InfixOp) (line : Nat) {left right : Expr}
    (hleft : Rereads eof left) (hright : Rereads eof right)
    (hleftGrade : op.level.grade ≤ left.grade) (hrightGrade : op.level.grade < right.grade) :
    Rereads eof (op.join line left right) :=
  .of_level heof (Expr.grade_join op line left right)
    (readsLevel_join op line (hleft.level _ hleftGrade) (hright.operand heof hrightGrade))

/-- An access goes on from its object. -/
theorem readsCall_get {object : Expr} (property : Name) (h : ReadsCall eof object) :
    ReadsCall eof (.get object property) := by
  intro b rest hle
  rw [Expr.flatten] at hle ⊢
  simp only [List.length_append, List.length_cons, List.length_nil] at hle
  obtain ⟨b₁, hle₁, hread⟩ := h b (Mark.dot.token 0 :: property.token .identifier :: rest)
    (by simp only [List.length_cons]; omega)
  simp only [List.length_cons] at hle₁
  obtain ⟨b₁, rfl⟩ : ∃ b', b₁ = b' + 1 := ⟨b₁ - 1, by omega⟩
  refine ⟨b₁, by omega, ?_⟩
  rw [List.append_assoc, List.cons_append, List.cons_append, List.nil_append, hread,
    callRestWithin]
  rfl

theorem rereads_get (heof : eof.kind = .eof) {object : Expr} (property : Name)
    (h : ReadsCall eof object) : Rereads eof (.get object property) :=
  .of_call heof (readsCall_get property h)

/-- Arguments are read up to the closing parenthesis, if there are not too many of them. -/
theorem accepts_argumentList {e : Expr} {es : List Expr} {count b : Nat}
    (h : ∀ e' ∈ e :: es, ReadsExpression eof e') (hmost : count + (e :: es).length ≤ maxArguments)
    (hnext : nextKind rest = .mark .rightParen)
    (hle : 16 * ((Expr.flattenAll (e :: es)).length + rest.length) + 16 ≤ b) :
    (argumentListWithin b count).Accepts eof (Expr.flattenAll (e :: es)) rest (· = e :: es) := by
  have hclosing : EndsExpression (.mark .rightParen) := endsExpression_mark (by simp)
  induction es generalizing e count b with
  | nil =>
      obtain ⟨b, rfl⟩ : ∃ b', b = b' + 1 := ⟨b - 1, by omega⟩
      rw [Expr.flattenAll_singleton] at hle ⊢
      rw [argumentListWithin, if_neg (by simp only [List.length_singleton] at hmost; omega)]
      refine .bind_nil (h e (by simp) b rest (by rwa [hnext]) (by omega)) ?_
      rintro _ rfl
      exact .noMark (by rw [List.nil_append, hnext]; rintro ⟨⟩) (.pure rfl)
  | cons e' es ih =>
      obtain ⟨b, rfl⟩ : ∃ b', b = b' + 1 := ⟨b - 1, by omega⟩
      rw [Expr.flattenAll_cons_cons] at hle ⊢
      simp only [List.length_append, List.length_cons] at hle hmost
      rw [argumentListWithin, if_neg (by omega)]
      refine .bind (h e (by simp) b _ (endsExpression_mark (by simp)) ?_) ?_
      · simp only [List.length_append, List.length_cons]
        omega
      · rintro _ rfl
        refine .mark rfl (.bind_nil (ih (fun e'' he'' => h e'' (List.mem_cons_of_mem _ he''))
          ?_ ?_) ?_)
        · simp only [List.length_cons]
          omega
        · omega
        · rintro _ rfl
          exact .pure rfl

theorem accepts_argumentsWithin {es : List Expr} (h : ∀ e ∈ es, ReadsExpression eof e)
    (hmost : es.length ≤ maxArguments) (hnext : nextKind rest = .mark .rightParen)
    (hle : 16 * ((Expr.flattenAll es).length + rest.length) + 17 ≤ b) :
    (argumentsWithin b).Accepts eof (Expr.flattenAll es) rest (· = es) := by
  obtain ⟨b, rfl⟩ : ∃ b', b = b' + 1 := ⟨b - 1, by omega⟩
  rw [argumentsWithin]
  cases es with
  | nil =>
      rw [Expr.flattenAll]
      refine .checkMark ?_
      rw [List.nil_append, hnext, Token.Kind.isMark_iff.2 rfl]
      exact .pure rfl
  | cons e es =>
      refine .checkMark ?_
      -- No expression starts with the closing parenthesis.
      have hstarts : startsExpression (nextKind (Expr.flattenAll (e :: es) ++ rest)) = true := by
        rw [Expr.flattenAll, List.append_assoc]
        exact ((starts_flatten e).append _).nextKind
      have hopen : (nextKind (Expr.flattenAll (e :: es) ++ rest)).isMark .rightParen = false := by
        rw [Bool.eq_false_iff]
        intro hmark
        rw [Token.Kind.isMark_iff.1 hmark] at hstarts
        cases hstarts
      rw [hopen]
      exact accepts_argumentList h (by omega) hnext (by omega)

/-- A call goes on from its callee. -/
theorem readsCall_call {callee : Expr} {arguments : List Expr} (line : Nat)
    (h : ReadsCall eof callee) (harguments : ∀ e ∈ arguments, ReadsExpression eof e)
    (hmost : arguments.length ≤ maxArguments) : ReadsCall eof (.call callee arguments line) := by
  intro b rest hle
  rw [Expr.flatten] at hle ⊢
  simp only [List.length_append, List.length_cons, List.length_nil] at hle
  obtain ⟨b₁, hle₁, hread⟩ := h b
    (Mark.leftParen.token 0 :: (Expr.flattenAll arguments ++ Mark.rightParen.token line :: rest))
    (by simp only [List.length_append, List.length_cons]; omega)
  simp only [List.length_append, List.length_cons] at hle₁
  obtain ⟨b₁, rfl⟩ : ∃ b', b₁ = b' + 1 := ⟨b₁ - 1, by omega⟩
  have hnext : nextKind (Mark.rightParen.token line :: rest) = .mark .rightParen := rfl
  obtain ⟨_, rfl, hreadArguments⟩ := accepts_argumentsWithin (b := b₁) harguments hmost hnext
    (by rw [List.length_cons]; omega)
  refine ⟨b₁, by omega, ?_⟩
  rw [List.append_assoc, List.cons_append, List.append_assoc, List.singleton_append, hread,
    callRestWithin]
  refine (bind_of_ok (p := acceptMark .leftParen) rfl).trans ((bind_of_ok hreadArguments).trans ?_)
  rfl

theorem rereads_call (heof : eof.kind = .eof) {callee : Expr} {arguments : List Expr} (line : Nat)
    (h : ReadsCall eof callee) (harguments : ∀ e ∈ arguments, ReadsExpression eof e)
    (hmost : arguments.length ≤ maxArguments) : Rereads eof (.call callee arguments line) :=
  .of_call heof (readsCall_call line h harguments hmost)

/-- An assignment is read as its target first. -/
theorem rereads_assignment (heof : eof.kind = .eof) {target value assignment : Expr}
    (hgrade : assignment.grade = 0)
    (hflatten : assignment.flatten = target.flatten ++ Mark.equal.token 0 :: value.flatten)
    (hassign : ∀ c, assignTo target value (Mark.equal.token 0) c = .ok assignment c)
    (htarget : ReadsLevel eof .disjunction target) (hvalue : ReadsExpression eof value) :
    Rereads eof assignment := by
  have hloose : ∀ l : Level, ¬ l.grade ≤ assignment.grade := by
    intro l hl
    rw [hgrade] at hl
    cases l <;> exact absurd hl (by decide)
  refine ⟨by omega, by omega, fun l hl => absurd hl (hloose l), fun b rest hnext hle => ?_⟩
  obtain ⟨b, rfl⟩ : ∃ b', b = b' + 1 := ⟨b - 1, by omega⟩
  rw [hflatten] at hle ⊢
  rw [List.length_append, List.length_cons] at hle
  have hdepth : levelDepth .disjunction = 14 := rfl
  obtain ⟨b₁, hle₁, hread⟩ := htarget b (Mark.equal.token 0 :: (value.flatten ++ rest))
    (settled_equal.mono (by decide)) (by rw [List.length_cons, List.length_append]; omega)
  have hleft : (levelWithin b .disjunction).Accepts eof target.flatten
      (Mark.equal.token 0 :: value.flatten ++ rest) (· = target) :=
    ⟨target, rfl, hread.trans (levelRestWithin_settled heof settled_equal (by omega))⟩
  rw [expressionWithin]
  refine .bind hleft ?_
  rintro _ rfl
  refine .peek (.mark rfl (.bind_nil (hvalue b rest hnext (by omega)) ?_))
  rintro _ rfl
  exact ⟨assignment, rfl, hassign _⟩

/-- Everything that is graded is read back. -/
theorem rereads_of_graded (heof : eof.kind = .eof) (h : e.Graded) : Rereads eof e := by
  induction h with
  | literal value => exact rereads_literal heof value
  | «variable» name => exact rereads_variable heof name
  | this keyword => exact rereads_this heof keyword
  | super keyword method => exact rereads_super heof keyword method
  | grouping _ ih => exact rereads_grouping heof ih.expression
  | unary _ hgrade ih => exact rereads_unary heof _ _ (ih.unary hgrade)
  | @binary op line left right _ _ hleftGrade hrightGrade ihleft ihright =>
      exact rereads_join heof (.binary op) line ihleft ihright hleftGrade hrightGrade
  | @logical op left right _ _ hleftGrade hrightGrade ihleft ihright =>
      exact rereads_join heof (.logical op) 0 ihleft ihright hleftGrade hrightGrade
  | @assign name value _ ih =>
      have htarget := (rereads_variable heof name).level .disjunction
        (by decide : 1 ≤ 9)
      refine rereads_assignment heof rfl ?_ (fun _ => rfl) htarget ih.expression
      rw [Expr.flatten, Expr.flatten, List.singleton_append]
  | call _ hgrade _ hmost ih iharguments =>
      exact rereads_call heof _ (ih.call hgrade) (fun e he => (iharguments e he).expression) hmost
  | get _ hgrade ih => exact rereads_get heof _ (ih.call hgrade)
  | @set object value property _ hgrade _ ihobject ih =>
      -- The target is read as an access before the equals sign is seen.
      have htarget := (rereads_get heof property (ihobject.call hgrade)).level .disjunction
        (by decide : 1 ≤ 8)
      refine rereads_assignment heof rfl ?_ (fun _ => rfl) htarget ih.expression
      rw [Expr.flatten, Expr.flatten, List.append_assoc]
      rfl

end Parser

/-! ## Both ways -/

namespace Expr

variable {tokens : List Token} {eof : Token} {e : Expr}

/-- What is read without an error noted is spelled by its tokens. -/
theorem spells_of_ofTokens (heof : eof.kind = .eof) (h : ofTokens tokens eof = .ok e)
    (hnoted : noted tokens eof = []) : Spells (.symbol .expression) tokens (.expr e) := by
  obtain ⟨c, hwhole, hcollected⟩ := Parser.ofTokens_eq_ok_iff.1 h
  obtain ⟨hrun, hahead⟩ := Parser.wholeExpression_eq_ok_iff.1 hwhole
  have hyields := Parser.yields_expression (c := .start tokens eof) heof
  unfold Parser.Yields at hyields
  rw [hrun] at hyields
  obtain ⟨ts, es, hreach, -, hreads⟩ := hyields
  have hts : tokens = ts := by
    have hall := hreach.ahead
    rwa [hahead, List.append_nil] at hall
  have hes : es = [] := by
    have hall := hreach.collected
    rw [hcollected, hnoted] at hall
    exact hall.symm
  rw [hts]
  exact hreads hes

/-- Reading and writing are inverse to each other. What is read without an error noted is graded,
and written with the tokens it was read from; and what is graded is read back from the tokens it is
written with. -/
theorem ofTokens_flatten (tokens : List Token) (e : Expr) {eof : Token} (heof : eof.kind = .eof) :
    (ofTokens tokens eof = .ok e → noted tokens eof = [] →
      e.Graded ∧ e.flatten.map Token.kept = tokens.map Token.kept) ∧
    (e.Graded → ofTokens e.flatten eof = .ok e ∧ noted e.flatten eof = []) := by
  constructor
  · intro h hnoted
    have hspells := spells_of_ofTokens heof h hnoted
    obtain ⟨hgraded, -, hflatten⟩ := hspells.flattens
    exact ⟨hgraded, hflatten⟩
  · intro hgraded
    have hends : Parser.EndsExpression (nextKind []) :=
      ⟨⟨fun l _ => by cases l <;> rfl, nofun, nofun⟩, nofun⟩
    have hreads := (Parser.rereads_of_graded heof hgraded).expression
    obtain ⟨e', he', hrun⟩ := hreads (16 * (e.flatten.length + 1)) [] hends (by
      rw [List.length_nil]
      omega)
    rw [he', List.append_nil] at hrun
    have hwhole : Parser.wholeExpression (.start e.flatten eof) = .ok e ⟨[], eof, []⟩ :=
      Parser.wholeExpression_eq_ok_iff.2 ⟨hrun, rfl⟩
    have hnoted : noted e.flatten eof = [] := by rw [noted, hwhole]
    exact ⟨Parser.ofTokens_eq_ok_iff.2 ⟨_, hwhole, hnoted.symm⟩, hnoted⟩

/-- The expression `a.b = -c(1) < d`. -/
theorem ofTokens_flatten_assignment :
    let tokens : List Token :=
      [⟨.identifier, "a", 1, 0⟩, ⟨.mark .dot, ".", 1, 1⟩, ⟨.identifier, "b", 1, 2⟩,
        ⟨.mark .equal, "=", 1, 4⟩, ⟨.mark .minus, "-", 1, 6⟩, ⟨.identifier, "c", 1, 7⟩,
        ⟨.mark .leftParen, "(", 1, 8⟩, ⟨.number 1, "1", 1, 9⟩, ⟨.mark .rightParen, ")", 1, 10⟩,
        ⟨.mark .less, "<", 1, 12⟩, ⟨.identifier, "d", 1, 14⟩]
    let eof : Token := ⟨.eof, "", 1, 15⟩
    let e : Expr :=
      .set (.variable ⟨"a", 1, 0⟩) ⟨"b", 1, 2⟩
        (.binary .less 1
          (.unary .negate 1 (.call (.variable ⟨"c", 1, 7⟩) [.literal (.number 1)] 1))
          (.variable ⟨"d", 1, 14⟩))
    eof.kind = .eof ∧ ofTokens tokens eof = .ok e ∧
      e.flatten.map Token.kept = tokens.map Token.kept ∧ ofTokens e.flatten eof = .ok e := by
  intro tokens eof e
  have hread : ofTokens tokens eof = .ok e := rfl
  have heof : eof.kind = .eof := rfl
  have hwritten := (ofTokens_flatten tokens e heof).1 hread rfl
  exact ⟨heof, hread, hwritten.2, ((ofTokens_flatten tokens e heof).2 hwritten.1).1⟩

end Expr

end Lox
