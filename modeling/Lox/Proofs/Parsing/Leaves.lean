import Lox.Binding.Reference
import Lox.Proofs.Parsing.Yield
import Mathlib.Algebra.GroupWithZero.Nat

set_option autoImplicit false

/-! # The leaves of a tree

A tree takes its names and literals from the tokens that are read for it, no two from one token.
This holds with and without errors, so it does not follow from what the tokens spell: a wrong
assignment is noted and its value is dropped, and a parser that fails drops all that it has built.

It is said with weights. However the leaves are weighed, a tree and the tokens that are still ahead
weigh no more than the tokens that were ahead before (`Parser.Covers`); what a parser drops makes
this only easier, and the cases of the grammar are sums.
-/

namespace Lox

/-! ## Leaves -/

/-- What a tree takes over from a token. -/
inductive Leaf
  | identifier (name : Name)
  /-- `this` or `super`. -/
  | keyword (word : Keyword) (name : Name)
  | literal (value : Literal)

/-- What a tree can take over from this token. -/
def Token.leaf? (t : Token) : Option Leaf :=
  match t.kind with
  | .identifier => some (.identifier t.toName)
  | .keyword .thisWord => some (.keyword .thisWord t.toName)
  | .keyword .superWord => some (.keyword .superWord t.toName)
  | kind => (Literal.ofKind? kind).map .literal

mutual

/-- The leaves of an expression in the order of its tokens. -/
def Expr.leaves : Expr → List Leaf
  | .literal value => [.literal value]
  | .grouping inner => inner.leaves
  | .unary _ _ operand => operand.leaves
  | .binary _ _ left right => left.leaves ++ right.leaves
  | .logical _ left right => left.leaves ++ right.leaves
  | .variable name => [.identifier name]
  | .assign name value => .identifier name :: value.leaves
  | .call callee arguments _ => callee.leaves ++ Expr.leavesAll arguments
  | .get object property => object.leaves ++ [.identifier property]
  | .set object property value => object.leaves ++ .identifier property :: value.leaves
  | .this keyword => [.keyword .thisWord keyword]
  | .super keyword method => [.keyword .superWord keyword, .identifier method]

/-- The leaves of expressions. -/
def Expr.leavesAll : List Expr → List Leaf
  | [] => []
  | e :: es => e.leaves ++ Expr.leavesAll es

end

/-! ## Weights -/

/-- How much each leaf weighs. -/
abbrev Weight := Leaf → Nat

namespace Weight

variable (w : Weight)

/-- The weight of a token is that of its leaf. -/
def ofToken (t : Token) : Nat := (t.leaf?.map w).getD 0

/-- The weight of tokens. -/
def ofTokens (ts : List Token) : Nat := (ts.map w.ofToken).sum

/-- The weight of an expression. -/
def ofExpr (e : Expr) : Nat := (e.leaves.map w).sum

/-- The weight of expressions. -/
def ofExprs (es : List Expr) : Nat := (Expr.leavesAll es).map w |>.sum

@[simp] theorem ofTokens_cons (t : Token) (ts : List Token) :
    w.ofTokens (t :: ts) = w.ofToken t + w.ofTokens ts := by
  simp [ofTokens]

theorem ofToken_of_identifier {t : Token} (h : t.kind = .identifier) :
    w.ofToken t = w (.identifier t.toName) := by
  simp [ofToken, Token.leaf?, h]

theorem ofToken_of_this {t : Token} (h : t.kind = .keyword .thisWord) :
    w.ofToken t = w (.keyword .thisWord t.toName) := by
  simp [ofToken, Token.leaf?, h]

theorem ofToken_of_super {t : Token} (h : t.kind = .keyword .superWord) :
    w.ofToken t = w (.keyword .superWord t.toName) := by
  simp [ofToken, Token.leaf?, h]

theorem ofToken_of_literal {t : Token} {value : Literal}
    (h : Literal.ofKind? t.kind = some value) : w.ofToken t = w (.literal value) := by
  unfold ofToken Token.leaf?
  split
  · rename_i hkind
    rw [hkind] at h
    cases h
  · rename_i hkind
    rw [hkind] at h
    cases h
  · rename_i hkind
    rw [hkind] at h
    cases h
  · rw [h]
    rfl

theorem ofToken_of_eof {t : Token} (h : t.kind = .eof) : w.ofToken t = 0 := by
  simp [ofToken, Token.leaf?, Literal.ofKind?, h]

@[simp] theorem ofExpr_join (op : InfixOp) (line : Nat) (left right : Expr) :
    w.ofExpr (op.join line left right) = w.ofExpr left + w.ofExpr right := by
  cases op <;> simp [ofExpr, InfixOp.join, Expr.leaves]

@[simp] theorem ofExprs_nil : w.ofExprs [] = 0 := rfl

@[simp] theorem ofExprs_cons (e : Expr) (es : List Expr) :
    w.ofExprs (e :: es) = w.ofExpr e + w.ofExprs es := by
  simp [ofExprs, ofExpr, Expr.leavesAll]

@[simp] theorem ofExpr_call (callee : Expr) (arguments : List Expr) (line : Nat) :
    w.ofExpr (.call callee arguments line) = w.ofExpr callee + w.ofExprs arguments := by
  simp [ofExprs, ofExpr, Expr.leaves]

end Weight

/-- The weight of the tokens ahead. -/
def Cursor.weight (c : Cursor) (w : Weight) : Nat := w.ofTokens c.ahead

/-- The second cursor is further on in the same tokens. -/
structure Cursor.LeadsTo (c c' : Cursor) : Prop where
  eof : c'.eof = c.eof
  ahead : c'.ahead <:+ c.ahead

namespace Cursor.LeadsTo

variable {c c' c'' : Cursor}

theorem refl (c : Cursor) : c.LeadsTo c := ⟨rfl, List.suffix_refl _⟩

theorem trans (h : c.LeadsTo c') (h' : c'.LeadsTo c'') : c.LeadsTo c'' :=
  ⟨h'.eof.trans h.eof, h'.ahead.trans h.ahead⟩

theorem advance (c : Cursor) : c.LeadsTo c.advance := ⟨rfl, List.tail_suffix _⟩

end Cursor.LeadsTo

namespace Parser

/-- What is given and what is ahead at a cursor covers what the parser makes of it and what is
ahead then. -/
def Covers {α : Type} (p : Parser α) (w : Weight) (c : Cursor) (given : Nat) (uses : α → Nat) :
    Prop :=
  c.eof.kind = .eof →
    match p c with
    | .ok a c' => c.LeadsTo c' ∧ uses a + c'.weight w ≤ given + c.weight w
    | .error _ c' => c.LeadsTo c' ∧ c'.weight w ≤ given + c.weight w

variable {α β : Type} {p : Parser α} {q : α → Parser β} {w : Weight} {c : Cursor} {given : Nat}
  {uses : β → Nat}

/-! ## Rules -/

/-- More may be given than is used. -/
theorem Covers.mono {p : Parser β} {given' : Nat} (h : p.Covers w c given uses)
    (hgiven : given ≤ given') : p.Covers w c given' uses := by
  intro hc
  have hrun := h hc
  split at hrun <;> exact ⟨hrun.1, by omega⟩

theorem covers_pure {b : β} (h : uses b ≤ given) :
    (pure b : Parser β).Covers w c given uses :=
  fun _ => ⟨.refl c, Nat.add_le_add_right h _⟩

theorem covers_exhaust : (exhaust : Parser β).Covers w c given uses :=
  fun _ => ⟨.refl c, Nat.le_add_left _ _⟩

theorem covers_fail (cause : ParseError.Cause) :
    (fail cause : Parser β).Covers w c given uses :=
  fun _ => ⟨.refl c, Nat.le_add_left _ _⟩

/-- A run that goes on as another one does, with what was read given to it. -/
theorem Covers.after {p q : Parser β} {c' : Cursor} {given' : Nat} (heq : p c = q c')
    (hlead : c.LeadsTo c') (hweight : given' + c'.weight w ≤ given + c.weight w)
    (hq : q.Covers w c' given' uses) : p.Covers w c given uses := by
  intro hc
  have hrun := hq (hlead.eof ▸ hc)
  rw [heq]
  split at hrun <;> exact ⟨hlead.trans hrun.1, by omega⟩

/-- One parser after another: what the first one makes is given to the second one. -/
theorem Covers.bind {mid : α → Nat} (hp : p.Covers w c 0 mid)
    (hq : ∀ a c', (q a).Covers w c' (given + mid a) uses) :
    (p >>= q).Covers w c given uses := by
  intro hc
  have hrun := hp hc
  cases hpc : p c with
  | ok a c' =>
      rw [hpc] at hrun
      exact Covers.after (bind_of_ok hpc) hrun.1 (by omega) (hq a c') hc
  | error e c' =>
      rw [hpc] at hrun
      rw [bind_of_error hpc]
      exact ⟨hrun.1, by omega⟩

/-- A parser that runs with the budget that its tokens call for. -/
theorem Covers.budgeted (run : Nat → Parser β) (h : (run c.budget).Covers w c given uses) :
    Covers (fun c => run c.budget c) w c given uses :=
  h

/-! ## Primitive parsers -/

/-- Looking at the next token. -/
theorem Covers.peek {q : Token → Parser β} (h : (q c.peek).Covers w c given uses) :
    (peek >>= q).Covers w c given uses :=
  .after (bind_of_ok rfl) (.refl c) (Nat.le_refl _) h

/-- Behind the end there is nothing to read. -/
theorem weight_advance (hc : c.eof.kind = .eof) :
    w.ofToken c.peek + c.advance.weight w = c.weight w := by
  obtain ⟨ahead, eof, collected⟩ := c
  cases ahead with
  | nil => exact (congrArg (· + 0) (w.ofToken_of_eof hc)).trans rfl
  | cons t ts => exact (w.ofTokens_cons t ts).symm

/-- Reading the token that was looked at. -/
theorem Covers.advance {q : Token → Parser β}
    (h : ∀ c', (q c.peek).Covers w c' (given + w.ofToken c.peek) uses) :
    (advance >>= q).Covers w c given uses := by
  intro hc
  have hweight := weight_advance (w := w) hc
  exact Covers.after (bind_of_ok rfl) (.advance c) (by omega) (h c.advance) hc

theorem covers_expectMark (m : Mark) (cause : ParseError.Cause) :
    (expectMark m cause).Covers w c 0 fun _ => 0 := by
  intro hc
  have hweight := weight_advance (w := w) hc
  unfold expectMark
  by_cases h : c.isAtMark m
  · rw [if_pos h]
    exact ⟨.advance c, Nat.add_le_add_left (by omega) 0⟩
  · rw [if_neg h]
    exact ⟨.refl c, Nat.le_add_left _ _⟩

theorem covers_expectName (cause : ParseError.Cause) :
    (expectName cause).Covers w c 0 fun n => w (.identifier n) := by
  intro hc
  have hweight := weight_advance (w := w) hc
  unfold expectName
  cases hahead : c.ahead with
  | nil => exact ⟨.refl c, Nat.le_add_left _ _⟩
  | cons t ts =>
      obtain ⟨kind, text, line, start⟩ := t
      have hpeek : c.peek = ⟨kind, text, line, start⟩ := by rw [Cursor.peek, hahead]
      cases kind with
      | identifier =>
          rw [hpeek, w.ofToken_of_identifier rfl] at hweight
          exact ⟨.advance c, Nat.le_of_eq (hweight.trans (Nat.zero_add _).symm)⟩
      | _ => exact ⟨.refl c, Nat.le_add_left _ _⟩

theorem covers_checkMark (m : Mark) : (checkMark m).Covers w c 0 fun _ => 0 :=
  fun _ => ⟨.refl c, Nat.le_refl _⟩

theorem covers_report (cause : ParseError.Cause) (token : Token) :
    (report cause token).Covers w c 0 fun _ => 0 :=
  fun _ => ⟨⟨rfl, List.suffix_refl _⟩, Nat.le_refl _⟩

/-- A choice by whether a mark is next. -/
theorem Covers.byMark {m : Mark} {yes no : Parser β} (hyes : ∀ c', yes.Covers w c' given uses)
    (hno : no.Covers w c given uses) :
    (acceptMark m >>= fun b => if b = true then yes else no).Covers w c given uses := by
  intro hc
  have hweight := weight_advance (w := w) hc
  by_cases h : c.isAtMark m
  · have haccept : acceptMark m c = .ok true c.advance := by rw [acceptMark, if_pos h]
    exact Covers.after (bind_of_ok haccept) (.advance c) (by omega) (hyes c.advance) hc
  · have haccept : acceptMark m c = .ok false c := by rw [acceptMark, if_neg h]
    exact Covers.after (bind_of_ok haccept) (.refl c) (Nat.le_refl _) hno hc

/-- A choice by what comes next, of which nothing is read. -/
theorem Covers.byCheck {check : Parser Bool} {yes no : Parser β}
    (hcheck : check.Covers w c 0 fun _ => 0) (hyes : ∀ c', yes.Covers w c' given uses)
    (hno : ∀ c', no.Covers w c' given uses) :
    (check >>= fun b => if b = true then yes else no).Covers w c given uses := by
  refine hcheck.bind fun b c' => ?_
  cases b with
  | true => exact hyes c'
  | false => exact hno c'

/-! ## Expressions -/

/-- The expression parsers with a budget. -/
structure ExpressionCovers (w : Weight) (b : Nat) : Prop where
  expression : ∀ c : Cursor, (expressionWithin b).Covers w c 0 w.ofExpr
  level : ∀ (l : Level) (c : Cursor), (levelWithin b l).Covers w c 0 w.ofExpr
  levelRest : ∀ (l : Level) (left : Expr) (c : Cursor),
    (levelRestWithin b l left).Covers w c (w.ofExpr left) w.ofExpr
  operand : ∀ (l : Level) (c : Cursor), (operandWithin b l).Covers w c 0 w.ofExpr
  unary : ∀ c : Cursor, (unaryWithin b).Covers w c 0 w.ofExpr
  callRest : ∀ (callee : Expr) (c : Cursor),
    (callRestWithin b callee).Covers w c (w.ofExpr callee) w.ofExpr
  arguments : ∀ c : Cursor, (argumentsWithin b).Covers w c 0 w.ofExprs
  argumentList : ∀ (count : Nat) (c : Cursor), (argumentListWithin b count).Covers w c 0 w.ofExprs
  primary : ∀ c : Cursor, (primaryWithin b).Covers w c 0 w.ofExpr

/-- A wrong target is kept and the value is dropped. -/
theorem covers_assignTo (left value : Expr) (equals : Token) :
    (assignTo left value equals).Covers w c (w.ofExpr left + w.ofExpr value) w.ofExpr := by
  unfold assignTo
  split
  · exact covers_pure (by simp [Weight.ofExpr, Expr.leaves])
  · exact covers_pure (by simp [Weight.ofExpr, Expr.leaves, Nat.add_assoc])
  · exact (covers_report _ _).bind fun _ _ => covers_pure (by omega)

/-- A list of one or more, of which too many are reported. -/
theorem covers_reported {list : Parser β} (hlist : ∀ c, list.Covers w c given uses) (count : Nat)
    (cause : ParseError.Cause) :
    Covers
      (if maxArguments ≤ count then do
        let token ← peek
        report cause token
        list
      else list) w c given uses := by
  split
  · exact .peek ((covers_report _ _).bind fun _ c' => hlist c')
  · exact hlist c

variable {b : Nat}

theorem covers_primary (ih : ExpressionCovers w b) (c : Cursor) :
    (primaryWithin (b + 1)).Covers w c 0 w.ofExpr := by
  rw [primaryWithin]
  apply Covers.peek
  cases hliteral : Literal.ofKind? c.peek.kind with
  | some value =>
      refine .advance fun _ => covers_pure ?_
      simp [w.ofToken_of_literal hliteral, Weight.ofExpr, Expr.leaves]
  | none =>
      dsimp only
      split
      · rename_i hkind
        refine .advance fun _ => covers_pure ?_
        simp [w.ofToken_of_this hkind, Weight.ofExpr, Expr.leaves]
      · rename_i hkind
        refine .advance fun _ => (covers_expectMark _ _).bind fun _ _ =>
          (covers_expectName _).bind fun method _ => covers_pure ?_
        simp [w.ofToken_of_super hkind, Weight.ofExpr, Expr.leaves]
      · rename_i hkind
        refine .advance fun _ => covers_pure ?_
        simp [w.ofToken_of_identifier hkind, Weight.ofExpr, Expr.leaves]
      · refine .advance fun _ => (ih.expression _).bind fun inner _ =>
          (covers_expectMark _ _).bind fun _ _ => covers_pure ?_
        show w.ofExpr inner ≤ _
        omega
      · exact covers_fail _

theorem expressionCovers (w : Weight) (b : Nat) : ExpressionCovers w b := by
  induction b with
  | zero => constructor <;> intros <;> exact covers_exhaust
  | succ b ih =>
      constructor
      case expression =>
        intro c
        rw [expressionWithin]
        refine (ih.level .disjunction c).bind fun left _ => .peek (.byMark (fun c' => ?_) ?_)
        · refine (ih.expression c').bind fun value _ => (covers_assignTo left value _).mono ?_
          omega
        · exact covers_pure (by omega)
      case level =>
        intro l c
        rw [levelWithin]
        exact (ih.operand l c).bind fun left _ => (ih.levelRest l left _).mono (by omega)
      case levelRest =>
        intro l left c
        rw [levelRestWithin]
        apply Covers.peek
        cases l.operator? c.peek.kind with
        | none => exact covers_pure (Nat.le_refl _)
        | some op =>
            refine .advance fun _ => (ih.operand l _).bind fun right _ =>
              (ih.levelRest l _ _).mono ?_
            rw [w.ofExpr_join]
            omega
      case operand =>
        intro l c
        rw [operandWithin]
        cases l.tighter? with
        | some tighter => exact ih.level tighter c
        | none => exact ih.unary c
      case unary =>
        intro c
        rw [unaryWithin]
        apply Covers.peek
        cases UnaryOp.ofKind? c.peek.kind with
        | some op =>
            refine .advance fun _ => (ih.unary _).bind fun operand _ => covers_pure ?_
            show w.ofExpr operand ≤ _
            omega
        | none =>
            exact (ih.primary c).bind fun callee _ => (ih.callRest callee _).mono (by omega)
      case callRest =>
        intro callee c
        rw [callRestWithin]
        refine .byMark (fun c' => ?_) (.byMark (fun c' => ?_) (covers_pure (Nat.le_refl _)))
        · refine (ih.arguments c').bind fun arguments _ =>
            (covers_expectMark _ _).bind fun closing _ => (ih.callRest _ _).mono ?_
          rw [w.ofExpr_call]
          omega
        · refine (covers_expectName _).bind fun property _ => (ih.callRest _ _).mono ?_
          simp [Weight.ofExpr, Expr.leaves]
      case arguments =>
        intro c
        rw [argumentsWithin]
        exact .byCheck (covers_checkMark _) (fun _ => covers_pure (Nat.zero_le _))
          (ih.argumentList 0)
      case argumentList =>
        intro count c
        rw [argumentListWithin]
        refine covers_reported (fun c => ?_) count _
        refine (ih.expression c).bind fun argument _ => .byMark (fun c' => ?_) ?_
        · refine (ih.argumentList (count + 1) c').bind fun arguments _ => covers_pure ?_
          rw [w.ofExprs_cons]
          omega
        · refine covers_pure ?_
          rw [w.ofExprs_cons, w.ofExprs_nil]
          omega
      case primary => exact covers_primary ih

theorem covers_expression : expression.Covers w c 0 w.ofExpr :=
  .budgeted expressionWithin ((expressionCovers w c.budget).expression c)

end Parser

end Lox
