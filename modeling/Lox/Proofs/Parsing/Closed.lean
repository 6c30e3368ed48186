import Lox.Proofs.Parsing.ExpressionAcceptance
import Lox.Proofs.Renumbering.Follow

set_option autoImplicit false

/-! # Expressions before a semicolon

An expression that ends with the tokens is read in the same way when a semicolon comes after it:
no expression goes on with a semicolon, and none goes on at the end of the tokens. The two runs also
note the same errors (`Parser.closes_expression`), so an expression by itself and an expression as a
statement differ only in what is done with these errors.
-/

namespace Lox

/-- The second cursor has a semicolon and more tokens after those of the first one. -/
structure Cursor.Closed (semicolon : Token) (more : List Token) (c c' : Cursor) : Prop where
  eof : c.eof.kind = .eof
  ahead : c'.ahead = c.ahead ++ semicolon :: more
  collected : c'.collected = c.collected

namespace Cursor.Closed

variable {semicolon : Token} {more : List Token} {c c' : Cursor}

/-- Both runs read the same token, unless the first one is at its end. -/
theorem advance (hc : c.Closed semicolon more c') (hahead : c.ahead ≠ []) :
    c.advance.Closed semicolon more c'.advance := by
  refine ⟨hc.eof, ?_, hc.collected⟩
  show c'.ahead.tail = c.ahead.tail ++ semicolon :: more
  rw [hc.ahead, List.tail_append_of_ne_nil hahead]

/-- A mark other than the semicolon is next in both runs or in none. -/
theorem isAtMark {m : Mark} (hc : c.Closed semicolon more c')
    (hsemicolon : semicolon.kind = .mark .semicolon) (hm : m ≠ .semicolon) :
    c'.isAtMark m = c.isAtMark m := by
  rw [Cursor.isAtMark, Cursor.isAtMark, hc.ahead]
  cases c.ahead with
  | nil =>
      show semicolon.kind.isMark m = false
      rw [hsemicolon, Token.Kind.isMark_mark]
      exact beq_false_of_ne fun h => hm h.symm
  | cons t ts => rfl

end Cursor.Closed

namespace Parser

/-! ## First tokens -/

/-- The parser gives no value at this cursor. -/
def GivesNothing {α : Type} (p : Parser α) (c : Cursor) : Prop := ∀ a c₁, p c ≠ .ok a c₁

theorem GivesNothing.bind {α β : Type} {p : Parser α} {c : Cursor} (h : p.GivesNothing c)
    (q : α → Parser β) : (p >>= q).GivesNothing c := by
  intro b c₂ hpq
  obtain ⟨a, c₁, hp, -⟩ := ok_of_bind hpq
  exact h a c₁ hp

/-- The parsers that read the first token of an expression give nothing at any other token. -/
structure ExpressionStarts (c : Cursor) (b : Nat) : Prop where
  expression : (expressionWithin b).GivesNothing c
  level : ∀ l : Level, (levelWithin b l).GivesNothing c
  operand : ∀ l : Level, (operandWithin b l).GivesNothing c
  unary : (unaryWithin b).GivesNothing c
  primary : (primaryWithin b).GivesNothing c

theorem primary_givesNothing {c : Cursor} (h : startsExpression c.peek.kind = false) (b : Nat) :
    (primaryWithin (b + 1)).GivesNothing c := by
  have hfails : primaryWithin (b + 1) c = fail .expression c := by
    rw [primaryWithin]
    refine (bind_of_ok (p := peek) rfl).trans ?_
    cases hkind : c.peek.kind with
    | mark m => cases m <;> first | rfl | (rw [hkind] at h; cases h)
    | keyword w => cases w <;> first | rfl | (rw [hkind] at h; cases h)
    | eof => rfl
    | _ =>
        rw [hkind] at h
        cases h
  intro e c₁ hprimary
  rw [hfails] at hprimary
  cases hprimary

theorem expressionStarts {c : Cursor} (h : startsExpression c.peek.kind = false) (b : Nat) :
    ExpressionStarts c b := by
  induction b with
  | zero => constructor <;> intros <;> intro e c₁ hrun <;> cases hrun
  | succ b ih =>
      refine ⟨?_, fun l => ?_, fun l => ?_, ?_, primary_givesNothing h b⟩
      · rw [expressionWithin]
        exact (ih.level .disjunction).bind _
      · rw [levelWithin]
        exact (ih.operand l).bind _
      · rw [operandWithin]
        cases l.tighter? with
        | some tighter => exact ih.level tighter
        | none => exact ih.unary
      · have hunary : UnaryOp.ofKind? c.peek.kind = none := by
          cases hkind : c.peek.kind with
          | mark m => cases m <;> first | rfl | (rw [hkind] at h; cases h)
          | _ => rfl
        have hrun : unaryWithin (b + 1) c =
            (primaryWithin b >>= fun callee => callRestWithin b callee) c := by
          rw [unaryWithin]
          refine (bind_of_ok (p := peek) rfl).trans ?_
          rw [hunary]
        intro e c₁ hgives
        rw [hrun] at hgives
        exact ih.primary.bind _ e c₁ hgives

theorem peek_kind_eq {c : Cursor} (heof : c.eof.kind = .eof) :
    c.peek.kind = nextKind c.ahead := by
  rw [Cursor.peek]
  cases c.ahead with
  | nil => exact heof
  | cons t ts => rfl

/-- An expression starts with a token that starts an expression. -/
theorem startsExpression_of_expression {c c₁ : Cursor} {e : Expr} (heof : c.eof.kind = .eof)
    (h : expression c = .ok e c₁) : startsExpression (nextKind c.ahead) = true := by
  rw [← peek_kind_eq heof, ← Bool.not_eq_false]
  intro hstarts
  exact (expressionStarts hstarts c.budget).expression e c₁ h

/-! ## Rules -/

section Rules

variable {α β : Type} {semicolon : Token} {more : List Token} {c : Cursor} {p p' : Parser α}
  {q q' : α → Parser β}

/-- What the first parser gives at a cursor, the second one gives where a semicolon follows. -/
def Closes (semicolon : Token) (more : List Token) (p p' : Parser α) (c : Cursor) : Prop :=
  ∀ c' a c₁, c.Closed semicolon more c' → p c = .ok a c₁ →
    ∃ c₁', p' c' = .ok a c₁' ∧ c₁.Closed semicolon more c₁'

theorem Closes.of_givesNothing (h : p.GivesNothing c) : Closes semicolon more p p' c := by
  intro c' a c₁ _ hp
  exact absurd hp (h a c₁)

theorem closes_pure (a : α) : Closes semicolon more (pure a) (pure a) c := by
  rintro c' _ _ hc ⟨⟩
  exact ⟨c', rfl, hc⟩

/-- One parser after another. -/
theorem Closes.bind (hp : Closes semicolon more p p' c)
    (hq : ∀ a c₁, Closes semicolon more (q a) (q' a) c₁) :
    Closes semicolon more (p >>= q) (p' >>= q') c := by
  intro c' b c₂ hc h
  obtain ⟨a, c₁, hpc, hqc⟩ := ok_of_bind h
  obtain ⟨c₁', hp', hc₁⟩ := hp c' a c₁ hc hpc
  obtain ⟨c₂', hq', hc₂⟩ := hq a c₁ c₁' b c₂ hc₁ hqc
  exact ⟨c₂', (bind_of_ok hp').trans hq', hc₂⟩

/-- A parser that runs with the budget that its tokens call for. -/
theorem Closes.budgeted (run run' : Nat → Parser α)
    (h : ∀ b k, Closes semicolon more (run b) (run' (b + k)) c) :
    Closes semicolon more (fun c => run c.budget c) (fun c => run' c.budget c) c := by
  intro c' a c₁ hc hrun
  have hle : c.budget ≤ c'.budget := by
    rw [Cursor.budget, Cursor.budget, hc.ahead, List.length_append]
    omega
  obtain ⟨k, hk⟩ := Nat.exists_eq_add_of_le hle
  show ∃ c₁', run' c'.budget c' = _ ∧ _
  rw [hk]
  exact h c.budget k c' a c₁ hc hrun

/-- Looking at the next token: it is the same one in both runs, or one run is at its end where the
other one has the semicolon. -/
theorem Closes.peek {q q' : Token → Parser β}
    (hnext : ∀ t ts, c.ahead = t :: ts → Closes semicolon more (q t) (q' t) c)
    (hend : c.ahead = [] → c.eof.kind = .eof →
      Closes semicolon more (q c.eof) (q' semicolon) c) :
    Closes semicolon more (peek >>= q) (peek >>= q') c := by
  intro c' b c₁ hc h
  have h : q c.peek c = .ok b c₁ := h
  have hpeek : ∀ t, c'.peek = t → (Parser.peek >>= q') c' = q' t c' := by
    rintro _ rfl
    rfl
  cases hahead : c.ahead with
  | nil =>
      have hpeek' : c'.peek = semicolon := by rw [Cursor.peek, hc.ahead, hahead]; rfl
      rw [Cursor.peek, hahead] at h
      rw [hpeek semicolon hpeek']
      exact hend hahead hc.eof c' b c₁ hc h
  | cons t ts =>
      have hpeek' : c'.peek = t := by rw [Cursor.peek, hc.ahead, hahead]; rfl
      rw [Cursor.peek, hahead] at h
      rw [hpeek t hpeek']
      exact hnext t ts hahead c' b c₁ hc h

theorem closes_advance {t : Token} {ts : List Token} (hahead : c.ahead = t :: ts) :
    Closes semicolon more advance advance c := by
  rintro c' _ _ hc ⟨⟩
  have hpeek : c'.peek = c.peek := by
    rw [Cursor.peek, Cursor.peek, hc.ahead, hahead]
    rfl
  refine ⟨c'.advance, ?_, hc.advance (hahead ▸ List.cons_ne_nil t ts)⟩
  rw [Parser.advance, hpeek]

theorem closes_report (cause : ParseError.Cause) (token : Token) :
    Closes semicolon more (report cause token) (report cause token) c := by
  rintro c' _ _ hc ⟨⟩
  refine ⟨_, rfl, hc.eof, hc.ahead, ?_⟩
  show c'.collected ++ [_] = c.collected ++ [_]
  rw [hc.collected]

variable {m : Mark}

theorem ahead_ne_nil_of_isAtMark (h : c.isAtMark m = true) : c.ahead ≠ [] := by
  obtain ⟨t, ts, hahead, -⟩ := isAtMark_iff.1 h
  rw [hahead]
  exact List.cons_ne_nil t ts

theorem closes_checkMark (hsemicolon : semicolon.kind = .mark .semicolon)
    (hm : m ≠ .semicolon) : Closes semicolon more (checkMark m) (checkMark m) c := by
  rintro c' _ _ hc ⟨⟩
  refine ⟨c', ?_, hc⟩
  rw [checkMark, hc.isAtMark hsemicolon hm]

theorem closes_expectMark (hsemicolon : semicolon.kind = .mark .semicolon)
    (hm : m ≠ .semicolon) (cause : ParseError.Cause) :
    Closes semicolon more (expectMark m cause) (expectMark m cause) c := by
  intro c' a c₁ hc h
  rw [expectMark] at h
  split at h
  · rename_i hmark
    cases h
    have hahead := ahead_ne_nil_of_isAtMark hmark
    obtain ⟨t, ts, ht, -⟩ := isAtMark_iff.1 hmark
    have hpeek : c'.peek = c.peek := by
      rw [Cursor.peek, Cursor.peek, hc.ahead, ht]
      rfl
    refine ⟨c'.advance, ?_, hc.advance hahead⟩
    rw [expectMark, hc.isAtMark hsemicolon hm, if_pos hmark, hpeek]
  · cases h

theorem closes_expectName (cause : ParseError.Cause) :
    Closes semicolon more (expectName cause) (expectName cause) c := by
  intro c' a c₁ hc h
  cases hahead : c.ahead with
  | nil =>
      rw [expectName, hahead] at h
      cases h
  | cons t ts =>
      have hadvance := hc.advance (hahead ▸ List.cons_ne_nil t ts)
      obtain ⟨kind, lexeme, line, start⟩ := t
      rw [expectName, hahead] at h
      rw [expectName, hc.ahead, hahead]
      cases kind <;> cases h
      exact ⟨_, rfl, hadvance⟩

/-- A choice by whether a mark is next, other than the semicolon. -/
theorem Closes.byMark {yes yes' no no' : Parser β}
    (hsemicolon : semicolon.kind = .mark .semicolon) (hm : m ≠ .semicolon)
    (hyes : c.ahead ≠ [] → ∀ c₁, Closes semicolon more yes yes' c₁)
    (hno : Closes semicolon more no no' c) :
    Closes semicolon more (acceptMark m >>= fun b => if b = true then yes else no)
      (acceptMark m >>= fun b => if b = true then yes' else no') c := by
  intro c' b c₁ hc h
  have hmark' := hc.isAtMark hsemicolon hm
  by_cases hmark : c.isAtMark m = true
  · have hahead := ahead_ne_nil_of_isAtMark hmark
    have haccept : acceptMark m c = .ok true c.advance := by rw [acceptMark, if_pos hmark]
    have haccept' : acceptMark m c' = .ok true c'.advance := by
      rw [acceptMark, if_pos (hmark'.trans hmark)]
    rw [bind_of_ok haccept] at h
    rw [bind_of_ok haccept']
    exact hyes hahead c.advance c'.advance b c₁ (hc.advance hahead) h
  · have haccept : acceptMark m c = .ok false c := by rw [acceptMark, if_neg hmark]
    have haccept' : acceptMark m c' = .ok false c' := by
      rw [acceptMark, hmark', if_neg hmark]
    rw [bind_of_ok haccept] at h
    rw [bind_of_ok haccept']
    exact hno c' b c₁ hc h

end Rules

/-! ## Expressions -/

/-- What the expression parsers do with a budget, and before a semicolon with a larger one. -/
structure ExpressionCloses (semicolon : Token) (more : List Token) (k b : Nat) : Prop where
  expression : ∀ c, Closes semicolon more (expressionWithin b) (expressionWithin (b + k)) c
  level : ∀ (l : Level) c, Closes semicolon more (levelWithin b l) (levelWithin (b + k) l) c
  levelRest : ∀ (l : Level) (left : Expr) c,
    Closes semicolon more (levelRestWithin b l left) (levelRestWithin (b + k) l left) c
  operand : ∀ (l : Level) c, Closes semicolon more (operandWithin b l) (operandWithin (b + k) l) c
  unary : ∀ c, Closes semicolon more (unaryWithin b) (unaryWithin (b + k)) c
  callRest : ∀ (callee : Expr) c,
    Closes semicolon more (callRestWithin b callee) (callRestWithin (b + k) callee) c
  arguments : ∀ c, Closes semicolon more (argumentsWithin b) (argumentsWithin (b + k)) c
  argumentList : ∀ (count : Nat) c,
    Closes semicolon more (argumentListWithin b count) (argumentListWithin (b + k) count) c
  primary : ∀ c, Closes semicolon more (primaryWithin b) (primaryWithin (b + k)) c

section Steps

variable {semicolon : Token} {more : List Token} {k b : Nat} {c : Cursor}
  (hsemicolon : semicolon.kind = .mark .semicolon)

theorem closes_assignTo (left value : Expr) (equals : Token) :
    Closes semicolon more (assignTo left value equals) (assignTo left value equals) c := by
  cases left with
  | «variable» name => exact closes_pure _
  | get object property => exact closes_pure _
  | _ => exact (closes_report _ _).bind fun _ _ => closes_pure _

theorem closes_operand_step (ih : ExpressionCloses semicolon more k b) (l : Level) :
    Closes semicolon more (operandWithin (b + 1) l) (operandWithin (b + k + 1) l) c := by
  rw [operandWithin, operandWithin]
  cases l.tighter? with
  | some tighter => exact ih.level tighter c
  | none => exact ih.unary c

include hsemicolon

theorem closes_expression_step (ih : ExpressionCloses semicolon more k b) :
    Closes semicolon more (expressionWithin (b + 1)) (expressionWithin (b + k + 1)) c := by
  rw [expressionWithin, expressionWithin]
  refine (ih.level .disjunction c).bind fun left c₁ => .peek (fun equals ts _ => ?_) ?_
  · refine .byMark hsemicolon (by decide) (fun _ c₂ => ?_) (closes_pure left)
    exact (ih.expression c₂).bind fun value c₃ => closes_assignTo left value equals
  · -- At the end there is no equals sign, so that it does not matter what is there.
    intro hahead _
    exact .byMark hsemicolon (by decide) (fun hne => absurd hahead hne) (closes_pure left)

theorem closes_levelRest_step (ih : ExpressionCloses semicolon more k b) (l : Level)
    (left : Expr) :
    Closes semicolon more (levelRestWithin (b + 1) l left)
      (levelRestWithin (b + k + 1) l left) c := by
  rw [levelRestWithin, levelRestWithin]
  refine .peek (fun token ts hahead => ?_) fun _ heof => ?_
  · cases l.operator? token.kind with
    | none => exact closes_pure left
    | some op =>
        refine (closes_advance hahead).bind fun _ c₁ => ?_
        exact (ih.operand l c₁).bind fun right c₂ => ih.levelRest l _ c₂
  · rw [heof, hsemicolon]
    cases l <;> exact closes_pure left

theorem closes_unary_step (ih : ExpressionCloses semicolon more k b) :
    Closes semicolon more (unaryWithin (b + 1)) (unaryWithin (b + k + 1)) c := by
  have hcall : Closes semicolon more
      (primaryWithin b >>= fun callee => callRestWithin b callee)
      (primaryWithin (b + k) >>= fun callee => callRestWithin (b + k) callee) c :=
    (ih.primary c).bind fun callee c₁ => ih.callRest callee c₁
  rw [unaryWithin, unaryWithin]
  refine .peek (fun token ts hahead => ?_) fun _ heof => ?_
  · cases UnaryOp.ofKind? token.kind with
    | none => exact hcall
    | some op =>
        refine (closes_advance hahead).bind fun _ c₁ => ?_
        exact (ih.unary c₁).bind fun operand c₂ => closes_pure _
  · rw [heof, hsemicolon]
    exact hcall

theorem closes_callRest_step (ih : ExpressionCloses semicolon more k b) (callee : Expr) :
    Closes semicolon more (callRestWithin (b + 1) callee)
      (callRestWithin (b + k + 1) callee) c := by
  rw [callRestWithin, callRestWithin]
  refine .byMark hsemicolon (by decide) (fun _ c₁ => ?_)
    (.byMark hsemicolon (by decide) (fun _ c₁ => ?_) (closes_pure callee))
  · refine (ih.arguments c₁).bind fun arguments c₂ => ?_
    refine (closes_expectMark hsemicolon (by decide) _).bind fun closing c₃ => ?_
    exact ih.callRest _ c₃
  · exact (closes_expectName _).bind fun property c₂ => ih.callRest _ c₂

theorem closes_arguments_step (ih : ExpressionCloses semicolon more k b) :
    Closes semicolon more (argumentsWithin (b + 1)) (argumentsWithin (b + k + 1)) c := by
  rw [argumentsWithin, argumentsWithin]
  refine (closes_checkMark hsemicolon (by decide)).bind fun closes c₁ => ?_
  cases closes with
  | true => exact closes_pure []
  | false => exact ih.argumentList 0 c₁

theorem closes_argumentList_step (ih : ExpressionCloses semicolon more k b) (count : Nat) :
    Closes semicolon more (argumentListWithin (b + 1) count)
      (argumentListWithin (b + k + 1) count) c := by
  have hlist : ∀ c₁, Closes semicolon more
      (do
        let argument ← expressionWithin b
        if ← acceptMark .comma then
          let arguments ← argumentListWithin b (count + 1)
          pure (argument :: arguments)
        else
          pure [argument] : Parser (List Expr))
      (do
        let argument ← expressionWithin (b + k)
        if ← acceptMark .comma then
          let arguments ← argumentListWithin (b + k) (count + 1)
          pure (argument :: arguments)
        else
          pure [argument]) c₁ := by
    intro c₁
    refine (ih.expression c₁).bind fun argument c₂ => ?_
    refine .byMark hsemicolon (by decide) (fun _ c₃ => ?_) (closes_pure [argument])
    exact (ih.argumentList (count + 1) c₃).bind fun arguments c₄ => closes_pure _
  rw [argumentListWithin, argumentListWithin]
  split
  · refine .peek (fun token ts _ => ?_) fun hahead heof => ?_
    · exact (closes_report _ token).bind fun _ c₁ => hlist c₁
    · -- The runs note different tokens here, but no argument starts at the end.
      refine .of_givesNothing fun es c₁ hrun => ?_
      have hstarts : startsExpression (c.collect ⟨.tooManyArguments, c.eof⟩).peek.kind = false := by
        have hpeek : (c.collect ⟨.tooManyArguments, c.eof⟩).peek = c.eof := by
          have hnone : (c.collect ⟨.tooManyArguments, c.eof⟩).ahead = [] := hahead
          rw [Cursor.peek, hnone]
          rfl
        rw [hpeek, heof]
        rfl
      exact (expressionStarts hstarts b).expression.bind _ es c₁ hrun
  · exact hlist c

theorem closes_primary_step (ih : ExpressionCloses semicolon more k b) :
    Closes semicolon more (primaryWithin (b + 1)) (primaryWithin (b + k + 1)) c := by
  rw [primaryWithin, primaryWithin]
  refine .peek (fun token ts hahead => ?_) fun _ heof => ?_
  · cases Literal.ofKind? token.kind with
    | some value => exact (closes_advance hahead).bind fun _ _ => closes_pure _
    | none =>
        dsimp only
        split
        · exact (closes_advance hahead).bind fun _ _ => closes_pure _
        · refine (closes_advance hahead).bind fun _ c₁ => ?_
          refine (closes_expectMark hsemicolon (by decide) _).bind fun _ c₂ => ?_
          exact (closes_expectName _).bind fun method c₃ => closes_pure _
        · exact (closes_advance hahead).bind fun _ _ => closes_pure _
        · refine (closes_advance hahead).bind fun _ c₁ => (ih.expression c₁).bind fun e c₂ => ?_
          exact (closes_expectMark hsemicolon (by decide) _).bind fun _ c₃ => closes_pure _
        · exact .of_givesNothing (by rintro _ _ ⟨⟩)
  · rw [heof]
    exact .of_givesNothing (by rintro _ _ ⟨⟩)

theorem expressionCloses (more : List Token) (k b : Nat) :
    ExpressionCloses semicolon more k b := by
  induction b with
  | zero =>
      constructor <;> intros <;> exact .of_givesNothing nofun
  | succ b ih =>
      have hk : b + 1 + k = b + k + 1 := Nat.add_right_comm b 1 k
      constructor <;> rw [hk]
      · exact fun c => closes_expression_step hsemicolon ih
      · intro l c
        rw [levelWithin, levelWithin]
        exact (ih.operand l c).bind fun left c₁ => ih.levelRest l left c₁
      · exact fun l left c => closes_levelRest_step hsemicolon ih l left
      · exact fun l c => closes_operand_step ih l
      · exact fun c => closes_unary_step hsemicolon ih
      · exact fun callee c => closes_callRest_step hsemicolon ih callee
      · exact fun c => closes_arguments_step hsemicolon ih
      · exact fun count c => closes_argumentList_step hsemicolon ih count
      · exact fun c => closes_primary_step hsemicolon ih

/-- An expression is read before a semicolon as it is read at the end of the tokens. -/
theorem closes_expression (more : List Token) (c : Cursor) :
    Closes semicolon more expression expression c :=
  .budgeted _ _ fun b k => (expressionCloses hsemicolon more k b).expression c

end Steps

end Parser

end Lox
