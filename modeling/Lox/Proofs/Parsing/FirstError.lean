import Lox.Proofs.Grammar.Viable
import Lox.Proofs.Parsing.Alone
import Lox.Proofs.Parsing.Halting

set_option autoImplicit false

/-! # Errors at the first impossible token

Wherever an expression parser fails, what was read so far can be completed, and nothing can be
completed that goes on with the token after it (`Blocked`). Where it succeeds, what it read is a
relaxed expression, and the token after that could not have gone on with it. Both hold at every
place in an expression, whatever parentheses are open there.
-/

namespace Lox

open Grammar

namespace Parser

/-! ## What may come after -/

namespace Settled

variable {l : Level} {k : Token.Kind}

/-- The next looser operators come after the operators of a level. -/
theorem operand_of_tighter {tighter : Level} (htighter : l.tighter? = some tighter)
    (h : Settled (levelDepth tighter) k) : Settled (levelDepth l - 1) k := by
  have hdepth := levelDepth_tighter htighter
  refine ⟨fun l' hl' => h.noOperator l' ?_, h.noCall, h.noAccess⟩
  cases l <;> cases htighter <;> cases l' <;> revert hl' <;> decide

theorem operand_of_tightest (htightest : l.tighter? = none) (h : Settled 2 k) :
    Settled (levelDepth l - 1) k := by
  refine ⟨fun l' hl' => ?_, h.noCall, h.noAccess⟩
  cases l <;> cases htightest
  cases l' <;> exact absurd hl' (by decide)

/-- A level is settled where its operands are and none of its operators follows. -/
theorem level_of_operand (h : Settled (levelDepth l - 1) k) (hop : l.operator? k = none) :
    Settled (levelDepth l) k := by
  refine ⟨fun l' hl' => ?_, h.noCall, h.noAccess⟩
  by_cases hsame : l' = l
  · rw [hsame]
    exact hop
  · refine h.noOperator l' ?_
    cases l <;> cases l' <;> revert hl' <;> first | decide | exact absurd rfl hsame

/-- Nothing is looser than a disjunction but an assignment. -/
theorem whole (h : Settled 14 k) : Settled 15 k :=
  ⟨fun l _ => h.noOperator l (levelDepth_le l), h.noCall, h.noAccess⟩

end Settled

/-- Where an expression ends, the automaton goes on only with what closes or separates. -/
theorem step_operator_eq_none {opened : List Bracket} {k : Token.Kind} (h : EndsExpression k)
    (hclosing : k = .mark .rightParen → opened = [])
    (hcomma : k = .mark .comma → ∀ outer, opened ≠ .call :: outer)
    (heof : k = .eof → opened ≠ []) : (Outlook.mk .operator opened).step k = none := by
  have hnone : isInfix k = false :=
    isInfix_eq_false fun l => h.1.noOperator l (Nat.le_trans (levelDepth_le l) (by decide))
  show Outlook.operatorStep opened k = none
  unfold Outlook.operatorStep
  split
  · exact absurd rfl h.1.noAccess
  · exact absurd rfl h.1.noCall
  · exact absurd rfl h.2
  · exact absurd (hclosing rfl) (List.cons_ne_nil _ _)
  · exact absurd rfl (hcomma rfl _)
  · exact absurd rfl (heof rfl)
  · rw [hnone]
    rfl

/-- Where an operand is due, only what starts a primary expression or a unary operator goes on. -/
theorem step_operand_eq_none {opened : List Bracket} {k : Token.Kind}
    (hoperator : UnaryOp.ofKind? k = none) (hliteral : Literal.ofKind? k = none)
    (hthis : k ≠ .keyword .thisWord) (hsuper : k ≠ .keyword .superWord)
    (hname : k ≠ .identifier) (hgroup : k ≠ .mark .leftParen) :
    (Outlook.mk .operand opened).step k = none := by
  show Outlook.operandStep opened k = none
  unfold Outlook.operandStep
  split <;> first | rfl | contradiction

/-! ## Blocked prefixes -/

/-- More tokens can make it what is wanted. -/
def Completable (wanted : List Token → Prop) (ts : List Token) : Prop :=
  ∃ more, wanted (ts ++ more)

/-- What was read can be completed to what is wanted, but not with the token after it: there the
automaton is stuck, whatever is open. -/
def Blocked (o : List Bracket → Outlook) (wanted : List Token → Prop) (ts : List Token)
    (t : Token) : Prop :=
  Completable wanted ts ∧ ∀ opened, (o opened).run (ts ++ [t]) = none

section Blocked

variable {o o' : List Bracket → Outlook} {wanted wanted' : List Token → Prop}
  {ts us more : List Token} {t : Token}

theorem Completable.of (h : wanted ts) : Completable wanted ts :=
  ⟨[], by rwa [List.append_nil]⟩

theorem Blocked.here (hstep : ∀ opened, (o opened).step t.kind = none) (h : wanted more) :
    Blocked o wanted [] t := by
  refine ⟨⟨more, h⟩, fun opened => ?_⟩
  rw [List.nil_append, Outlook.run, hstep]
  rfl

/-- What is blocked after some tokens is blocked. -/
theorem Blocked.after (h : Blocked o' wanted' us t) (ts : List Token)
    (hrun : ∀ opened, ∃ opened', (o opened).run ts = some (o' opened'))
    (hwanted : ∀ vs, wanted' vs → Completable wanted (ts ++ vs)) :
    Blocked o wanted (ts ++ us) t := by
  obtain ⟨⟨more, hmore⟩, hstuck⟩ := h
  obtain ⟨more', hmore'⟩ := hwanted _ hmore
  refine ⟨⟨more ++ more', ?_⟩, fun opened => ?_⟩
  · rwa [List.append_assoc, ← List.append_assoc us, ← List.append_assoc]
  · obtain ⟨opened', hopened⟩ := hrun opened
    rw [List.append_assoc, Outlook.run_append_of_run hopened]
    exact hstuck opened'

/-- What is blocked inside is blocked in what begins with it. -/
theorem Blocked.mono (h : Blocked o wanted ts t)
    (hwanted : ∀ vs, wanted vs → Completable wanted' vs) : Blocked o wanted' ts t :=
  h.after [] (fun opened => ⟨opened, rfl⟩) hwanted

/-- A name that can stand wherever one has to. -/
def anyName : Token := ⟨.identifier, "", 0, 0⟩

/-- After a dot. -/
theorem blocked_property (h : t.kind ≠ .identifier) :
    Blocked (.mk .property) (· = [anyName]) [] t :=
  .here (fun _ => Outlook.step_property_eq_none h) rfl

/-- After an expression in parentheses that are not closed. -/
theorem blocked_unclosed {bracket : Bracket} (hends : EndsExpression t.kind)
    (hclosing : t.kind ≠ .mark .rightParen) (hcomma : bracket = .call → t.kind ≠ .mark .comma) :
    Blocked (fun opened => .mk .operator (bracket :: opened)) (· = []) [] t := by
  refine .here (fun opened => ?_) rfl
  refine step_operator_eq_none hends (absurd · hclosing) (fun hkind outer heq => ?_)
    fun _ => List.cons_ne_nil _ _
  exact hcomma (List.cons.inj heq).1 hkind

end Blocked

/-! ## The expression parsers -/

/-- Where the expression parsers stop with a budget. -/
structure ExpressionHalts (b : Nat) : Prop where
  expression : ∀ c : Cursor, c.eof.kind = .eof → (expressionWithin b).Halts c
    (fun ts t => Relaxed .assignment ts ∧ EndsExpression t.kind)
    (Blocked (.mk .operand) (Relaxed .assignment))
  level : ∀ (l : Level) (c : Cursor), c.eof.kind = .eof → (levelWithin b l).Halts c
    (fun ts t => Relaxed (levelSymbol l) ts ∧ Settled (levelDepth l) t.kind)
    (Blocked (.mk .operand) (Relaxed (levelSymbol l)))
  levelRest : ∀ (l : Level) (left : Expr) (c : Cursor), c.eof.kind = .eof →
    Settled (levelDepth l - 1) c.peek.kind → (levelRestWithin b l left).Halts c
    (fun ts t => Repeats (MoreOperands Relaxed l) ts ∧ Settled (levelDepth l) t.kind)
    (Blocked (.mk .operator) (Repeats (MoreOperands Relaxed l)))
  operand : ∀ (l : Level) (c : Cursor), c.eof.kind = .eof → (operandWithin b l).Halts c
    (fun ts t => Relaxed (operandSymbol l) ts ∧ Settled (levelDepth l - 1) t.kind)
    (Blocked (.mk .operand) (Relaxed (operandSymbol l)))
  unary : ∀ c : Cursor, c.eof.kind = .eof → (unaryWithin b).Halts c
    (fun ts t => Relaxed .unary ts ∧ Settled 2 t.kind)
    (Blocked (.mk .operand) (Relaxed .unary))
  callRest : ∀ (callee : Expr) (c : Cursor), c.eof.kind = .eof → (callRestWithin b callee).Halts c
    (fun ts t => Repeats (CallSuffix Relaxed) ts ∧ Settled 2 t.kind)
    (Blocked (.mk .operator) (Repeats (CallSuffix Relaxed)))
  arguments : ∀ c : Cursor, c.eof.kind = .eof → (argumentsWithin b).Halts c
    (fun ts t => (ts = [] ∧ t.kind = .mark .rightParen) ∨
      (Relaxed .arguments ts ∧ EndsExpression t.kind ∧ t.kind ≠ .mark .comma))
    (Blocked (fun opened => .mk .arguments (.call :: opened)) (Relaxed .arguments))
  argumentList : ∀ (count : Nat) (c : Cursor), c.eof.kind = .eof →
    (argumentListWithin b count).Halts c
    (fun ts t => Relaxed .arguments ts ∧ EndsExpression t.kind ∧ t.kind ≠ .mark .comma)
    (Blocked (fun opened => .mk .operand (.call :: opened)) (Relaxed .arguments))
  primary : ∀ c : Cursor, c.eof.kind = .eof → UnaryOp.ofKind? c.peek.kind = none →
    (primaryWithin b).Halts c
    (fun ts _ => Relaxed .primary ts)
    (Blocked (.mk .operand) (Relaxed .primary))

variable {b : Nat} {c : Cursor}

theorem halts_assignTo {left value : Expr} {equals : Token}
    {done stuck : List Token → Token → Prop} (h : done [] c.peek) :
    (assignTo left value equals).Halts c done stuck := by
  unfold assignTo
  split
  · exact .pure h
  · exact .pure h
  · refine .report fun c' es hreach hpeek => .pure ?_
    rw [hpeek]
    exact h

theorem run_equal {equals : Token} {ts : List Token} (hequals : equals.kind = .mark .equal)
    (h : Relaxed .logicOr ts) (opened : List Bracket) :
    (Outlook.mk .operand opened).run (ts ++ [equals]) = some ⟨.operand, opened⟩ := by
  have hleads : Leads ts := leadsFrom_of_relaxed h
  rw [Outlook.run_append_of_run (hleads opened), Outlook.run, hequals]
  rfl

theorem halts_expression_step (ih : ExpressionHalts b) (hc : c.eof.kind = .eof) :
    (expressionWithin (b + 1)).Halts c
      (fun ts t => Relaxed .assignment ts ∧ EndsExpression t.kind)
      (Blocked (.mk .operand) (Relaxed .assignment)) := by
  rw [expressionWithin]
  refine .bind ((ih.level .disjunction c hc).mono (fun _ _ => id) fun ts t hblocked => ?_) ?_
  · exact hblocked.mono fun vs hvs => .of (.assignment hvs)
  rintro left c₁ ts es hreach ⟨hleft, hnext⟩
  have hc₁ := hreach.eof_kind hc
  refine .peek (.byMark hc₁ ?_ ?_)
  · intro equals c₂ hreach₂ _ hequals
    have hc₂ := hreach₂.eof_kind hc₁
    refine .bind ((ih.expression c₂ hc₂).mono (fun _ _ => id) fun us t hblocked => ?_) ?_
    · rw [← List.append_assoc]
      have hrun := run_equal hequals hleft
      refine hblocked.after _ (fun opened => ⟨opened, hrun opened⟩) fun vs hvs => ?_
      rw [List.append_assoc]
      exact .of (hleft.assign hequals hvs)
    · rintro value c₃ us fs _ ⟨hvalue, hends⟩
      refine halts_assignTo ⟨?_, hends⟩
      rw [List.append_nil]
      exact hleft.assign hequals hvalue
  · intro hequal
    refine .pure ⟨?_, hnext.whole, hequal⟩
    rw [List.append_nil]
    exact .assignment hleft

theorem halts_level_step (ih : ExpressionHalts b) (l : Level) (hc : c.eof.kind = .eof) :
    (levelWithin (b + 1) l).Halts c
      (fun ts t => Relaxed (levelSymbol l) ts ∧ Settled (levelDepth l) t.kind)
      (Blocked (.mk .operand) (Relaxed (levelSymbol l))) := by
  rw [levelWithin]
  refine .bind ((ih.operand l c hc).mono (fun _ _ => id) fun ts t hblocked => ?_) ?_
  · refine hblocked.mono fun vs hvs => ⟨[], .level hvs .nil⟩
  rintro left c₁ ts es hreach ⟨hleft, hnext⟩
  have hleads : Leads ts := leadsFrom_operandSymbol.1 (leadsFrom_of_relaxed hleft)
  refine (ih.levelRest l left c₁ (hreach.eof_kind hc) hnext).mono ?_ ?_
  · rintro us t ⟨hrest, hsettled⟩
    exact ⟨.level hleft hrest, hsettled⟩
  · intro us t hblocked
    exact hblocked.after _ (fun opened => ⟨opened, hleads opened⟩)
      fun vs hvs => .of (.level hleft hvs)

/-- A token that the parser goes on with is not the end of the source. -/
theorem operator?_eof (l : Level) : l.operator? .eof = none := by
  cases l <;> rfl

theorem halts_levelRest_step (ih : ExpressionHalts b) (l : Level) (left : Expr)
    (hc : c.eof.kind = .eof) (hnext : Settled (levelDepth l - 1) c.peek.kind) :
    (levelRestWithin (b + 1) l left).Halts c
      (fun ts t => Repeats (MoreOperands Relaxed l) ts ∧ Settled (levelDepth l) t.kind)
      (Blocked (.mk .operator) (Repeats (MoreOperands Relaxed l))) := by
  rw [levelRestWithin]
  refine .peek ?_
  cases hop : l.operator? c.peek.kind with
  | none => exact .pure ⟨.nil, hnext.level_of_operand hop⟩
  | some op =>
      have hkind : c.peek.kind ≠ .eof := by
        intro heof
        rw [heof, operator?_eof] at hop
        cases hop
      refine .advance hc hkind fun c₁ hreach => ?_
      have hc₁ := hreach.eof_kind hc
      have hstep : ∀ opened, (Outlook.mk .operator opened).run [c.peek] =
          some ⟨.operand, opened⟩ := by
        intro opened
        rw [Outlook.run_cons_of_step (Outlook.step_operator hop)]
        rfl
      refine .bind ((ih.operand l c₁ hc₁).mono (fun _ _ => id) fun ts t hblocked => ?_) ?_
      · refine hblocked.after _ (fun opened => ⟨opened, hstep opened⟩) fun vs hvs => ?_
        have hitem : MoreOperands Relaxed l ([c.peek] ++ vs) := ⟨_, op, vs, rfl, hop, hvs⟩
        exact ⟨[], .cons hitem .nil⟩
      rintro right c₂ ts es hreach₂ ⟨hright, hnext₂⟩
      have hitem : MoreOperands Relaxed l ([c.peek] ++ ts) := ⟨_, op, ts, rfl, hop, hright⟩
      refine (ih.levelRest l _ c₂ (hreach₂.eof_kind hc₁) hnext₂).mono ?_ ?_
      · rintro us t ⟨hrest, hsettled⟩
        rw [← List.append_assoc]
        exact ⟨.cons hitem hrest, hsettled⟩
      · intro us t hblocked
        rw [← List.append_assoc]
        have hleads : Leads ts := leadsFrom_operandSymbol.1 (leadsFrom_of_relaxed hright)
        refine hblocked.after _ (fun opened => ⟨opened, ?_⟩) fun vs hvs => .of (.cons hitem hvs)
        rw [Outlook.run_append_of_run (hstep opened)]
        exact hleads opened

theorem halts_operand_step (ih : ExpressionHalts b) (l : Level) (hc : c.eof.kind = .eof) :
    (operandWithin (b + 1) l).Halts c
      (fun ts t => Relaxed (operandSymbol l) ts ∧ Settled (levelDepth l - 1) t.kind)
      (Blocked (.mk .operand) (Relaxed (operandSymbol l))) := by
  rw [operandWithin]
  cases htighter : l.tighter? with
  | some tighter =>
      have hsymbol : operandSymbol l = levelSymbol tighter := by rw [operandSymbol, htighter]
      rw [hsymbol]
      refine (ih.level tighter c hc).mono (fun ts t h => ?_) fun _ _ => id
      exact ⟨h.1, h.2.operand_of_tighter htighter⟩
  | none =>
      have hsymbol : operandSymbol l = .unary := by rw [operandSymbol, htighter]
      rw [hsymbol]
      refine (ih.unary c hc).mono (fun ts t h => ?_) fun _ _ => id
      exact ⟨h.1, h.2.operand_of_tightest htighter⟩

theorem halts_unary_step (ih : ExpressionHalts b) (hc : c.eof.kind = .eof) :
    (unaryWithin (b + 1)).Halts c
      (fun ts t => Relaxed .unary ts ∧ Settled 2 t.kind)
      (Blocked (.mk .operand) (Relaxed .unary)) := by
  rw [unaryWithin]
  refine .peek ?_
  cases hop : UnaryOp.ofKind? c.peek.kind with
  | some op =>
      have hkind : c.peek.kind ≠ .eof := by
        intro heof
        rw [heof] at hop
        cases hop
      refine .advance hc hkind fun c₁ hreach => ?_
      refine .bind ((ih.unary c₁ (hreach.eof_kind hc)).mono (fun _ _ => id)
        fun ts t hblocked => ?_) ?_
      · refine hblocked.after _ (fun opened => ⟨opened, ?_⟩) fun vs hvs => .of (.unary hop hvs)
        rw [Outlook.run_cons_of_step (Outlook.step_unary hop)]
        rfl
      · rintro operand c₂ ts es _ ⟨hoperand, hsettled⟩
        refine .pure ⟨?_, hsettled⟩
        rw [List.append_nil]
        exact .unary hop hoperand
  | none =>
      refine .bind ((ih.primary c hc hop).mono (fun _ _ => id) fun ts t hblocked => ?_) ?_
      · exact hblocked.mono fun vs hvs => ⟨[], .call hvs .nil⟩
      intro callee c₁ ts es hreach hcallee
      have hleads : Leads ts := leadsFrom_of_relaxed hcallee
      refine (ih.callRest callee c₁ (hreach.eof_kind hc)).mono ?_ ?_
      · rintro us t ⟨hsuffixes, hsettled⟩
        exact ⟨.call hcallee hsuffixes, hsettled⟩
      · intro us t hblocked
        exact hblocked.after _ (fun opened => ⟨opened, hleads opened⟩)
          fun vs hvs => .of (.call hcallee hvs)

/-- One call or property access, before more of them. -/
theorem halts_callSuffix (ih : ExpressionHalts b) (callee : Expr) (hc : c.eof.kind = .eof)
    {ts : List Token} (hsuffix : CallSuffix Relaxed ts) :
    (callRestWithin b callee).Halts c
      (fun us t => Repeats (CallSuffix Relaxed) (ts ++ us) ∧ Settled 2 t.kind)
      (fun us t => Blocked (.mk .operator) (Repeats (CallSuffix Relaxed)) (ts ++ us) t) := by
  have hleads : CallSuffix LeadsFrom ts := by
    rcases hsuffix with ⟨opening, us, closing, hts, hopening, harguments, hclosing⟩ | hget
    · exact .inl ⟨opening, us, closing, hts, hopening, harguments.imp_right leadsFrom_of_relaxed,
        hclosing⟩
    · exact .inr hget
  refine (ih.callRest callee c hc).mono ?_ ?_
  · rintro us t ⟨hsuffixes, hsettled⟩
    exact ⟨.cons hsuffix hsuffixes, hsettled⟩
  · intro us t hblocked
    exact hblocked.after _ (fun opened => ⟨opened, run_callSuffix hleads opened⟩)
      fun vs hvs => .of (.cons hsuffix hvs)

/-- The rest of a call, after the opening parenthesis. -/
theorem halts_callRest_arguments (ih : ExpressionHalts b) (callee : Expr) {opening : Token}
    (hopening : opening.kind = .mark .leftParen) (hc : c.eof.kind = .eof) :
    (do
      let arguments ← argumentsWithin b
      let closing ← expectMark .rightParen .argumentsEnd
      callRestWithin b (.call callee arguments closing.line) : Parser Expr).Halts c
      (fun ts t => Repeats (CallSuffix Relaxed) ([opening] ++ ts) ∧ Settled 2 t.kind)
      (fun ts t => Blocked (.mk .operator) (Repeats (CallSuffix Relaxed)) ([opening] ++ ts) t) := by
  have hopen : ∀ opened, (Outlook.mk .operator opened).run [opening] =
      some ⟨.arguments, .call :: opened⟩ := by
    intro opened
    rw [Outlook.run, hopening]
    rfl
  have hsuffix : ∀ (vs : List Token) (closing : Token), (vs = [] ∨ Relaxed .arguments vs) →
      closing.kind = .mark .rightParen → CallSuffix Relaxed ([opening] ++ (vs ++ [closing])) :=
    fun vs closing hvs hclosing => .inl ⟨opening, vs, closing, rfl, hopening, hvs, hclosing⟩
  have hcompletable : ∀ vs, Relaxed .arguments vs →
      Completable (Repeats (CallSuffix Relaxed)) ([opening] ++ vs) := by
    intro vs hvs
    have hone := Repeats.cons (hsuffix vs (Mark.rightParen.token 0) (.inr hvs) rfl) .nil
    refine ⟨[Mark.rightParen.token 0], ?_⟩
    rwa [List.append_nil, ← List.append_assoc] at hone
  refine .bind ((ih.arguments c hc).mono (fun _ _ => id) fun ts t hblocked => ?_) ?_
  · exact hblocked.after _ (fun opened => ⟨opened, hopen opened⟩) hcompletable
  intro arguments c₁ ts es hreach harguments
  have hc₁ := hreach.eof_kind hc
  refine .expectMark hc₁ ?_ ?_
  · -- The call is complete, and more calls or accesses may follow.
    intro closing c₂ hreach₂ hclosing
    have hts : ts = [] ∨ Relaxed .arguments ts := harguments.imp And.left And.left
    refine (halts_callSuffix ih _ (hreach₂.eof_kind hc₁) (hsuffix ts closing hts hclosing)).mono
      ?_ ?_ <;>
    · intro us t h
      rwa [List.append_assoc, List.append_assoc] at h
  · intro hclosing
    rcases harguments with ⟨-, hkind⟩ | ⟨harguments, hends, hcomma⟩
    · exact absurd hkind hclosing
    have hrun : ∀ opened, (Outlook.mk .operator opened).run ([opening] ++ ts) =
        some ⟨.operator, .call :: opened⟩ := by
      intro opened
      rw [Outlook.run_append_of_run (hopen opened)]
      exact leadsFrom_of_relaxed harguments opened
    refine (blocked_unclosed hends hclosing fun _ => hcomma).after ([opening] ++ ts)
      (fun opened => ⟨opened, hrun opened⟩) ?_
    rintro _ rfl
    rw [List.append_nil]
    exact hcompletable ts harguments

/-- The rest of a property access, after the dot. -/
theorem halts_callRest_property (ih : ExpressionHalts b) (callee : Expr) {dot : Token}
    (hdot : dot.kind = .mark .dot) (hc : c.eof.kind = .eof) :
    (do
      let property ← expectName .propertyName
      callRestWithin b (.get callee property) : Parser Expr).Halts c
      (fun ts t => Repeats (CallSuffix Relaxed) ([dot] ++ ts) ∧ Settled 2 t.kind)
      (fun ts t => Blocked (.mk .operator) (Repeats (CallSuffix Relaxed)) ([dot] ++ ts) t) := by
  have hsuffix : ∀ t : Token, t.kind = .identifier → CallSuffix Relaxed [dot, t] :=
    fun t ht => .inr ⟨dot, t, rfl, hdot, ht⟩
  refine .expectName hc ?_ ?_
  · intro t c₁ hreach ht
    exact halts_callSuffix ih _ (hreach.eof_kind hc) (hsuffix t ht)
  · intro hname
    refine (blocked_property hname).after [dot] (fun opened => ⟨opened, ?_⟩) ?_
    · rw [Outlook.run, hdot]
      rfl
    · rintro _ rfl
      exact ⟨[], .cons (hsuffix anyName rfl) .nil⟩

theorem halts_callRest_step (ih : ExpressionHalts b) (callee : Expr) (hc : c.eof.kind = .eof) :
    (callRestWithin (b + 1) callee).Halts c
      (fun ts t => Repeats (CallSuffix Relaxed) ts ∧ Settled 2 t.kind)
      (Blocked (.mk .operator) (Repeats (CallSuffix Relaxed))) := by
  rw [callRestWithin]
  refine .byMark hc ?_ fun hcall => .byMark hc ?_ fun haccess => ?_
  · intro opening c₁ hreach _ hopening
    exact halts_callRest_arguments ih callee hopening (hreach.eof_kind hc)
  · intro dot c₁ hreach _ hdot
    exact halts_callRest_property ih callee hdot (hreach.eof_kind hc)
  · exact .pure ⟨.nil, fun l hl => absurd (Nat.le_trans (le_levelDepth l) hl) (by decide),
      hcall, haccess⟩

theorem halts_arguments_step (ih : ExpressionHalts b) (hc : c.eof.kind = .eof) :
    (argumentsWithin (b + 1)).Halts c
      (fun ts t => (ts = [] ∧ t.kind = .mark .rightParen) ∨
        (Relaxed .arguments ts ∧ EndsExpression t.kind ∧ t.kind ≠ .mark .comma))
      (Blocked (fun opened => .mk .arguments (.call :: opened)) (Relaxed .arguments)) := by
  rw [argumentsWithin]
  refine .checkMark hc ?_ ?_
  · intro hclosing
    exact .pure (.inl ⟨rfl, hclosing⟩)
  · intro hclosing
    refine (ih.argumentList 0 c hc).weaken (fun ts t _ _ => .inr) fun ts t us hus hblocked => ?_
    refine ⟨hblocked.1, fun opened => ?_⟩
    rw [hus, Outlook.run_arguments hclosing, ← hus]
    exact hblocked.2 opened

/-- The arguments from one on, when it is known whether there are too many of them. -/
theorem halts_argumentList_rest (ih : ExpressionHalts b) (count : Nat) (hc : c.eof.kind = .eof) :
    (do
      let argument ← expressionWithin b
      if ← acceptMark .comma then
        let arguments ← argumentListWithin b (count + 1)
        pure (argument :: arguments)
      else
        pure [argument] : Parser (List Expr)).Halts c
      (fun ts t => Relaxed .arguments ts ∧ EndsExpression t.kind ∧ t.kind ≠ .mark .comma)
      (Blocked (fun opened => .mk .operand (.call :: opened)) (Relaxed .arguments)) := by
  refine .bind ((ih.expression c hc).mono (fun _ _ => id) fun ts t hblocked => ?_) ?_
  · -- The argument is blocked wherever it stands, in particular within a call.
    refine hblocked.after [] (fun opened => ⟨.call :: opened, rfl⟩) fun vs hvs => ?_
    exact ⟨[], .arguments (.expression hvs) .nil⟩
  rintro argument c₁ ts es hreach ⟨hargument, hends⟩
  have hc₁ := hreach.eof_kind hc
  have hleads : Leads ts := leadsFrom_of_relaxed hargument
  refine .byMark hc₁ ?_ ?_
  · intro comma c₂ hreach₂ _ hcomma
    have hrun : ∀ opened, (Outlook.mk .operand (.call :: opened)).run (ts ++ [comma]) =
        some ⟨.operand, .call :: opened⟩ := by
      intro opened
      rw [Outlook.run_append_of_run (hleads _), Outlook.run, hcomma]
      rfl
    refine .bind ((ih.argumentList (count + 1) c₂ (hreach₂.eof_kind hc₁)).mono (fun _ _ => id)
      fun us t hblocked => ?_) ?_
    · rw [← List.append_assoc]
      refine hblocked.after _ (fun opened => ⟨opened, hrun opened⟩) fun vs hvs => ?_
      rw [List.append_assoc]
      exact .of (.arguments_cons (.expression hargument) hcomma hvs)
    · rintro arguments c₃ us fs _ ⟨harguments, hrest⟩
      refine .pure ⟨?_, hrest⟩
      rw [List.append_nil]
      exact .arguments_cons (.expression hargument) hcomma harguments
  · intro hcomma
    exact .pure ⟨.arguments (.expression hargument) .nil, hends, hcomma⟩

theorem halts_argumentList_step (ih : ExpressionHalts b) (count : Nat) (hc : c.eof.kind = .eof) :
    (argumentListWithin (b + 1) count).Halts c
      (fun ts t => Relaxed .arguments ts ∧ EndsExpression t.kind ∧ t.kind ≠ .mark .comma)
      (Blocked (fun opened => .mk .operand (.call :: opened)) (Relaxed .arguments)) := by
  rw [argumentListWithin]
  split
  · -- The error is noted, and the arguments are read all the same.
    refine .peek (.report fun c₁ es hreach _ => ?_)
    exact halts_argumentList_rest ih count (hreach.eof_kind hc)
  · exact halts_argumentList_rest ih count hc

/-- The rest of a method of the superclass, after `super`. -/
theorem halts_super {keyword : Token} (hkeyword : keyword.kind = .keyword .superWord)
    (hc : c.eof.kind = .eof) :
    (do
      let _ ← expectMark .dot .superDot
      let method ← expectName .superMethod
      pure (.super keyword.toName method) : Parser Expr).Halts c
      (fun ts _ => Relaxed .primary ([keyword] ++ ts))
      (fun ts t => Blocked (.mk .operand) (Relaxed .primary) ([keyword] ++ ts) t) := by
  have hsuper : ∀ opened, (Outlook.mk .operand opened).run [keyword] = some ⟨.dot, opened⟩ := by
    intro opened
    rw [Outlook.run, hkeyword]
    rfl
  refine .expectMark hc (fun dot c₁ hreach hdot => ?_) fun hdot => ?_
  · refine .expectName (hreach.eof_kind hc) (fun method c₂ _ hmethod => ?_) fun hmethod => ?_
    · exact .pure (.super hkeyword hdot hmethod)
    · refine (blocked_property hmethod).after [keyword, dot] (fun opened => ⟨opened, ?_⟩) ?_
      · show (Outlook.mk .operand opened).run ([keyword] ++ [dot]) = _
        rw [Outlook.run_append_of_run (hsuper opened), Outlook.run, hdot]
        rfl
      · rintro _ rfl
        exact .of (.super hkeyword hdot rfl)
  · have hstuck : Blocked (.mk .dot) (· = [Mark.dot.token 0, anyName]) [] c.peek :=
      .here (fun opened => Outlook.step_dot_eq_none hdot) rfl
    refine hstuck.after [keyword] (fun opened => ⟨opened, hsuper opened⟩) ?_
    rintro _ rfl
    exact .of (.super hkeyword rfl rfl)

/-- The rest of a grouping, after the opening parenthesis. -/
theorem halts_grouping (ih : ExpressionHalts b) {opening : Token}
    (hopening : opening.kind = .mark .leftParen) (hc : c.eof.kind = .eof) :
    (do
      let inner ← expressionWithin b
      let _ ← expectMark .rightParen .groupingEnd
      pure (.grouping inner) : Parser Expr).Halts c
      (fun ts _ => Relaxed .primary ([opening] ++ ts))
      (fun ts t => Blocked (.mk .operand) (Relaxed .primary) ([opening] ++ ts) t) := by
  have hopen : ∀ opened, (Outlook.mk .operand opened).run [opening] =
      some ⟨.operand, .group :: opened⟩ := by
    intro opened
    rw [Outlook.run, hopening]
    rfl
  have hcompletable : ∀ vs, Relaxed .assignment vs →
      Completable (Relaxed .primary) ([opening] ++ vs) :=
    fun vs hvs => ⟨[Mark.rightParen.token 0], .grouping hopening (.expression hvs) rfl⟩
  refine .bind ((ih.expression c hc).mono (fun _ _ => id) fun ts t hblocked => ?_) ?_
  · exact hblocked.after _ (fun opened => ⟨_, hopen opened⟩) hcompletable
  rintro inner c₁ ts es hreach ⟨hinner, hends⟩
  refine .expectMark (hreach.eof_kind hc) (fun closing c₂ _ hclosing => ?_) fun hclosing => ?_
  · exact .pure (.grouping hopening (.expression hinner) hclosing)
  · have hleads : Leads ts := leadsFrom_of_relaxed hinner
    have hstuck : Blocked (fun opened => .mk .operator (.group :: opened)) (· = []) [] c₁.peek :=
      blocked_unclosed hends hclosing (by rintro ⟨⟩)
    refine hstuck.after ([opening] ++ ts) (fun opened => ⟨opened, ?_⟩) ?_
    · rw [Outlook.run_append_of_run (hopen opened)]
      exact hleads _
    · rintro _ rfl
      rw [List.append_nil]
      exact hcompletable ts hinner

theorem halts_primary_step (ih : ExpressionHalts b) (hc : c.eof.kind = .eof)
    (hoperator : UnaryOp.ofKind? c.peek.kind = none) :
    (primaryWithin (b + 1)).Halts c (fun ts _ => Relaxed .primary ts)
      (Blocked (.mk .operand) (Relaxed .primary)) := by
  rw [primaryWithin]
  refine .peek ?_
  cases hliteral : Literal.ofKind? c.peek.kind with
  | some value =>
      have hkind : c.peek.kind ≠ .eof := by
        intro heof
        rw [heof] at hliteral
        cases hliteral
      refine .advance hc hkind fun c₁ _ => ?_
      exact .pure (.literal hliteral)
  | none =>
      dsimp only
      split
      · rename_i hthis
        refine .advance hc (by rw [hthis]; exact Token.Kind.noConfusion) fun c₁ _ => ?_
        exact .pure (.word (.inl hthis))
      · rename_i hsuper
        refine .advance hc (by rw [hsuper]; exact Token.Kind.noConfusion) fun c₁ hreach => ?_
        exact halts_super hsuper (hreach.eof_kind hc)
      · rename_i hname
        refine .advance hc (by rw [hname]; exact Token.Kind.noConfusion) fun c₁ _ => ?_
        exact .pure (.word (.inr hname))
      · rename_i hgroup
        refine .advance hc (by rw [hgroup]; exact Token.Kind.noConfusion) fun c₁ hreach => ?_
        exact halts_grouping ih hgroup (hreach.eof_kind hc)
      · rename_i hthis hsuper hname hgroup
        -- Any operand could stand here, `nil` for one.
        have hword : Literal.ofKind? Keyword.nilWord.token.kind = some .nil := rfl
        have hnil : Relaxed .primary [Keyword.nilWord.token] := .literal hword
        exact .fail (.here (fun opened => step_operand_eq_none hoperator hliteral hthis hsuper hname
          hgroup) hnil)

/-- Where the expression parsers stop. -/
theorem expressionHalts (b : Nat) : ExpressionHalts b := by
  induction b with
  | zero => constructor <;> intros <;> exact .exhaust
  | succ b ih =>
      exact
        { expression := fun _ hc => halts_expression_step ih hc
          level := fun l _ hc => halts_level_step ih l hc
          levelRest := fun l left _ hc hnext => halts_levelRest_step ih l left hc hnext
          operand := fun l _ hc => halts_operand_step ih l hc
          unary := fun _ hc => halts_unary_step ih hc
          callRest := fun callee _ hc => halts_callRest_step ih callee hc
          arguments := fun _ hc => halts_arguments_step ih hc
          argumentList := fun count _ hc => halts_argumentList_step ih count hc
          primary := fun _ hc hoperator => halts_primary_step ih hc hoperator }

/-! ## Whole expressions -/

theorem viable_of_relaxed {ts : List Token} {eof : Token} (h : Relaxed .assignment ts)
    (heof : eof.kind = .eof) : Viable ts :=
  ⟨[eof], ts, eof, rfl, .expression h, heof⟩

theorem Viable.of_append {ts us : List Token} (h : Viable (ts ++ us)) : Viable ts := by
  obtain ⟨more, hmore⟩ := h
  rw [List.append_assoc] at hmore
  exact ⟨us ++ more, hmore⟩

/-- An expression by itself is read up to the first token that no sentence goes on with. -/
theorem halts_wholeExpression (hc : c.eof.kind = .eof) (hahead : ∀ t ∈ c.ahead, t.kind ≠ .eof) :
    wholeExpression.Halts c (fun ts _ => Relaxed .expression ts)
      (fun ts t => Viable ts ∧ ¬ Viable (ts ++ [t])) := by
  have hexpression : expression.Halts c
      (fun ts t => Relaxed .assignment ts ∧ EndsExpression t.kind)
      (Blocked (.mk .operand) (Relaxed .assignment)) :=
    .budgeted expressionWithin ((expressionHalts c.budget).expression c hc)
  refine .bind (hexpression.mono (fun _ _ => id) fun ts t hblocked => ?_) ?_
  · obtain ⟨⟨more, hmore⟩, hstuck⟩ := hblocked
    exact ⟨Viable.of_append (viable_of_relaxed hmore hc), not_viable_of_run (hstuck [])⟩
  rintro e c₁ ts es hreach ⟨hts, hends⟩
  unfold Halts
  by_cases hend : c₁.isAtEnd = true
  · simp only [if_pos hend]
    refine ⟨[], [], .refl c₁, ?_⟩
    rw [List.append_nil]
    exact .expression hts
  · -- A token is left, so the end of the source is not what the expression stops at.
    have hkind : c₁.peek.kind ≠ .eof := by
      cases hc₁ : c₁.ahead with
      | nil => exact absurd (isAtEnd_iff.2 hc₁) hend
      | cons t rest =>
          have hpeek : c₁.peek = t := by rw [Cursor.peek, hc₁]
          rw [hpeek]
          refine hahead t ?_
          rw [hreach.ahead, hc₁]
          simp
    have hstuck : (Outlook.mk .operand []).run (ts ++ [c₁.peek]) = none := by
      have hleads : Leads ts := leadsFrom_of_relaxed hts
      rw [Outlook.run_append_of_run (hleads []), Outlook.run, step_operator_eq_none hends
        (fun _ => rfl) (fun _ _ => by rintro ⟨⟩) (absurd · hkind)]
      rfl
    simp only [if_neg hend, fail]
    refine ⟨trivial, [], [], .refl c₁, ?_⟩
    rw [List.append_nil]
    exact ⟨viable_of_relaxed hts hc, not_viable_of_run hstuck⟩

end Parser

variable {tokens : List Token} {eof : Token}

/-- An expression that is not read has failed at a token, not for want of steps. -/
theorem Parser.exists_of_ofTokens_error {error : ParseError} (heof : eof.kind = .eof)
    (h : Expr.ofTokens tokens eof = .error error) :
    ∃ c, wholeExpression (.start tokens eof) = .error (.failed error) c := by
  rw [Expr.ofTokens] at h
  cases hrun : wholeExpression (.start tokens eof) with
  | ok e c =>
      rw [hrun] at h
      cases h
  | error failure c =>
      rw [hrun] at h
      cases failure with
      | failed error' =>
          cases h
          exact ⟨c, rfl⟩
      | exhausted =>
          exfalso
          have hyields := yields_expression (c := .start tokens eof) heof
          unfold Yields at hyields
          cases hexpression : expression (.start tokens eof) with
          | ok e c₁ =>
              have hwhole : wholeExpression (.start tokens eof) =
                  if c₁.isAtEnd then .ok e c₁ else fail .expressionEnd c₁ :=
                bind_of_ok hexpression
              rw [hrun] at hwhole
              split at hwhole <;> cases hwhole
          | error failure c₁ =>
              have hwhole : wholeExpression (.start tokens eof) = .error failure c₁ :=
                bind_of_error hexpression
              rw [hrun] at hwhole
              cases hwhole
              rw [hexpression] at hyields
              exact hyields

/-- A syntax error in an expression is at the first token that makes it impossible: the tokens
before it begin a relaxed expression, and with it they do not. -/
theorem Expr.ofTokens_error_viable (tokens : List Token) {eof : Token} {error : ParseError}
    (heof : eof.kind = .eof) (hmiddle : ∀ t ∈ tokens, t.kind ≠ .eof)
    (h : Expr.ofTokens tokens eof = .error error) :
    ∃ k, (tokens ++ [eof])[k]? = some error.token ∧ Viable ((tokens ++ [eof]).take k) ∧
      ¬ Viable ((tokens ++ [eof]).take (k + 1)) := by
  obtain ⟨c, hrun⟩ := Parser.exists_of_ofTokens_error heof h
  have hhalts := Parser.halts_wholeExpression (c := .start tokens eof) heof hmiddle
  unfold Parser.Halts at hhalts
  rw [hrun] at hhalts
  obtain ⟨htoken, ts, es, hreach, hviable, hnot⟩ := hhalts
  have hall : ∃ rest, tokens ++ [eof] = ts ++ (c.peek :: rest) := by
    have hahead : tokens = ts ++ c.ahead := hreach.ahead
    have hend : c.eof = eof := hreach.eof
    rw [hahead, List.append_assoc]
    cases hc : c.ahead with
    | nil => exact ⟨[], by rw [Cursor.peek, hc, hend]; rfl⟩
    | cons t rest => exact ⟨rest ++ [eof], by rw [Cursor.peek, hc]; rfl⟩
  obtain ⟨rest, hall⟩ := hall
  have hnext : (tokens ++ [eof])[ts.length]? = some c.peek := by
    rw [hall, List.getElem?_append_right (Nat.le_refl _), Nat.sub_self]
    rfl
  have hbefore : (tokens ++ [eof]).take ts.length = ts := by
    rw [hall, List.take_left]
  have hwith : (tokens ++ [eof]).take (ts.length + 1) = ts ++ [c.peek] := by
    rw [List.take_add_one, hbefore, hnext]
    rfl
  refine ⟨ts.length, ?_, ?_, ?_⟩
  · rw [hnext, htoken]
  · rw [hbefore]
    exact hviable
  · rw [hwith]
    exact hnot

/-- In `f(1 = a.2` the number after the dot is the first token that cannot stand there. -/
theorem Expr.ofTokens_error_viable_call :
    let tokens : List Token :=
      [⟨.identifier, "f", 1, 0⟩, ⟨.mark .leftParen, "(", 1, 1⟩, ⟨.number 1, "1", 1, 2⟩,
        ⟨.mark .equal, "=", 1, 4⟩, ⟨.identifier, "a", 1, 6⟩, ⟨.mark .dot, ".", 1, 7⟩,
        ⟨.number 2, "2", 1, 8⟩]
    let eof : Token := ⟨.eof, "", 1, 9⟩
    let error : ParseError := ⟨.propertyName, ⟨.number 2, "2", 1, 8⟩⟩
    eof.kind = .eof ∧ (∀ t ∈ tokens, t.kind ≠ .eof) ∧ Expr.ofTokens tokens eof = .error error ∧
      ∃ k, (tokens ++ [eof])[k]? = some error.token ∧ Viable ((tokens ++ [eof]).take k) ∧
        ¬ Viable ((tokens ++ [eof]).take (k + 1)) := by
  intro tokens eof error
  have hmiddle : ∀ t ∈ tokens, t.kind ≠ .eof := by
    intro t ht
    simp only [tokens, List.mem_cons, List.not_mem_nil, or_false] at ht
    rcases ht with rfl | rfl | rfl | rfl | rfl | rfl | rfl <;> exact Token.Kind.noConfusion
  have hread : Expr.ofTokens tokens eof = .error error := rfl
  exact ⟨rfl, hmiddle, hread, Expr.ofTokens_error_viable tokens rfl hmiddle hread⟩

end Lox
