import Lox.Proofs.Grammar.Relaxed

set_option autoImplicit false

/-! # Beginnings of expressions

Some tokens are viable if they can be completed to a relaxed expression and the token that ends the
source (`Viable`). To see that some are not, expressions are followed from token to token by a small
pushdown automaton. It keeps what may come next and which parentheses are open (`Outlook`); how
tightly the operators bind does not matter for what may come next. Every relaxed expression leads
from where an operand is due to where an operator may follow (`leadsFrom_of_relaxed`), so tokens at
which the automaton is stuck begin no expression (`not_viable_of_run`).
-/

namespace Lox.Grammar

/-- A relaxed expression and the token that ends the source. -/
def Sentence (us : List Token) : Prop :=
  ∃ ts eof, us = ts ++ [eof] ∧ Relaxed .expression ts ∧ eof.kind = .eof

/-- The tokens begin a sentence. -/
def Viable (ts : List Token) : Prop :=
  ∃ more, Sentence (ts ++ more)

/-! ## What may come next -/

/-- A parenthesis that is open: of a grouping or of a call. -/
inductive Bracket
  | group
  | call

/-- What is due. -/
inductive Due
  /-- An operand. -/
  | operand
  /-- An operand, or the end of the arguments that were just opened. -/
  | arguments
  /-- Anything that goes on after an operand or ends the expression. -/
  | operator
  /-- The dot after `super`. -/
  | dot
  /-- The name after a dot. -/
  | property
  /-- Nothing, after the end of the source. -/
  | nothing

/-- What is due, and the parentheses that are open, the innermost one first. -/
structure Outlook where
  due : Due
  opened : List Bracket

/-- A token that is an infix operator. -/
def isInfix (k : Token.Kind) : Bool :=
  [Level.disjunction, .conjunction, .equality, .comparison, .term, .factor].any
    fun l => (l.operator? k).isSome

theorem isInfix_of_operator? {l : Level} {k : Token.Kind} {op : InfixOp}
    (h : l.operator? k = some op) : isInfix k = true := by
  refine List.any_eq_true.2 ⟨l, ?_, by rw [h]; rfl⟩
  cases l <;> simp

theorem isInfix_eq_false {k : Token.Kind} (h : ∀ l : Level, l.operator? k = none) :
    isInfix k = false := by
  refine List.any_eq_false.2 fun l _ => ?_
  rw [h l]
  exact Bool.false_ne_true

namespace Outlook

/-- Where an operand is due. -/
def operandStep (opened : List Bracket) : Token.Kind → Option Outlook
  | .number _ | .string _ | .identifier | .keyword .nilWord | .keyword .trueWord
  | .keyword .falseWord | .keyword .thisWord => some ⟨.operator, opened⟩
  | .keyword .superWord => some ⟨.dot, opened⟩
  | .mark .bang | .mark .minus => some ⟨.operand, opened⟩
  | .mark .leftParen => some ⟨.operand, .group :: opened⟩
  | _ => none

/-- Where an operand was read. -/
def operatorStep (opened : List Bracket) (k : Token.Kind) : Option Outlook :=
  match k, opened with
  | .mark .dot, _ => some ⟨.property, opened⟩
  | .mark .leftParen, _ => some ⟨.arguments, .call :: opened⟩
  | .mark .equal, _ => some ⟨.operand, opened⟩
  | .mark .rightParen, _ :: outer => some ⟨.operator, outer⟩
  | .mark .comma, .call :: _ => some ⟨.operand, opened⟩
  | .eof, [] => some ⟨.nothing, []⟩
  | k, _ => if isInfix k then some ⟨.operand, opened⟩ else none

/-- After one more token, if it may come next. -/
def step (o : Outlook) (k : Token.Kind) : Option Outlook :=
  match o.due, k, o.opened with
  | .operand, k, opened => operandStep opened k
  | .arguments, .mark .rightParen, _ :: outer => some ⟨.operator, outer⟩
  | .arguments, k, opened => operandStep opened k
  | .operator, k, opened => operatorStep opened k
  | .dot, .mark .dot, opened => some ⟨.property, opened⟩
  | .property, .identifier, opened => some ⟨.operator, opened⟩
  | _, _, _ => none

/-- After more tokens, if they may come next. -/
def run : Outlook → List Token → Option Outlook
  | o, [] => some o
  | o, t :: ts => (o.step t.kind).bind fun o' => o'.run ts

variable {o o' : Outlook} {t : Token} {ts us : List Token} {opened : List Bracket}

theorem run_cons_of_step (h : o.step t.kind = some o') : o.run (t :: ts) = o'.run ts := by
  rw [run, h]
  rfl

theorem run_append (o : Outlook) (ts us : List Token) :
    o.run (ts ++ us) = (o.run ts).bind fun o' => o'.run us := by
  induction ts generalizing o with
  | nil => rfl
  | cons t ts ih =>
      rw [List.cons_append, run, run]
      cases o.step t.kind with
      | none => rfl
      | some o' => exact ih o'

theorem run_append_of_run (h : o.run ts = some o') : o.run (ts ++ us) = o'.run us := by
  rw [run_append, h]
  rfl

theorem run_append_eq_none (h : o.run ts = none) (us : List Token) : o.run (ts ++ us) = none := by
  rw [run_append, h]
  rfl

/-- Arguments start as an operand does, unless they are closed. -/
theorem step_arguments {k : Token.Kind} (h : k ≠ .mark .rightParen) :
    (mk .arguments opened).step k = (mk .operand opened).step k := by
  unfold step
  split <;> simp_all

theorem run_arguments (h : t.kind ≠ .mark .rightParen) :
    (mk .arguments opened).run (t :: ts) = (mk .operand opened).run (t :: ts) := by
  rw [run, run, step_arguments h]

theorem step_dot_eq_none {k : Token.Kind} (h : k ≠ .mark .dot) :
    (mk .dot opened).step k = none := by
  unfold step
  split <;> first | rfl | contradiction

theorem step_property_eq_none {k : Token.Kind} (h : k ≠ .identifier) :
    (mk .property opened).step k = none := by
  unfold step
  split <;> first | rfl | contradiction

theorem step_operator {l : Level} {k : Token.Kind} {op : InfixOp}
    (h : l.operator? k = some op) : (mk .operator opened).step k = some ⟨.operand, opened⟩ := by
  have hinfix := isInfix_of_operator? h
  obtain ⟨-, rfl⟩ := InfixOp.operator?_eq_some_iff.1 h
  rcases op with op | op <;> cases op <;> rfl

theorem step_literal {k : Token.Kind} {value : Literal} (h : Literal.ofKind? k = some value) :
    (mk .operand opened).step k = some ⟨.operator, opened⟩ := by
  obtain rfl := Literal.ofKind?_eq_some_iff.1 h
  rcases value with _ | value | _ | _
  · rfl
  · cases value <;> rfl
  · rfl
  · rfl

theorem step_unary {k : Token.Kind} {op : UnaryOp} (h : UnaryOp.ofKind? k = some op) :
    (mk .operand opened).step k = some ⟨.operand, opened⟩ := by
  obtain rfl := UnaryOp.ofKind?_eq_some_iff.1 h
  cases op <;> rfl

/-- No expression has a semicolon in it. -/
theorem forall_ne_semicolon_of_run (h : o.run ts = some o') :
    ∀ t ∈ ts, t.kind ≠ .mark .semicolon := by
  induction ts generalizing o with
  | nil => exact nofun
  | cons t ts ih =>
      rw [run] at h
      obtain ⟨o₁, hstep, hrest⟩ := Option.bind_eq_some_iff.1 h
      intro u hu
      rcases List.mem_cons.1 hu with rfl | hu
      · intro hsemicolon
        rw [hsemicolon] at hstep
        obtain ⟨due, opened⟩ := o
        cases due <;> cases hstep
      · exact ih hrest u hu

/-- What leads back to an outlook can be repeated. -/
theorem run_repeats {item : List Token → Prop} (hitem : ∀ us, item us → o.run us = some o)
    (h : Repeats item ts) : o.run ts = some o := by
  induction h with
  | nil => rfl
  | cons hfirst _ ih => rw [run_append_of_run (hitem _ hfirst), ih]

end Outlook

/-! ## Every expression can be followed -/

open Outlook

/-- The tokens lead from where an operand is due to where one was read. -/
def Leads (ts : List Token) : Prop :=
  ∀ opened, (Outlook.mk .operand opened).run ts = some ⟨.operator, opened⟩

/-- What the tokens of a symbol lead to. Nothing is said of statements. -/
def LeadsFrom : Symbol → List Token → Prop
  | .arguments, ts => ∀ opened,
    (Outlook.mk .arguments (.call :: opened)).run ts = some ⟨.operator, .call :: opened⟩
  | .expression, ts | .assignment, ts | .logicOr, ts | .logicAnd, ts | .equality, ts
  | .comparison, ts | .term, ts | .factor, ts | .unary, ts | .call, ts | .primary, ts => Leads ts
  | _, _ => True

section Leads

variable {l : Level} {ts us : List Token}

theorem leadsFrom_operandSymbol : LeadsFrom (operandSymbol l) ts ↔ Leads ts := by
  cases l <;> exact Iff.rfl

/-- No expression starts with the parenthesis that would end the arguments. -/
theorem Leads.run_arguments (h : Leads ts) (opened : List Bracket) :
    (Outlook.mk .arguments opened).run ts = some ⟨.operator, opened⟩ := by
  cases ts with
  | nil =>
      have hnothing : some (Outlook.mk .operand []) = some ⟨.operator, []⟩ := h []
      cases hnothing
  | cons t us =>
      have ht : t.kind ≠ .mark .rightParen := by
        intro ht
        have hrun := h []
        rw [run, ht] at hrun
        cases hrun
      rw [Outlook.run_arguments ht]
      exact h opened

theorem Leads.append (h : Leads ts)
    (hrest : ∀ opened, (Outlook.mk .operator opened).run us = some ⟨.operator, opened⟩) :
    Leads (ts ++ us) := by
  intro opened
  rw [run_append_of_run (h opened), hrest]

theorem run_moreOperands (h : MoreOperands LeadsFrom l ts) (opened : List Bracket) :
    (Outlook.mk .operator opened).run ts = some ⟨.operator, opened⟩ := by
  obtain ⟨t, op, us, rfl, hop, hoperand⟩ := h
  rw [run_cons_of_step (step_operator hop)]
  exact leadsFrom_operandSymbol.1 hoperand opened

theorem run_callSuffix (h : CallSuffix LeadsFrom ts) (opened : List Bracket) :
    (Outlook.mk .operator opened).run ts = some ⟨.operator, opened⟩ := by
  rcases h with ⟨opening, us, closing, rfl, hopening, harguments, hclosing⟩ |
    ⟨dot, t, rfl, hdot, ht⟩
  · have hopen : (Outlook.mk .operator opened).step opening.kind =
        some ⟨.arguments, .call :: opened⟩ := by rw [hopening]; rfl
    rw [run_cons_of_step hopen]
    rcases harguments with rfl | harguments
    · rw [List.nil_append, run, hclosing]
      rfl
    · rw [run_append_of_run (harguments opened), run, hclosing]
      rfl
  · rw [run, hdot]
    show (Outlook.mk .property opened).run [t] = _
    rw [run, ht]
    rfl

theorem run_moreArguments (h : MoreArguments LeadsFrom ts) (opened : List Bracket) :
    (Outlook.mk .operator (.call :: opened)).run ts = some ⟨.operator, .call :: opened⟩ := by
  obtain ⟨comma, us, rfl, hcomma, hargument⟩ := h
  have hstep : (Outlook.mk .operator (.call :: opened)).step comma.kind =
      some ⟨.operand, .call :: opened⟩ := by rw [hcomma]; rfl
  rw [run_cons_of_step hstep]
  exact hargument _

theorem leads_level (h : (relaxedRule (levelSymbol l)).Means LeadsFrom ts) : Leads ts := by
  obtain ⟨us, vs, rfl, hoperand, hrest⟩ := means_level_iff.1 h
  have hus : Leads us := leadsFrom_operandSymbol.1 hoperand
  exact hus.append fun opened => run_repeats (fun ws hws => run_moreOperands hws opened) hrest

/-- What a rule for primary expressions means can be followed. -/
theorem leads_primary (h : (relaxedRule .primary).Means LeadsFrom ts) : Leads ts := by
  intro opened
  rcases means_primary_iff.1 h with ⟨t, value, rfl, ht⟩ | ⟨t, rfl, ht | ht⟩ |
    ⟨opening, us, closing, rfl, hopening, hus, hclosing⟩ |
    ⟨t, dot, method, rfl, ht, hdot, hmethod⟩
  · rw [run_cons_of_step (step_literal ht)]
    rfl
  · rw [run, ht]
    rfl
  · rw [run, ht]
    rfl
  · have hopen : (Outlook.mk .operand opened).step opening.kind =
        some ⟨.operand, .group :: opened⟩ := by rw [hopening]; rfl
    have hinner := hus (.group :: opened)
    rw [run_cons_of_step hopen, run_append_of_run hinner, run, hclosing]
    rfl
  · have hsuper : (Outlook.mk .operand opened).step t.kind = some ⟨.dot, opened⟩ := by
      rw [ht]
      rfl
    have haccess : (Outlook.mk .dot opened).step dot.kind = some ⟨.property, opened⟩ := by
      rw [hdot]
      rfl
    rw [run_cons_of_step hsuper, run_cons_of_step haccess, run, hmethod]
    rfl

/-- The rules of the relaxed grammar keep to what the automaton allows. -/
theorem closed_leadsFrom : Closed relaxedRule LeadsFrom := by
  intro s ts h
  cases s with
  | expression => exact h
  | assignment =>
      rcases means_assignment_iff.1 h with ⟨us, equals, vs, rfl, hus, hequals, hvs⟩ | h
      · intro opened
        have hstep : (Outlook.mk .operator opened).step equals.kind = some ⟨.operand, opened⟩ := by
          rw [hequals]
          rfl
        rw [run_append_of_run (hus opened), run_cons_of_step hstep]
        exact hvs opened
      · exact h
  | logicOr => exact leads_level (l := .disjunction) h
  | logicAnd => exact leads_level (l := .conjunction) h
  | equality => exact leads_level (l := .equality) h
  | comparison => exact leads_level (l := .comparison) h
  | term => exact leads_level (l := .term) h
  | factor => exact leads_level (l := .factor) h
  | unary =>
      rcases means_unary_iff.1 h with ⟨t, op, us, rfl, hop, hus⟩ | h
      · intro opened
        rw [run_cons_of_step (step_unary hop)]
        exact hus opened
      · exact h
  | call =>
      obtain ⟨us, vs, rfl, hus, hvs⟩ := means_call_iff.1 h
      have hprimary : Leads us := hus
      exact hprimary.append fun opened =>
        run_repeats (fun ws hws => run_callSuffix hws opened) hvs
  | arguments =>
      obtain ⟨us, vs, rfl, hus, hvs⟩ := means_arguments_iff.1 h
      have hfirst : Leads us := hus
      intro opened
      rw [run_append_of_run (hfirst.run_arguments (.call :: opened))]
      exact run_repeats (fun ws hws => run_moreArguments hws opened) hvs
  | primary => exact leads_primary h
  | _ => trivial

/-- Everything in the relaxed grammar can be followed. -/
theorem leadsFrom_of_relaxed {s : Symbol} (h : Relaxed s ts) : LeadsFrom s ts :=
  h LeadsFrom closed_leadsFrom

/-- Tokens that cannot be followed begin no sentence. -/
theorem not_viable_of_run (h : (Outlook.mk .operand []).run ts = none) : ¬ Viable ts := by
  rintro ⟨more, us, eof, hall, hus, heof⟩
  have hstuck := run_append_eq_none h more
  have hend : (Outlook.mk .operator []).run [eof] = some ⟨.nothing, []⟩ := by
    rw [run, heof]
    rfl
  have hleads : Leads us := leadsFrom_of_relaxed hus
  rw [hall, run_append_of_run (hleads []), hend] at hstuck
  cases hstuck

end Leads

end Lox.Grammar
