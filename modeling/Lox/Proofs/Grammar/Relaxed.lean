import Lox.Proofs.Grammar.Flattening
import Lox.Proofs.Grammar.Inversion
import Lox.Proofs.Grammar.Language

set_option autoImplicit false

/-! # The relaxed grammar

Two errors in an expression do not stop the parser: an assignment to something else than a variable
or a property, and more arguments than a call may have. The relaxed grammar allows both
(`relaxedRule`), and contains the strict one (`relaxed_of_derives`).

What a rule means is stated for any meaning of the symbols, so that it serves for building
expressions as well as for showing that all of them have some property.
-/

namespace Lox.Grammar

/-- The rules of the grammar, but any disjunction can be assigned to and a call can have any
number of arguments. -/
def relaxedRule : Symbol → Phrase
  | .assignment =>
    choice (sequence [.symbol .logicOr, mark .equal, .symbol .assignment]) [.symbol .logicOr]
  | .arguments => infixed (mark .comma) (.symbol .expression)
  | s => rule s

/-- The language of a symbol by the relaxed rules. -/
def Relaxed (s : Symbol) (ts : List Token) : Prop := Language relaxedRule s ts

/-! ## What the rules mean -/

variable {L : Symbol → List Token → Prop} {ts : List Token}

/-- An operator of a level and one more operand. -/
def MoreOperands (L : Symbol → List Token → Prop) (l : Level) (ts : List Token) : Prop :=
  ∃ t op us, ts = t :: us ∧ l.operator? t.kind = some op ∧ L (operandSymbol l) us

/-- A call or a property access. -/
def CallSuffix (L : Symbol → List Token → Prop) (ts : List Token) : Prop :=
  (∃ opening us closing, ts = opening :: (us ++ [closing]) ∧ opening.kind = .mark .leftParen ∧
    (us = [] ∨ L .arguments us) ∧ closing.kind = .mark .rightParen) ∨
  ∃ dot t, ts = [dot, t] ∧ dot.kind = .mark .dot ∧ t.kind = .identifier

/-- A comma and one more argument. -/
def MoreArguments (L : Symbol → List Token → Prop) (ts : List Token) : Prop :=
  ∃ comma us, ts = comma :: us ∧ comma.kind = .mark .comma ∧ L .expression us

theorem means_assignment_iff :
    (relaxedRule .assignment).Means L ts ↔
      (∃ us equals vs, ts = us ++ equals :: vs ∧ L .logicOr us ∧ equals.kind = .mark .equal ∧
        L .assignment vs) ∨ L .logicOr ts := by
  refine or_congr ?_ Iff.rfl
  constructor
  · rintro ⟨us, _, rfl, hus, h⟩
    obtain ⟨equals, vs, rfl, hequals, hvalue⟩ := means_token_cons_iff.1 h
    exact ⟨us, equals, vs, rfl, hus, hequals, means_single_iff.1 hvalue⟩
  · rintro ⟨us, equals, vs, rfl, hus, hequals, hvalue⟩
    exact ⟨us, _, rfl, hus, means_token_cons_iff.2 ⟨equals, vs, rfl, hequals,
      means_single_iff.2 hvalue⟩⟩

theorem means_operatorPhrase_iff {l : Level} :
    (operatorPhrase l).Means L ts ↔ ∃ t op, ts = [t] ∧ l.operator? t.kind = some op := by
  have hsame : (operatorPhrase l).Means L ts ↔ Derives (operatorPhrase l) ts := by
    rw [← means_derives_iff]
    cases l <;> exact Iff.rfl
  rw [hsame, derives_operatorPhrase_iff]

theorem means_level_iff {l : Level} :
    (relaxedRule (levelSymbol l)).Means L ts ↔
      ∃ us vs, ts = us ++ vs ∧ L (operandSymbol l) us ∧ Repeats (MoreOperands L l) vs := by
  have hrule : relaxedRule (levelSymbol l) =
      infixed (operatorPhrase l) (.symbol (operandSymbol l)) := by
    rw [← rule_levelSymbol]
    cases l <;> rfl
  have hmore : ∀ us, (sequence [operatorPhrase l, .symbol (operandSymbol l)]).Means L us ↔
      MoreOperands L l us := by
    intro us
    constructor
    · rintro ⟨_, vs, rfl, hoperator, hoperand⟩
      obtain ⟨t, op, rfl, hop⟩ := means_operatorPhrase_iff.1 hoperator
      exact ⟨t, op, vs, rfl, hop, means_single_iff.1 hoperand⟩
    · rintro ⟨t, op, vs, rfl, hop, hoperand⟩
      exact ⟨[t], vs, rfl, means_operatorPhrase_iff.2 ⟨t, op, rfl, hop⟩,
        means_single_iff.2 hoperand⟩
  rw [hrule]
  constructor
  · rintro ⟨us, vs, rfl, hoperand, h⟩
    have hrest : Repeats _ vs := means_single_iff.1 h
    exact ⟨us, vs, rfl, hoperand, hrest.mono fun ws => (hmore ws).1⟩
  · rintro ⟨us, vs, rfl, hoperand, hrest⟩
    have hrest' : (Phrase.repeated _).Means L vs := Repeats.mono (fun ws => (hmore ws).2) hrest
    exact ⟨us, vs, rfl, hoperand, means_single_iff.2 hrest'⟩

theorem means_unary_iff :
    (relaxedRule .unary).Means L ts ↔
      (∃ t op us, ts = t :: us ∧ UnaryOp.ofKind? t.kind = some op ∧ L .unary us) ∨
        L .call ts := by
  have hoperator : ∀ us, (choice (mark .bang) [mark .minus]).Means L us ↔
      ∃ t op, us = [t] ∧ UnaryOp.ofKind? t.kind = some op := by
    intro us
    rw [← derives_unaryOperator_iff, ← means_derives_iff]
    exact Iff.rfl
  refine or_congr ?_ Iff.rfl
  constructor
  · rintro ⟨_, us, rfl, h, hoperand⟩
    obtain ⟨t, op, rfl, hop⟩ := (hoperator _).1 h
    exact ⟨t, op, us, rfl, hop, means_single_iff.1 hoperand⟩
  · rintro ⟨t, op, us, rfl, hop, hoperand⟩
    exact ⟨[t], us, rfl, (hoperator _).2 ⟨t, op, rfl, hop⟩, means_single_iff.2 hoperand⟩

theorem means_callSuffix_iff : callSuffix.Means L ts ↔ CallSuffix L ts := by
  refine or_congr ?_ ?_
  · constructor
    · intro h
      obtain ⟨opening, _, rfl, hopening, us, _, rfl, harguments, h⟩ := means_token_cons_iff.1 h
      obtain ⟨closing, rfl, hclosing⟩ := means_token_iff.1 h
      exact ⟨opening, us, closing, rfl, hopening, harguments, hclosing⟩
    · rintro ⟨opening, us, closing, rfl, hopening, harguments, hclosing⟩
      exact means_token_cons_iff.2 ⟨opening, _, rfl, hopening, us, [closing], rfl, harguments,
        means_token_iff.2 ⟨closing, rfl, hclosing⟩⟩
  · constructor
    · intro h
      obtain ⟨dot, _, rfl, hdot, h⟩ := means_token_cons_iff.1 h
      obtain ⟨t, rfl, ht⟩ := means_token_iff.1 h
      exact ⟨dot, t, rfl, hdot, ht⟩
    · rintro ⟨dot, t, rfl, hdot, ht⟩
      exact means_token_cons_iff.2 ⟨dot, [t], rfl, hdot, means_token_iff.2 ⟨t, rfl, ht⟩⟩

theorem means_call_iff :
    (relaxedRule .call).Means L ts ↔
      ∃ us vs, ts = us ++ vs ∧ L .primary us ∧ Repeats (CallSuffix L) vs := by
  constructor
  · rintro ⟨us, vs, rfl, hprimary, h⟩
    have hsuffixes : Repeats (callSuffix.Means L) vs := means_single_iff.1 h
    exact ⟨us, vs, rfl, hprimary, hsuffixes.mono fun ws => means_callSuffix_iff.1⟩
  · rintro ⟨us, vs, rfl, hprimary, hsuffixes⟩
    have hsuffixes' : (Phrase.repeated callSuffix).Means L vs :=
      Repeats.mono (fun ws => means_callSuffix_iff.2) hsuffixes
    exact ⟨us, vs, rfl, hprimary, means_single_iff.2 hsuffixes'⟩

theorem means_arguments_iff :
    (relaxedRule .arguments).Means L ts ↔
      ∃ us vs, ts = us ++ vs ∧ L .expression us ∧ Repeats (MoreArguments L) vs := by
  have hmore : ∀ us, (sequence [mark .comma, .symbol .expression]).Means L us ↔
      MoreArguments L us := by
    intro us
    constructor
    · intro h
      obtain ⟨comma, vs, rfl, hcomma, h⟩ := means_token_cons_iff.1 h
      exact ⟨comma, vs, rfl, hcomma, means_single_iff.1 h⟩
    · rintro ⟨comma, vs, rfl, hcomma, h⟩
      exact means_token_cons_iff.2 ⟨comma, vs, rfl, hcomma, means_single_iff.2 h⟩
  constructor
  · rintro ⟨us, vs, rfl, hfirst, h⟩
    have hrest : Repeats _ vs := means_single_iff.1 h
    exact ⟨us, vs, rfl, hfirst, hrest.mono fun ws => (hmore ws).1⟩
  · rintro ⟨us, vs, rfl, hfirst, hrest⟩
    have hrest' : (Phrase.repeated _).Means L vs := Repeats.mono (fun ws => (hmore ws).2) hrest
    exact ⟨us, vs, rfl, hfirst, means_single_iff.2 hrest'⟩

theorem means_primary_iff :
    (relaxedRule .primary).Means L ts ↔
      (∃ t value, ts = [t] ∧ Literal.ofKind? t.kind = some value) ∨
      (∃ t, ts = [t] ∧ (t.kind = .keyword .thisWord ∨ t.kind = .identifier)) ∨
      (∃ opening us closing, ts = opening :: (us ++ [closing]) ∧
        opening.kind = .mark .leftParen ∧ L .expression us ∧
        closing.kind = .mark .rightParen) ∨
      ∃ t dot method, ts = [t, dot, method] ∧ t.kind = .keyword .superWord ∧
        dot.kind = .mark .dot ∧ method.kind = .identifier := by
  constructor
  · rintro (⟨t, rfl, value, ht⟩ | ⟨t, rfl, contents, ht⟩ | ⟨t, rfl, ht⟩ | ⟨t, rfl, ht⟩ |
      ⟨t, rfl, ht⟩ | ⟨t, rfl, ht⟩ | ⟨t, rfl, ht⟩ | h | h)
    · exact .inl ⟨t, .number value, rfl, Literal.ofKind?_eq_some_iff.2 ht⟩
    · exact .inl ⟨t, .string contents, rfl, Literal.ofKind?_eq_some_iff.2 ht⟩
    · exact .inl ⟨t, .bool true, rfl, Literal.ofKind?_eq_some_iff.2 ht⟩
    · exact .inl ⟨t, .bool false, rfl, Literal.ofKind?_eq_some_iff.2 ht⟩
    · exact .inl ⟨t, .nil, rfl, Literal.ofKind?_eq_some_iff.2 ht⟩
    · exact .inr (.inl ⟨t, rfl, .inl ht⟩)
    · exact .inr (.inl ⟨t, rfl, .inr ht⟩)
    · obtain ⟨opening, _, rfl, hopening, us, _, rfl, hinner, h⟩ := means_token_cons_iff.1 h
      obtain ⟨closing, rfl, hclosing⟩ := means_token_iff.1 h
      exact .inr (.inr (.inl ⟨opening, us, closing, rfl, hopening, hinner, hclosing⟩))
    · obtain ⟨t, _, rfl, ht, h⟩ := means_token_cons_iff.1 h
      obtain ⟨dot, _, rfl, hdot, h⟩ := means_token_cons_iff.1 h
      obtain ⟨method, rfl, hmethod⟩ := means_token_iff.1 h
      exact .inr (.inr (.inr ⟨t, dot, method, rfl, ht, hdot, hmethod⟩))
  · rintro (⟨t, value, rfl, ht⟩ | ⟨t, rfl, ht | ht⟩ |
      ⟨opening, us, closing, rfl, hopening, hinner, hclosing⟩ |
      ⟨t, dot, method, rfl, ht, hdot, hmethod⟩)
    · have hkind : t.kind = value.kind := Literal.ofKind?_eq_some_iff.1 ht
      rcases value with _ | value | value | contents
      · exact .inr (.inr (.inr (.inr (.inl ⟨t, rfl, hkind⟩))))
      · cases value
        · exact .inr (.inr (.inr (.inl ⟨t, rfl, hkind⟩)))
        · exact .inr (.inr (.inl ⟨t, rfl, hkind⟩))
      · exact .inl ⟨t, rfl, value, hkind⟩
      · exact .inr (.inl ⟨t, rfl, contents, hkind⟩)
    · exact .inr (.inr (.inr (.inr (.inr (.inl ⟨t, rfl, ht⟩)))))
    · exact .inr (.inr (.inr (.inr (.inr (.inr (.inl ⟨t, rfl, ht⟩))))))
    · refine .inr (.inr (.inr (.inr (.inr (.inr (.inr (.inl ?_)))))))
      exact means_token_cons_iff.2 ⟨opening, _, rfl, hopening, us, [closing], rfl, hinner,
        means_token_iff.2 ⟨closing, rfl, hclosing⟩⟩
    · refine .inr (.inr (.inr (.inr (.inr (.inr (.inr (.inr ?_)))))))
      exact means_token_cons_iff.2 ⟨t, _, rfl, ht, means_token_cons_iff.2
        ⟨dot, [method], rfl, hdot, means_token_iff.2 ⟨method, rfl, hmethod⟩⟩⟩

/-! ## Relaxed expressions -/

namespace Relaxed

theorem expression (h : Relaxed .assignment ts) : Relaxed .expression ts :=
  Language.intro h

theorem assignment (h : Relaxed .logicOr ts) : Relaxed .assignment ts :=
  Language.intro (means_assignment_iff.2 (.inr h))

theorem assign {us : List Token} {equals : Token} (h : Relaxed .logicOr ts)
    (hequals : equals.kind = .mark .equal) (hvalue : Relaxed .assignment us) :
    Relaxed .assignment (ts ++ equals :: us) :=
  Language.intro (means_assignment_iff.2 (.inl ⟨ts, equals, us, rfl, h, hequals, hvalue⟩))

theorem level {l : Level} {us : List Token} (h : Relaxed (operandSymbol l) ts)
    (hrest : Repeats (MoreOperands Relaxed l) us) : Relaxed (levelSymbol l) (ts ++ us) :=
  Language.intro (means_level_iff.2 ⟨ts, us, rfl, h, hrest⟩)

theorem unary {t : Token} {op : UnaryOp} (hop : UnaryOp.ofKind? t.kind = some op)
    (h : Relaxed .unary ts) : Relaxed .unary (t :: ts) :=
  Language.intro (means_unary_iff.2 (.inl ⟨t, op, ts, rfl, hop, h⟩))

theorem call {us : List Token} (h : Relaxed .primary ts)
    (hsuffixes : Repeats (CallSuffix Relaxed) us) : Relaxed .unary (ts ++ us) :=
  Language.intro (means_unary_iff.2 (.inr
    (Language.intro (means_call_iff.2 ⟨ts, us, rfl, h, hsuffixes⟩))))

theorem arguments {us : List Token} (h : Relaxed .expression ts)
    (hrest : Repeats (MoreArguments Relaxed) us) : Relaxed .arguments (ts ++ us) :=
  Language.intro (means_arguments_iff.2 ⟨ts, us, rfl, h, hrest⟩)

theorem arguments_cons {us : List Token} {comma : Token} (h : Relaxed .expression ts)
    (hcomma : comma.kind = .mark .comma) (hrest : Relaxed .arguments us) :
    Relaxed .arguments (ts ++ comma :: us) := by
  obtain ⟨vs, ws, rfl, hnext, hmore⟩ := means_arguments_iff.1 (Language.cases hrest)
  have hitem : MoreArguments Relaxed (comma :: vs) := ⟨comma, vs, rfl, hcomma, hnext⟩
  exact arguments h (.cons hitem hmore)

theorem literal {t : Token} {value : Literal} (h : Literal.ofKind? t.kind = some value) :
    Relaxed .primary [t] :=
  Language.intro (means_primary_iff.2 (.inl ⟨t, value, rfl, h⟩))

theorem word {t : Token} (h : t.kind = .keyword .thisWord ∨ t.kind = .identifier) :
    Relaxed .primary [t] :=
  Language.intro (means_primary_iff.2 (.inr (.inl ⟨t, rfl, h⟩)))

theorem grouping {opening closing : Token} (hopening : opening.kind = .mark .leftParen)
    (h : Relaxed .expression ts) (hclosing : closing.kind = .mark .rightParen) :
    Relaxed .primary (opening :: (ts ++ [closing])) :=
  Language.intro (means_primary_iff.2
    (.inr (.inr (.inl ⟨opening, ts, closing, rfl, hopening, h, hclosing⟩))))

theorem super {t dot method : Token} (h : t.kind = .keyword .superWord)
    (hdot : dot.kind = .mark .dot) (hmethod : method.kind = .identifier) :
    Relaxed .primary [t, dot, method] :=
  Language.intro (means_primary_iff.2
    (.inr (.inr (.inr ⟨t, dot, method, rfl, h, hdot, hmethod⟩))))

/-! ## The strict grammar is contained -/

theorem level_of_unary (h : Relaxed .unary ts) (l : Level) : Relaxed (levelSymbol l) ts := by
  induction l using Level.induction_tighter with
  | h l ih =>
      have hoperand : Relaxed (operandSymbol l) ts := by
        cases htighter : l.tighter? with
        | some tighter =>
            rw [operandSymbol, htighter]
            exact ih tighter htighter
        | none =>
            rw [operandSymbol, htighter]
            exact h
      have hlevel := level hoperand .nil
      rwa [List.append_nil] at hlevel

/-- A property is assigned to as the call that its access is. -/
theorem access {dot t : Token} (h : Relaxed .call ts) (hdot : dot.kind = .mark .dot)
    (ht : t.kind = .identifier) : Relaxed .unary (ts ++ [dot, t]) := by
  obtain ⟨us, vs, rfl, hprimary, hsuffixes⟩ := means_call_iff.1 (Language.cases h)
  rw [List.append_assoc]
  exact call hprimary (hsuffixes.snoc (.inr ⟨dot, t, rfl, hdot, ht⟩))

end Relaxed

/-- A list is a first item, and commas with further ones. -/
theorem Lists.exists_more {L : Symbol → List Token → Prop} {most : Nat}
    (h : Lists (L .expression) most ts) :
    ∃ us vs, ts = us ++ vs ∧ L .expression us ∧ Repeats (MoreArguments L) vs := by
  induction h with
  | @last _ us hlast => exact ⟨us, [], (List.append_nil us).symm, hlast, .nil⟩
  | @more _ us _ comma hfirst hcomma _ ih =>
      obtain ⟨vs, ws, rfl, hnext, hrest⟩ := ih
      have hmore : MoreArguments L (comma :: vs) := ⟨comma, vs, rfl, hcomma, hnext⟩
      exact ⟨us, comma :: vs ++ ws, rfl, hfirst, .cons hmore hrest⟩

/-- What the grammar derives is in the relaxed one. -/
theorem relaxed_of_derives {s : Symbol} (h : Derives (.symbol s) ts) : Relaxed s ts := by
  refine language_rule_iff.2 h Relaxed fun s ts h => ?_
  cases s with
  | assignment =>
      rcases h with ⟨us, _, rfl, htarget, h⟩ | h
      · obtain ⟨t, _, rfl, ht, h⟩ := means_token_cons_iff.1 h
        obtain ⟨equals, vs, rfl, hequals, h⟩ := means_token_cons_iff.1 h
        have hvalue := means_single_iff.1 h
        -- What the strict grammar assigns to is a unary expression.
        rcases htarget with rfl | ⟨us, _, rfl, hobject, h⟩
        · have hname := Relaxed.call (Relaxed.word (.inr ht)) .nil
          rw [List.append_nil] at hname
          exact (hname.level_of_unary .disjunction).assign hequals hvalue
        · obtain ⟨dot, rfl, hdot⟩ := means_token_iff.1 h
          have hproperty := (Relaxed.access hobject hdot ht).level_of_unary .disjunction
          have hassign := hproperty.assign hequals hvalue
          simpa using hassign
      · exact .assignment h
  | arguments =>
      have hlisted : Lists (Relaxed .expression) maxArguments ts := h
      obtain ⟨us, vs, rfl, hfirst, hrest⟩ := hlisted.exists_more
      exact .arguments hfirst hrest
  | _ => exact Language.intro h

end Lox.Grammar
