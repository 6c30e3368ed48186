import Lox.Proofs.Grammar.Spelling

set_option autoImplicit false

/-! # Reading derivations

What a derivation from each symbol is made of, with the tokens of the right-hand side named. These
are the case splits for an induction that follows the parsers.
-/

namespace Lox.Grammar

variable {ts : List Token}

/-! ## Expressions -/

/-- What stands on the left of an assignment. -/
inductive IsTarget : List Token → Prop
  | name {t : Token} (h : t.kind = .identifier) : IsTarget [t]
  | property {dot t : Token} {us : List Token} (hobject : Derives (.symbol .call) us)
      (hdot : dot.kind = .mark .dot) (h : t.kind = .identifier) : IsTarget (us ++ [dot, t])

/-- The operators and further operands of a level. -/
def levelRest (l : Level) : Phrase :=
  .repeated (sequence [operatorPhrase l, .symbol (operandSymbol l)])

/-- The calls and property accesses of a call. -/
def callSuffix : Phrase :=
  choice (sequence [mark .leftParen, .optional (.symbol .arguments), mark .rightParen])
    [sequence [mark .dot, name]]

theorem assignment_cases (h : Derives (.symbol .assignment) ts) :
    (∃ us equals vs, ts = us ++ equals :: vs ∧ IsTarget us ∧ equals.kind = .mark .equal ∧
      Derives (.symbol .assignment) vs) ∨
    Derives (.symbol .logicOr) ts := by
  rcases derives_either_iff.1 (derives_symbol_iff.1 h) with h | h
  · obtain ⟨us, vs, rfl, hobject, h⟩ := derives_cons_iff.1 h
    obtain ⟨t, vs, rfl, ht, h⟩ := derives_token_cons_iff.1 h
    obtain ⟨equals, vs, rfl, hequals, h⟩ := derives_token_cons_iff.1 h
    have hvalue := derives_single_iff.1 h
    refine .inl ?_
    rcases derives_optional_iff.1 hobject with rfl | hobject
    · exact ⟨[t], equals, vs, rfl, .name ht, hequals, hvalue⟩
    · obtain ⟨us, ws, rfl, hcall, h⟩ := derives_cons_iff.1 hobject
      obtain ⟨dot, rfl, hdot⟩ := derives_token_iff.1 h
      refine ⟨us ++ [dot, t], equals, vs, ?_, .property hcall hdot ht, hequals, hvalue⟩
      simp
  · exact .inr h

theorem level_cases {l : Level} (h : Derives (.symbol (levelSymbol l)) ts) :
    ∃ us vs, ts = us ++ vs ∧ Derives (.symbol (operandSymbol l)) us ∧
      Derives (levelRest l) vs := by
  rw [derives_symbol_iff, rule_levelSymbol] at h
  obtain ⟨us, vs, rfl, hoperand, h⟩ := derives_cons_iff.1 h
  exact ⟨us, vs, rfl, hoperand, derives_single_iff.1 h⟩

theorem levelRest_cases {l : Level} (h : Derives (levelRest l) ts) :
    ts = [] ∨ ∃ t op us vs, ts = t :: (us ++ vs) ∧ l.operator? t.kind = some op ∧
      Derives (.symbol (operandSymbol l)) us ∧ Derives (levelRest l) vs := by
  rcases derives_repeated_iff.1 h with rfl | ⟨us, vs, rfl, h, hrest⟩
  · exact .inl rfl
  · obtain ⟨us, ws, rfl, hoperator, hoperand⟩ := derives_cons_iff.1 h
    obtain ⟨t, op, rfl, hop⟩ := derives_operatorPhrase_iff.1 hoperator
    exact .inr ⟨t, op, ws, vs, rfl, hop, derives_single_iff.1 hoperand, hrest⟩

theorem unary_cases (h : Derives (.symbol .unary) ts) :
    (∃ t op us, ts = t :: us ∧ UnaryOp.ofKind? t.kind = some op ∧
      Derives (.symbol .unary) us) ∨
    Derives (.symbol .call) ts := by
  rcases derives_either_iff.1 (derives_symbol_iff.1 h) with h | h
  · obtain ⟨us, vs, rfl, hoperator, hoperand⟩ := derives_cons_iff.1 h
    obtain ⟨t, op, rfl, hop⟩ := derives_unaryOperator_iff.1 hoperator
    exact .inl ⟨t, op, vs, rfl, hop, derives_single_iff.1 hoperand⟩
  · exact .inr h

theorem call_cases (h : Derives (.symbol .call) ts) :
    ∃ us vs, ts = us ++ vs ∧ Derives (.symbol .primary) us ∧
      Derives (.repeated callSuffix) vs := by
  obtain ⟨us, vs, rfl, hprimary, h⟩ := derives_cons_iff.1 (derives_symbol_iff.1 h)
  exact ⟨us, vs, rfl, hprimary, derives_single_iff.1 h⟩

theorem callSuffix_cases (h : Derives callSuffix ts) :
    (∃ opening us closing, ts = opening :: (us ++ [closing]) ∧
      opening.kind = .mark .leftParen ∧ Derives (.optional (.symbol .arguments)) us ∧
      closing.kind = .mark .rightParen) ∨
    ∃ dot t, ts = [dot, t] ∧ dot.kind = .mark .dot ∧ t.kind = .identifier := by
  rcases derives_either_iff.1 h with h | h
  · obtain ⟨opening, us, rfl, hopening, h⟩ := derives_token_cons_iff.1 h
    obtain ⟨us, vs, rfl, harguments, h⟩ := derives_cons_iff.1 h
    obtain ⟨closing, rfl, hclosing⟩ := derives_token_iff.1 h
    exact .inl ⟨opening, us, closing, rfl, hopening, harguments, hclosing⟩
  · obtain ⟨dot, us, rfl, hdot, h⟩ := derives_token_cons_iff.1 h
    obtain ⟨t, rfl, ht⟩ := derives_token_iff.1 h
    exact .inr ⟨dot, t, rfl, hdot, ht⟩

theorem arguments_cases (h : Derives (.optional (.symbol .arguments)) ts) :
    ts = [] ∨ Derives (.listed maxArguments (.symbol .expression)) ts := by
  rcases derives_optional_iff.1 h with rfl | h
  · exact .inl rfl
  · exact .inr (derives_symbol_iff.1 h)

theorem primary_cases (h : Derives (.symbol .primary) ts) :
    (∃ t value, ts = [t] ∧ Literal.ofKind? t.kind = some value) ∨
    (∃ t, ts = [t] ∧ t.kind = .keyword .thisWord) ∨
    (∃ t, ts = [t] ∧ t.kind = .identifier) ∨
    (∃ opening us closing, ts = opening :: (us ++ [closing]) ∧
      opening.kind = .mark .leftParen ∧ Derives (.symbol .expression) us ∧
      closing.kind = .mark .rightParen) ∨
    ∃ t dot method, ts = [t, dot, method] ∧ t.kind = .keyword .superWord ∧
      dot.kind = .mark .dot ∧ method.kind = .identifier := by
  -- The five kinds of literal are one case.
  have literal : ∀ {t : Token} {value : Literal}, Literal.ofKind? t.kind = some value →
      ∃ t' value, [t] = [t'] ∧ Literal.ofKind? t'.kind = some value :=
    fun hvalue => ⟨_, _, rfl, hvalue⟩
  rcases derives_either_iff.1 (derives_symbol_iff.1 h) with h | h
  · obtain ⟨t, rfl, contents, ht⟩ := derives_terminal_iff.1 h
    exact .inl (literal (by rw [ht]; rfl))
  rcases derives_either_iff.1 h with h | h
  · obtain ⟨t, rfl, value, ht⟩ := derives_terminal_iff.1 h
    exact .inl (literal (by rw [ht]; rfl))
  rcases derives_either_iff.1 h with h | h
  · obtain ⟨t, rfl, ht⟩ := derives_terminal_iff.1 h
    exact .inl (literal (by rw [show t.kind = _ from ht]; rfl))
  rcases derives_either_iff.1 h with h | h
  · obtain ⟨t, rfl, ht⟩ := derives_terminal_iff.1 h
    exact .inl (literal (by rw [show t.kind = _ from ht]; rfl))
  rcases derives_either_iff.1 h with h | h
  · obtain ⟨t, rfl, ht⟩ := derives_terminal_iff.1 h
    exact .inl (literal (by rw [show t.kind = _ from ht]; rfl))
  rcases derives_either_iff.1 h with h | h
  · obtain ⟨t, rfl, ht⟩ := derives_terminal_iff.1 h
    exact .inr (.inl ⟨t, rfl, ht⟩)
  rcases derives_either_iff.1 h with h | h
  · obtain ⟨t, rfl, ht⟩ := derives_terminal_iff.1 h
    exact .inr (.inr (.inl ⟨t, rfl, ht⟩))
  rcases derives_either_iff.1 h with h | h
  · obtain ⟨opening, us, rfl, hopening, h⟩ := derives_token_cons_iff.1 h
    obtain ⟨us, vs, rfl, hinner, h⟩ := derives_cons_iff.1 h
    obtain ⟨closing, rfl, hclosing⟩ := derives_token_iff.1 h
    exact .inr (.inr (.inr (.inl ⟨opening, us, closing, rfl, hopening, hinner, hclosing⟩)))
  · obtain ⟨t, us, rfl, ht, h⟩ := derives_token_cons_iff.1 h
    obtain ⟨dot, us, rfl, hdot, h⟩ := derives_token_cons_iff.1 h
    obtain ⟨method, rfl, hmethod⟩ := derives_token_iff.1 h
    exact .inr (.inr (.inr (.inr ⟨t, dot, method, rfl, ht, hdot, hmethod⟩)))

/-! ## Declarations -/

theorem initializer_cases (h : Derives initializerPhrase ts) :
    ts = [] ∨ ∃ equals us, ts = equals :: us ∧ equals.kind = .mark .equal ∧
      Derives (.symbol .expression) us := by
  rcases derives_optional_iff.1 h with rfl | h
  · exact .inl rfl
  · obtain ⟨equals, us, rfl, hequals, h⟩ := derives_token_cons_iff.1 h
    exact .inr ⟨equals, us, rfl, hequals, derives_single_iff.1 h⟩

theorem varDecl_cases (h : Derives (.symbol .varDecl) ts) :
    ∃ keyword name us semicolon, ts = keyword :: name :: (us ++ [semicolon]) ∧
      keyword.kind = .keyword .varWord ∧ name.kind = .identifier ∧
      Derives initializerPhrase us ∧ semicolon.kind = .mark .semicolon := by
  obtain ⟨keyword, us, rfl, hkeyword, h⟩ := derives_token_cons_iff.1 (derives_symbol_iff.1 h)
  obtain ⟨name, us, rfl, hname, h⟩ := derives_token_cons_iff.1 h
  obtain ⟨us, vs, rfl, hinitial, h⟩ := derives_cons_iff.1 h
  obtain ⟨semicolon, rfl, hsemicolon⟩ := derives_token_iff.1 h
  exact ⟨keyword, name, us, semicolon, rfl, hkeyword, hname, hinitial, hsemicolon⟩

theorem exprStmt_cases (h : Derives (.symbol .exprStmt) ts) :
    ∃ us semicolon, ts = us ++ [semicolon] ∧ Derives (.symbol .expression) us ∧
      semicolon.kind = .mark .semicolon := by
  obtain ⟨us, vs, rfl, hus, h⟩ := derives_cons_iff.1 (derives_symbol_iff.1 h)
  obtain ⟨semicolon, rfl, hsemicolon⟩ := derives_token_iff.1 h
  exact ⟨us, semicolon, rfl, hus, hsemicolon⟩

theorem block_cases (h : Derives (.symbol .block) ts) :
    ∃ opening us closing, ts = opening :: (us ++ [closing]) ∧
      opening.kind = .mark .leftBrace ∧ Derives (.repeated (.symbol .declaration)) us ∧
      closing.kind = .mark .rightBrace := by
  obtain ⟨opening, us, rfl, hopening, h⟩ := derives_token_cons_iff.1 (derives_symbol_iff.1 h)
  obtain ⟨us, vs, rfl, hus, h⟩ := derives_cons_iff.1 h
  obtain ⟨closing, rfl, hclosing⟩ := derives_token_iff.1 h
  exact ⟨opening, us, closing, rfl, hopening, hus, hclosing⟩

theorem parameters_cases (h : Derives (.optional (.symbol .parameters)) ts) :
    ts = [] ∨ Derives (.listed maxArguments name) ts := by
  rcases derives_optional_iff.1 h with rfl | h
  · exact .inl rfl
  · exact .inr (derives_symbol_iff.1 h)

theorem function_cases (h : Derives (.symbol .function) ts) :
    ∃ name opening us closing vs, ts = name :: opening :: (us ++ closing :: vs) ∧
      name.kind = .identifier ∧ opening.kind = .mark .leftParen ∧
      Derives (.optional (.symbol .parameters)) us ∧ closing.kind = .mark .rightParen ∧
      Derives (.symbol .block) vs := by
  obtain ⟨name, us, rfl, hname, h⟩ := derives_token_cons_iff.1 (derives_symbol_iff.1 h)
  obtain ⟨opening, us, rfl, hopening, h⟩ := derives_token_cons_iff.1 h
  obtain ⟨us, vs, rfl, hus, h⟩ := derives_cons_iff.1 h
  obtain ⟨closing, vs, rfl, hclosing, h⟩ := derives_token_cons_iff.1 h
  exact ⟨name, opening, us, closing, vs, rfl, hname, hopening, hus, hclosing,
    derives_single_iff.1 h⟩

theorem superclass_cases (h : Derives superclassPhrase ts) :
    ts = [] ∨ ∃ less name, ts = [less, name] ∧ less.kind = .mark .less ∧
      name.kind = .identifier := by
  rcases derives_optional_iff.1 h with rfl | h
  · exact .inl rfl
  · obtain ⟨less, us, rfl, hless, h⟩ := derives_token_cons_iff.1 h
    obtain ⟨name, rfl, hname⟩ := derives_token_iff.1 h
    exact .inr ⟨less, name, rfl, hless, hname⟩

theorem classDecl_cases (h : Derives (.symbol .classDecl) ts) :
    ∃ keyword name us opening vs closing,
      ts = keyword :: name :: (us ++ opening :: (vs ++ [closing])) ∧
      keyword.kind = .keyword .classWord ∧ name.kind = .identifier ∧
      Derives superclassPhrase us ∧ opening.kind = .mark .leftBrace ∧
      Derives (.repeated (.symbol .function)) vs ∧ closing.kind = .mark .rightBrace := by
  obtain ⟨keyword, us, rfl, hkeyword, h⟩ := derives_token_cons_iff.1 (derives_symbol_iff.1 h)
  obtain ⟨name, us, rfl, hname, h⟩ := derives_token_cons_iff.1 h
  obtain ⟨us, vs, rfl, hus, h⟩ := derives_cons_iff.1 h
  obtain ⟨opening, vs, rfl, hopening, h⟩ := derives_token_cons_iff.1 h
  obtain ⟨vs, ws, rfl, hvs, h⟩ := derives_cons_iff.1 h
  obtain ⟨closing, rfl, hclosing⟩ := derives_token_iff.1 h
  exact ⟨keyword, name, us, opening, vs, closing, rfl, hkeyword, hname, hus, hopening, hvs,
    hclosing⟩

theorem funDecl_cases (h : Derives (.symbol .funDecl) ts) :
    ∃ keyword us, ts = keyword :: us ∧ keyword.kind = .keyword .funWord ∧
      Derives (.symbol .function) us := by
  obtain ⟨keyword, us, rfl, hkeyword, h⟩ := derives_token_cons_iff.1 (derives_symbol_iff.1 h)
  exact ⟨keyword, us, rfl, hkeyword, derives_single_iff.1 h⟩

theorem declaration_cases (h : Derives (.symbol .declaration) ts) :
    Derives (.symbol .classDecl) ts ∨ Derives (.symbol .funDecl) ts ∨
      Derives (.symbol .varDecl) ts ∨ Derives (.symbol .statement) ts := by
  rcases derives_either_iff.1 (derives_symbol_iff.1 h) with h | h
  · exact .inl h
  · exact .inr ((derives_either_iff.1 h).imp_right derives_either_iff.1)

/-! ## Statements -/

/-- A loop or a conditional up to its first statement. -/
def forHead : List Phrase :=
  [word .forWord, mark .leftParen, forInitialPhrase, .optional (.symbol .expression),
    mark .semicolon, .optional (.symbol .expression), mark .rightParen]

@[inherit_doc forHead]
def ifHead : List Phrase :=
  [word .ifWord, mark .leftParen, .symbol .expression, mark .rightParen]

@[inherit_doc forHead]
def whileHead : List Phrase :=
  [word .whileWord, mark .leftParen, .symbol .expression, mark .rightParen]

theorem forInitial_cases (h : Derives forInitialPhrase ts) :
    Derives (.symbol .varDecl) ts ∨ Derives (.symbol .exprStmt) ts ∨
      ∃ semicolon, ts = [semicolon] ∧ semicolon.kind = .mark .semicolon := by
  rcases derives_either_iff.1 h with h | h
  · exact .inl h
  · exact .inr ((derives_either_iff.1 h).imp_right derives_terminal_iff.1)

theorem forHead_cases (h : Derives (sequence forHead) ts) :
    ∃ keyword opening us vs semicolon ws closing,
      ts = keyword :: opening :: (us ++ (vs ++ semicolon :: (ws ++ [closing]))) ∧
      keyword.kind = .keyword .forWord ∧ opening.kind = .mark .leftParen ∧
      Derives forInitialPhrase us ∧ Derives (.optional (.symbol .expression)) vs ∧
      semicolon.kind = .mark .semicolon ∧ Derives (.optional (.symbol .expression)) ws ∧
      closing.kind = .mark .rightParen := by
  obtain ⟨keyword, us, rfl, hkeyword, h⟩ := derives_token_cons_iff.1 h
  obtain ⟨opening, us, rfl, hopening, h⟩ := derives_token_cons_iff.1 h
  obtain ⟨us, vs, rfl, hus, h⟩ := derives_cons_iff.1 h
  obtain ⟨vs, ws, rfl, hvs, h⟩ := derives_cons_iff.1 h
  obtain ⟨semicolon, ws, rfl, hsemicolon, h⟩ := derives_token_cons_iff.1 h
  obtain ⟨ws, xs, rfl, hws, h⟩ := derives_cons_iff.1 h
  obtain ⟨closing, rfl, hclosing⟩ := derives_token_iff.1 h
  exact ⟨keyword, opening, us, vs, semicolon, ws, closing, rfl, hkeyword, hopening, hus, hvs,
    hsemicolon, hws, hclosing⟩

/-- A condition in parentheses after a keyword. -/
theorem condition_cases {w : Keyword}
    (h : Derives (sequence [word w, mark .leftParen, .symbol .expression, mark .rightParen]) ts) :
    ∃ keyword opening us closing, ts = keyword :: opening :: (us ++ [closing]) ∧
      keyword.kind = .keyword w ∧ opening.kind = .mark .leftParen ∧
      Derives (.symbol .expression) us ∧ closing.kind = .mark .rightParen := by
  obtain ⟨keyword, us, rfl, hkeyword, h⟩ := derives_token_cons_iff.1 h
  obtain ⟨opening, us, rfl, hopening, h⟩ := derives_token_cons_iff.1 h
  obtain ⟨us, vs, rfl, hus, h⟩ := derives_cons_iff.1 h
  obtain ⟨closing, rfl, hclosing⟩ := derives_token_iff.1 h
  exact ⟨keyword, opening, us, closing, rfl, hkeyword, hopening, hus, hclosing⟩

theorem printStmt_cases (h : Derives (.symbol .printStmt) ts) :
    ∃ keyword us semicolon, ts = keyword :: (us ++ [semicolon]) ∧
      keyword.kind = .keyword .printWord ∧ Derives (.symbol .expression) us ∧
      semicolon.kind = .mark .semicolon := by
  obtain ⟨keyword, us, rfl, hkeyword, h⟩ := derives_token_cons_iff.1 (derives_symbol_iff.1 h)
  obtain ⟨us, vs, rfl, hus, h⟩ := derives_cons_iff.1 h
  obtain ⟨semicolon, rfl, hsemicolon⟩ := derives_token_iff.1 h
  exact ⟨keyword, us, semicolon, rfl, hkeyword, hus, hsemicolon⟩

theorem returnStmt_cases (h : Derives (.symbol .returnStmt) ts) :
    ∃ keyword us semicolon, ts = keyword :: (us ++ [semicolon]) ∧
      keyword.kind = .keyword .returnWord ∧ Derives (.optional (.symbol .expression)) us ∧
      semicolon.kind = .mark .semicolon := by
  obtain ⟨keyword, us, rfl, hkeyword, h⟩ := derives_token_cons_iff.1 (derives_symbol_iff.1 h)
  obtain ⟨us, vs, rfl, hus, h⟩ := derives_cons_iff.1 h
  obtain ⟨semicolon, rfl, hsemicolon⟩ := derives_token_iff.1 h
  exact ⟨keyword, us, semicolon, rfl, hkeyword, hus, hsemicolon⟩

/-- A statement without statements at its end, or a loop or conditional with them. -/
theorem statement_cases (h : Derives (.symbol .statement) ts) :
    (∃ s, s ∈ [Symbol.exprStmt, .printStmt, .returnStmt, .block] ∧ Derives (.symbol s) ts) ∨
    (∃ us vs, ts = us ++ vs ∧ (Derives (sequence forHead) us ∨ Derives (sequence whileHead) us) ∧
      Derives (.symbol .statement) vs) ∨
    (∃ us vs, ts = us ++ vs ∧ Derives (sequence ifHead) us ∧ Derives (.symbol .statement) vs) ∨
    ∃ us vs keyword ws, ts = us ++ (vs ++ keyword :: ws) ∧ Derives (sequence ifHead) us ∧
      Derives (.symbol .statement) vs ∧ keyword.kind = .keyword .elseWord ∧
      Derives (.symbol .statement) ws := by
  rcases derives_either_iff.1 (derives_symbol_iff.1 h) with h | h
  · exact .inl ⟨_, by simp, h⟩
  rcases derives_either_iff.1 h with h | h
  · -- A statement at the end is what may lack an `else`, so it is split off.
    have hfor : rule .forStmt = sequence (forHead ++ [.symbol .statement]) := rfl
    rw [derives_symbol_iff, hfor] at h
    obtain ⟨us, vs, rfl, hhead, h⟩ := derives_sequence_append_iff.1 h
    exact .inr (.inl ⟨us, vs, rfl, .inl hhead, derives_single_iff.1 h⟩)
  rcases derives_either_iff.1 h with h | h
  · have hif : rule .ifStmt = sequence (ifHead ++ [.symbol .statement, elsePhrase]) := rfl
    rw [derives_symbol_iff, hif] at h
    obtain ⟨us, vs, rfl, hhead, h⟩ := derives_sequence_append_iff.1 h
    obtain ⟨vs, ws, rfl, hyes, h⟩ := derives_cons_iff.1 h
    rcases derives_optional_iff.1 (derives_single_iff.1 h) with rfl | h
    · exact .inr (.inr (.inl ⟨us, vs, by rw [List.append_nil], hhead, hyes⟩))
    · obtain ⟨keyword, ws, rfl, hkeyword, h⟩ := derives_token_cons_iff.1 h
      exact .inr (.inr (.inr ⟨us, vs, keyword, ws, rfl, hhead, hyes, hkeyword,
        derives_single_iff.1 h⟩))
  rcases derives_either_iff.1 h with h | h
  · exact .inl ⟨_, by simp, h⟩
  rcases derives_either_iff.1 h with h | h
  · exact .inl ⟨_, by simp, h⟩
  rcases derives_either_iff.1 h with h | h
  · have hwhile : rule .whileStmt = sequence (whileHead ++ [.symbol .statement]) := rfl
    rw [derives_symbol_iff, hwhile] at h
    obtain ⟨us, vs, rfl, hhead, h⟩ := derives_sequence_append_iff.1 h
    exact .inr (.inl ⟨us, vs, rfl, .inr hhead, derives_single_iff.1 h⟩)
  · exact .inl ⟨_, by simp, h⟩

end Lox.Grammar
