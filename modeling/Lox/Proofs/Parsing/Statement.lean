import Lox.Proofs.Parsing.Expression

set_option autoImplicit false

/-! # What the statement parsers read

As for expressions: each statement parser ends, and if it notes no error, what it read spells the
tree that it gives. A declaration that fails notes its error and skips at least one token, so
every round of the loops over declarations gets further (`yields_recovering`).
-/

namespace Lox

namespace Cursor

/-- Skipping to a statement leaves a part of what was ahead. -/
theorem exists_append_skipToStatement (last : Token) (ts : List Token) :
    ∃ skipped, ts = skipped ++ skipToStatement last ts := by
  induction ts generalizing last with
  | nil => exact ⟨[], rfl⟩
  | cons t ts ih =>
      unfold skipToStatement
      split
      · exact ⟨[], rfl⟩
      · split
        · exact ⟨[], rfl⟩
        · obtain ⟨skipped, h⟩ := ih t
          exact ⟨t :: skipped, congrArg (t :: ·) h⟩

/-- Recovery notes nothing, and skips something unless nothing is ahead. -/
theorem reaches_synchronize (c : Cursor) :
    ∃ skipped, c.Reaches skipped [] c.synchronize ∧ (c.ahead ≠ [] → skipped ≠ []) := by
  cases hahead : c.ahead with
  | nil =>
      refine ⟨[], ?_, by simp⟩
      have hsync : c.synchronize = c := by simp [synchronize, hahead]
      rw [hsync]
      exact .refl c
  | cons t ts =>
      obtain ⟨skipped, h⟩ := exists_append_skipToStatement t ts
      have hsync : c.synchronize = { c with ahead := skipToStatement t ts } := by
        simp [synchronize, hahead]
      refine ⟨t :: skipped, ?_, by simp⟩
      rw [hsync]
      exact ⟨by rw [hahead, List.cons_append, ← h], rfl, (List.append_nil _).symm⟩

end Cursor

namespace Parser

open Grammar

variable {α : Type} {b : Nat} {c : Cursor}

/-! ## Recovery -/

/-- A parser that recovers gives a value as before, or notes an error; and it gets further if
anything is ahead and the parser does so whenever it gives a value. -/
theorem yields_recovering {p : Parser α} {post : α → List Token → List ParseError → Prop}
    (h : p.Yields c fun a ts es => ts ≠ [] ∧ post a ts es) (hahead : c.ahead ≠ []) :
    (recovering p).Yields c fun o ts es =>
      ts ≠ [] ∧ (es = [] → ∃ a, o = some a ∧ post a ts es) := by
  unfold Yields at h ⊢
  unfold recovering
  cases hp : p c with
  | ok a c' =>
      rw [hp] at h
      obtain ⟨ts, es, hreach, hne, hpost⟩ := h
      exact ⟨ts, es, hreach, hne, fun _ => ⟨a, rfl, hpost⟩⟩
  | error e c' =>
      rw [hp] at h
      cases e with
      | exhausted => exact h
      | failed e =>
          obtain ⟨ts, es, hreach⟩ := h
          -- The parser stops where it failed; recovery skips from there on.
          have hcollect : c'.Reaches [] [e] (c'.collect e) := ⟨rfl, rfl, rfl⟩
          obtain ⟨skipped, hsync, hskipped⟩ := (c'.collect e).reaches_synchronize
          refine ⟨ts ++ skipped, es ++ [e], ?_, ?_, ?_⟩
          · have htrans := (hreach.trans hcollect).trans hsync
            rwa [List.append_nil, List.append_nil] at htrans
          · intro hnil
            obtain ⟨rfl, rfl⟩ := List.append_eq_nil_iff.1 hnil
            refine hskipped ?_ rfl
            show c'.ahead ≠ []
            rwa [hreach.ahead] at hahead
          · intro hnil
            exact absurd (List.append_eq_nil_iff.1 hnil).2 (by simp)

/-! ## Simple statements -/

/-- The parameters from one on, when it is known whether there are too many of them. -/
theorem parameterList_rest (count : Nat)
    (ih : ∀ (count : Nat) (c : Cursor), c.Affords 1 b →
      (parameterListWithin b count).Yields c fun ns ts noted =>
        noted = [] → count < maxArguments ∧
          Spells (.listed (maxArguments - count) name) ts (.names ns))
    (h : c.Affords 1 (b + 1)) :
    (do
      let parameter ← expectName .parameterName
      if ← acceptMark .comma then
        let parameters ← parameterListWithin b (count + 1)
        pure (parameter :: parameters)
      else
        pure [parameter] : Parser (List Name)).Yields c fun ns ts noted =>
      noted = [] → count < maxArguments →
        Spells (.listed (maxArguments - count) name) ts (.names ns) := by
  refine .bind (yields_expectName _) ?_
  rintro parameter c₁ ts es hreach ⟨rfl, t, rfl, ht, rfl⟩
  refine .byMark ?_ ?_
  · rintro comma c₂ hreach₂ _ hcomma
    refine .bind (ih (count + 1) c₂
      (h.further (hreach.trans hreach₂) (by simp) (by decide))) ?_
    rintro parameters c₃ us fs _ hparameters
    refine .pure fun hnil hcount => ?_
    simp only [List.append_nil, List.nil_append] at hnil
    have hmost : maxArguments - count = maxArguments - (count + 1) + 1 := by omega
    rw [hmost]
    simpa using Spells.moreNames ht hcomma (hparameters hnil).2
  · refine .pure fun _ hcount => ?_
    have hmost : maxArguments - count = maxArguments - (count + 1) + 1 := by omega
    rw [hmost]
    exact .lastName ht

theorem yields_parameterList (count : Nat) (h : c.Affords 1 b) :
    (parameterListWithin b count).Yields c fun ns ts noted =>
      noted = [] → count < maxArguments ∧
        Spells (.listed (maxArguments - count) name) ts (.names ns) := by
  induction b generalizing count c with
  | zero =>
      have := h.le
      omega
  | succ b ih =>
      rw [parameterListWithin]
      split
      · refine .peek (.bind (yields_report _ _) ?_)
        rintro _ c₁ ts es hreach ⟨rfl, hes⟩
        refine (parameterList_rest count (fun count c => ih count) (h.reach hreach)).mono ?_
        rintro ns us fs _ hnil
        exact absurd (List.append_eq_nil_iff.1 hnil).1 hes
      · rename_i hcount
        refine (parameterList_rest count (fun count c => ih count) h).mono ?_
        rintro ns us fs hrest hnil
        exact ⟨by omega, hrest hnil (by omega)⟩

theorem yields_parameters (hc : c.eof.kind = .eof) :
    parameters.Yields c (Reads (.optional (.symbol .parameters)) .names) := by
  rw [parameters]
  refine .bind (yields_checkMark _) ?_
  rintro closes c₁ ts es hreach ⟨rfl, rfl, -⟩
  cases closes with
  | true => exact .pure fun _ => .noParameters
  | false =>
      refine .budgeted (fun budget => parameterListWithin budget 0) ?_
      refine (yields_parameterList 0 (.of_budget (hreach.eof_kind hc) (by decide))).mono ?_
      rintro ns us fs hparameters hnil
      exact .parameters (hparameters hnil).2

theorem yields_variableDeclaration (hc : c.eof.kind = .eof) :
    variableDeclaration.Yields c fun s ts noted =>
      noted = [] → ∀ keyword : Token, keyword.kind = .keyword .varWord →
        Spells (.symbol .varDecl) (keyword :: ts) (.stmt s) := by
  rw [variableDeclaration]
  refine .bind (yields_expectName _) ?_
  rintro n c₁ ts es hreach ⟨rfl, t, rfl, ht, rfl⟩
  refine .byMark ?_ ?_
  · rintro equals c₂ hreach₂ _ hequals
    refine .bind (yields_expression ((hreach.trans hreach₂).eof_kind hc)) ?_
    rintro e c₃ us fs _ ⟨-, he⟩
    refine .bind (yields_pure (some e)) ?_
    rintro _ c₄ _ _ _ ⟨rfl, rfl, rfl⟩
    refine .bind (yields_expectMark _ _) ?_
    rintro semicolon c₅ vs gs _ ⟨rfl, rfl, hsemicolon⟩
    refine .pure fun hnil keyword hkeyword => ?_
    simp only [List.append_nil, List.nil_append] at hnil
    simpa using Spells.varDecl hkeyword ht (.initializer hequals (he hnil)) hsemicolon
  · refine .bind (yields_pure none) ?_
    rintro _ c₄ _ _ _ ⟨rfl, rfl, rfl⟩
    refine .bind (yields_expectMark _ _) ?_
    rintro semicolon c₅ vs gs _ ⟨rfl, rfl, hsemicolon⟩
    exact .pure fun _ keyword hkeyword => .varDecl hkeyword ht .noInitializer hsemicolon

theorem yields_expressionStatement (hc : c.eof.kind = .eof) :
    expressionStatement.Yields c (ReadsSome (.symbol .exprStmt) .stmt) := by
  rw [expressionStatement]
  refine .bind (yields_expression hc) ?_
  rintro e c₁ ts es _ ⟨hne, he⟩
  refine .bind (yields_expectMark _ _) ?_
  rintro semicolon c₂ us fs _ ⟨rfl, rfl, hsemicolon⟩
  refine .pure ⟨by simp, fun hnil => ?_⟩
  simp only [List.append_nil] at hnil
  exact .exprStmt (he hnil) hsemicolon

theorem yields_printStatement (hc : c.eof.kind = .eof) :
    printStatement.Yields c fun s ts noted =>
      noted = [] → ∀ keyword : Token, keyword.kind = .keyword .printWord →
        Spells (.symbol .statement) (keyword :: ts) (.stmt s) := by
  rw [printStatement]
  refine .bind (yields_expression hc) ?_
  rintro e c₁ ts es _ ⟨-, he⟩
  refine .bind (yields_expectMark _ _) ?_
  rintro semicolon c₂ us fs _ ⟨rfl, rfl, hsemicolon⟩
  refine .pure fun hnil keyword hkeyword => ?_
  simp only [List.append_nil] at hnil
  exact .printStmt hkeyword (he hnil) hsemicolon

theorem yields_returnStatement (hc : c.eof.kind = .eof) {keyword : Token}
    (hkeyword : keyword.kind = .keyword .returnWord) :
    (returnStatement keyword.toName).Yields c fun s ts noted =>
      noted = [] → Spells (.symbol .statement) (keyword :: ts) (.stmt s) := by
  rw [returnStatement]
  refine .byMark ?_ ?_
  · rintro semicolon c₁ _ _ hsemicolon
    exact .pure fun _ => .returnStmt hkeyword .noExpression hsemicolon
  · refine .bind (yields_expression hc) ?_
    rintro e c₁ ts es _ ⟨-, he⟩
    refine .bind (yields_expectMark _ _) ?_
    rintro semicolon c₂ us fs _ ⟨rfl, rfl, hsemicolon⟩
    refine .pure fun hnil => ?_
    simp only [List.append_nil] at hnil
    exact .returnStmt hkeyword (.someExpression (he hnil)) hsemicolon

theorem yields_forInitial (hc : c.eof.kind = .eof) :
    forInitial.Yields c (Reads forInitialPhrase .maybeStmt) := by
  rw [forInitial]
  refine .byMark ?_ (.byKeyword ?_ ?_)
  · rintro semicolon c₁ _ _ hsemicolon
    exact .pure fun _ => .forNothing hsemicolon
  · rintro keyword c₁ hreach _ hkeyword
    refine .bind (yields_variableDeclaration (hreach.eof_kind hc)) ?_
    rintro s c₂ ts es _ hs
    refine .pure fun hnil => ?_
    simp only [List.append_nil, List.nil_append] at hnil
    simpa using Spells.forVariable (hs hnil keyword hkeyword)
  · refine .bind (yields_expressionStatement hc) ?_
    rintro s c₁ ts es _ ⟨-, hs⟩
    refine .pure fun hnil => ?_
    rw [List.append_nil] at hnil ⊢
    exact .forExpression (hs hnil)

/-- The optional expression, and the mark after it. -/
theorem yields_optionalBefore (hc : c.eof.kind = .eof) (m : Mark) (cause : ParseError.Cause) :
    (optionalBefore m cause).Yields c fun o ts noted =>
      noted = [] → ∃ us t, ts = us ++ [t] ∧ t.kind = .mark m ∧
        Spells (.optional (.symbol .expression)) us (.maybeExpr o) := by
  rw [optionalBefore]
  refine .byMark ?_ ?_
  · rintro t c₁ _ _ ht
    exact .pure fun _ => ⟨[], t, rfl, ht, .noExpression⟩
  · refine .bind (yields_expression hc) ?_
    rintro e c₁ ts es _ ⟨-, he⟩
    refine .bind (yields_expectMark _ _) ?_
    rintro t c₂ us fs _ ⟨rfl, rfl, ht⟩
    refine .pure fun hnil => ?_
    simp only [List.append_nil] at hnil
    exact ⟨ts, t, rfl, ht, .someExpression (he hnil)⟩

theorem yields_superclassClause :
    superclassClause.Yields c fun o ts noted =>
      noted = [] ∧ Spells superclassPhrase ts (.name o) := by
  rw [superclassClause]
  refine .byMark ?_ ?_
  · rintro less c₁ _ _ hless
    refine .bind (yields_expectName _) ?_
    rintro n c₂ ts es _ ⟨rfl, t, rfl, ht, rfl⟩
    exact .pure ⟨rfl, .superclass hless ht⟩
  · exact .pure ⟨rfl, .noSuperclass⟩

theorem yields_atBlockEnd :
    atBlockEnd.Yields c fun ends ts es =>
      ts = [] ∧ es = [] ∧ ends = (c.isAtMark .rightBrace || c.isAtEnd) :=
  ⟨[], [], .refl c, rfl, rfl, rfl⟩

theorem yields_atEnd :
    atEnd.Yields c fun ends ts es => ts = [] ∧ es = [] ∧ ends = c.isAtEnd :=
  ⟨[], [], .refl c, rfl, rfl, rfl⟩

/-- Whether nothing is ahead. -/
theorem isAtEnd_iff : c.isAtEnd = true ↔ c.ahead = [] := by
  rw [Cursor.isAtEnd, List.isEmpty_iff]

/-! ## Statements and declarations -/

/-- What the statement parsers do with a budget. -/
structure StatementSpecs (b : Nat) : Prop where
  declaration : ∀ c : Cursor, c.Affords 3 b → c.ahead ≠ [] →
    (declarationWithin b).Yields c fun o ts noted =>
      ts ≠ [] ∧ (noted = [] → ∃ s, o = some s ∧ Spells (.symbol .declaration) ts (.stmt s))
  declarationOrFail : ∀ c : Cursor, c.Affords 2 b →
    (declarationOrFail b).Yields c (ReadsSome (.symbol .declaration) .stmt)
  classDecl : ∀ c : Cursor, c.Affords 1 b →
    (classWithin b).Yields c fun s ts noted =>
      noted = [] → ∀ keyword : Token, keyword.kind = .keyword .classWord →
        Spells (.symbol .declaration) (keyword :: ts) (.stmt s)
  methods : ∀ c : Cursor, c.Affords 2 b →
    (methodsWithin b).Yields c (Reads (.repeated (.symbol .function)) .functions)
  function : ∀ (kind : FunctionKind) (c : Cursor), c.Affords 1 b →
    (functionWithin b kind).Yields c (ReadsSome (.symbol .function) .function)
  statement : ∀ c : Cursor, c.Affords 1 b →
    (statementWithin b).Yields c (ReadsSome (.symbol .statement) .stmt)
  block : ∀ c : Cursor, c.Affords 5 b →
    (blockWithin b).Yields c fun body ts noted =>
      noted = [] → ∀ opening : Token, opening.kind = .mark .leftBrace →
        Spells (.symbol .block) (opening :: ts) (.stmts body)
  declarations : ∀ c : Cursor, c.Affords 4 b →
    (declarationsWithin b).Yields c (Reads (.repeated (.symbol .declaration)) .stmts)

theorem declaration_step (ih : StatementSpecs b) (h : c.Affords 3 (b + 1))
    (hahead : c.ahead ≠ []) :
    (declarationWithin (b + 1)).Yields c fun o ts noted =>
      ts ≠ [] ∧ (noted = [] → ∃ s, o = some s ∧ Spells (.symbol .declaration) ts (.stmt s)) := by
  rw [declarationWithin]
  refine (yields_recovering (ih.declarationOrFail c (h.deeper (.refl c) (by decide)))
    hahead).mono ?_
  rintro o ts es ⟨hne, hrest⟩
  refine ⟨hne, fun hnil => ?_⟩
  obtain ⟨s, rfl, hs⟩ := hrest hnil
  exact ⟨s, rfl, hs hnil⟩

theorem declarationOrFail_step (ih : StatementSpecs b) (h : c.Affords 2 (b + 1)) :
    (declarationOrFail (b + 1)).Yields c (ReadsSome (.symbol .declaration) .stmt) := by
  rw [declarationOrFail]
  refine .byKeyword ?_ (.byKeyword ?_ (.byKeyword ?_ ?_))
  · rintro keyword c₁ hreach _ hkeyword
    refine (ih.classDecl c₁ (h.further hreach (by simp) (by decide))).mono ?_
    rintro s ts es hs
    exact ⟨by simp, fun hnil => hs hnil keyword hkeyword⟩
  · rintro keyword c₁ hreach _ hkeyword
    refine .bind (ih.function .function c₁ (h.further hreach (by simp) (by decide))) ?_
    rintro f c₂ ts es _ ⟨-, hf⟩
    refine .pure ⟨by simp, fun hnil => ?_⟩
    simp only [List.append_nil, List.nil_append] at hnil
    simpa using Spells.funDecl hkeyword (hf hnil)
  · rintro keyword c₁ hreach _ hkeyword
    refine (yields_variableDeclaration (hreach.eof_kind h.eof)).mono ?_
    rintro s ts es hs
    exact ⟨by simp, fun hnil => .variableDecl (hs hnil keyword hkeyword)⟩
  · refine (ih.statement c (h.deeper (.refl c) (by decide))).mono ?_
    rintro s ts es ⟨hne, hs⟩
    exact ⟨hne, fun hnil => .statement (hs hnil)⟩

theorem classDecl_step (ih : StatementSpecs b) (h : c.Affords 1 (b + 1)) :
    (classWithin (b + 1)).Yields c fun s ts noted =>
      noted = [] → ∀ keyword : Token, keyword.kind = .keyword .classWord →
        Spells (.symbol .declaration) (keyword :: ts) (.stmt s) := by
  rw [classWithin]
  refine .bind (yields_expectName _) ?_
  rintro n c₁ ts es hreach ⟨rfl, t, rfl, ht, rfl⟩
  refine .bind yields_superclassClause ?_
  rintro above c₂ us fs hreach₂ ⟨rfl, habove⟩
  refine .bind (yields_expectMark _ _) ?_
  rintro opening c₃ vs gs hreach₃ ⟨rfl, rfl, hopening⟩
  refine .bind (ih.methods c₃
    (h.further ((hreach.trans hreach₂).trans hreach₃) (by simp) (by decide))) ?_
  rintro methods c₄ ws hs _ hmethods
  refine .bind (yields_expectMark _ _) ?_
  rintro closing c₅ xs is _ ⟨rfl, rfl, hclosing⟩
  refine .pure fun hnil keyword hkeyword => ?_
  simp only [List.append_nil, List.nil_append] at hnil
  simpa using Spells.classDecl hkeyword ht habove hopening (hmethods hnil) hclosing

theorem methods_step (ih : StatementSpecs b) (h : c.Affords 2 (b + 1)) :
    (methodsWithin (b + 1)).Yields c (Reads (.repeated (.symbol .function)) .functions) := by
  rw [methodsWithin]
  refine .bind yields_atBlockEnd ?_
  rintro ends c₁ ts es hreach ⟨rfl, rfl, -⟩
  cases ends with
  | true => exact .pure fun _ => .noMethods
  | false =>
      refine .bind (ih.function .method c₁ (h.deeper hreach (by decide))) ?_
      rintro f c₂ us fs hreach₂ ⟨hne, hf⟩
      refine .bind (ih.methods c₂ (h.further (hreach.trans hreach₂) (by simp [hne])
        (by decide))) ?_
      rintro rest c₃ vs gs _ hrest
      refine .pure fun hnil => ?_
      simp only [List.append_nil, List.nil_append, List.append_eq_nil_iff] at hnil
      simpa using Spells.methods (hf hnil.1) (hrest hnil.2)

theorem function_step (ih : StatementSpecs b) (kind : FunctionKind) (h : c.Affords 1 (b + 1)) :
    (functionWithin (b + 1) kind).Yields c (ReadsSome (.symbol .function) .function) := by
  rw [functionWithin]
  refine .bind (yields_expectName _) ?_
  rintro n c₁ ts es hreach ⟨rfl, t, rfl, ht, rfl⟩
  refine .bind (yields_expectMark _ _) ?_
  rintro opening c₂ us fs hreach₂ ⟨rfl, rfl, hopening⟩
  have hreach' := hreach.trans hreach₂
  refine .bind (yields_parameters (hreach'.eof_kind h.eof)) ?_
  rintro ns c₃ vs gs hreach₃ hns
  refine .bind (yields_expectMark _ _) ?_
  rintro closing c₄ ws hs hreach₄ ⟨rfl, rfl, hclosing⟩
  refine .bind (yields_expectMark _ _) ?_
  rintro brace c₅ xs is hreach₅ ⟨rfl, rfl, hbrace⟩
  refine .bind (ih.block c₅
    (h.further (((hreach'.trans hreach₃).trans hreach₄).trans hreach₅) (by simp)
      (by decide))) ?_
  rintro body c₆ ys js _ hbody
  refine .pure ⟨by simp, fun hnil => ?_⟩
  simp only [List.append_nil, List.nil_append, List.append_eq_nil_iff] at hnil
  simpa using Spells.function ht hopening (hns hnil.1) hclosing (hbody hnil.2 brace hbrace)

theorem block_step (ih : StatementSpecs b) (h : c.Affords 5 (b + 1)) :
    (blockWithin (b + 1)).Yields c fun body ts noted =>
      noted = [] → ∀ opening : Token, opening.kind = .mark .leftBrace →
        Spells (.symbol .block) (opening :: ts) (.stmts body) := by
  rw [blockWithin]
  refine .bind (ih.declarations c (h.deeper (.refl c) (by decide))) ?_
  rintro body c₁ ts es _ hbody
  refine .bind (yields_expectMark _ _) ?_
  rintro closing c₂ us fs _ ⟨rfl, rfl, hclosing⟩
  refine .pure fun hnil opening hopening => ?_
  simp only [List.append_nil] at hnil
  simpa using Spells.block hopening (hbody hnil) hclosing

theorem declarations_step (ih : StatementSpecs b) (h : c.Affords 4 (b + 1)) :
    (declarationsWithin (b + 1)).Yields c
      (Reads (.repeated (.symbol .declaration)) .stmts) := by
  rw [declarationsWithin]
  refine .bind yields_atBlockEnd ?_
  rintro ends c₁ ts es hreach ⟨rfl, rfl, hends⟩
  cases ends with
  | true => exact .pure fun _ => .noDeclarations
  | false =>
      -- Something is ahead, so a declaration is read or something is skipped.
      have hahead : c₁.ahead ≠ [] := by
        intro hnil
        have hc : c.ahead = [] := by rw [hreach.ahead, hnil]; rfl
        simp [Cursor.isAtEnd, hc] at hends
      refine .bind (ih.declaration c₁ (h.deeper hreach (by decide)) hahead) ?_
      rintro o c₂ us fs hreach₂ ⟨hne, hfirst⟩
      refine .bind (ih.declarations c₂ (h.further (hreach.trans hreach₂) (by simp [hne])
        (by decide))) ?_
      rintro rest c₃ vs gs _ hrest
      refine .pure fun hnil => ?_
      simp only [List.append_nil, List.nil_append, List.append_eq_nil_iff] at hnil
      obtain ⟨s, rfl, hs⟩ := hfirst hnil.1
      simpa using Spells.declarations hs (hrest hnil.2)

/-- A `for` statement after its keyword. -/
theorem for_step (ih : StatementSpecs b) {keyword : Token} (h : c.Affords 16 (b + 1))
    (hkeyword : keyword.kind = .keyword .forWord) :
    (do
      let _ ← expectMark .leftParen .forClauses
      let initial ← forInitial
      let condition ← optionalBefore .semicolon .loopConditionEnd
      let increment ← optionalBefore .rightParen .forClausesEnd
      let body ← statementWithin b
      pure (.forLoop initial condition increment body) : Parser Stmt).Yields c
        fun s ts noted =>
          noted = [] → Spells (.symbol .statement) (keyword :: ts) (.stmt s) := by
  refine .bind (yields_expectMark _ _) ?_
  rintro opening c₁ ts es hreach₁ ⟨rfl, rfl, hopening⟩
  refine .bind (yields_forInitial (hreach₁.eof_kind h.eof)) ?_
  rintro initial c₂ us fs hreach₂ hinitial
  have hreach := hreach₁.trans hreach₂
  refine .bind (yields_optionalBefore (hreach.eof_kind h.eof) _ _) ?_
  rintro condition c₃ vs gs hreach₃ hcondition
  have hreach' := hreach.trans hreach₃
  refine .bind (yields_optionalBefore (hreach'.eof_kind h.eof) _ _) ?_
  rintro increment c₄ ws hs hreach₄ hincrement
  refine .bind (ih.statement c₄
    (h.further (hreach'.trans hreach₄) (by simp) (by decide))) ?_
  rintro body c₅ xs is _ ⟨-, hbody⟩
  refine .pure fun hnil => ?_
  simp only [List.append_nil, List.nil_append, List.append_eq_nil_iff] at hnil
  obtain ⟨hfs, hgs, hhs, his⟩ := hnil
  obtain ⟨vs, semicolon, rfl, hsemicolon, hcondition⟩ := hcondition hgs
  obtain ⟨ws, closing, rfl, hclosing, hincrement⟩ := hincrement hhs
  simpa using Spells.forStmt hkeyword hopening (hinitial hfs) hcondition hsemicolon hincrement
    hclosing (hbody his)

/-- A conditional after its keyword. -/
theorem if_step (ih : StatementSpecs b) {keyword : Token} (h : c.Affords 16 (b + 1))
    (hkeyword : keyword.kind = .keyword .ifWord) :
    (do
      let _ ← expectMark .leftParen .ifCondition
      let condition ← expression
      let _ ← expectMark .rightParen .ifConditionEnd
      let yes ← statementWithin b
      if ← acceptKeyword .elseWord then
        let no ← statementWithin b
        pure (.branch condition yes (some no))
      else
        pure (.branch condition yes none) : Parser Stmt).Yields c fun s ts noted =>
          noted = [] → Spells (.symbol .statement) (keyword :: ts) (.stmt s) := by
  refine .bind (yields_expectMark _ _) ?_
  rintro opening c₁ ts es hreach₁ ⟨rfl, rfl, hopening⟩
  refine .bind (yields_expression (hreach₁.eof_kind h.eof)) ?_
  rintro condition c₂ us fs hreach₂ ⟨-, hcondition⟩
  refine .bind (yields_expectMark _ _) ?_
  rintro closing c₃ vs gs hreach₃ ⟨rfl, rfl, hclosing⟩
  have hreach := (hreach₁.trans hreach₂).trans hreach₃
  refine .bind (ih.statement c₃ (h.further hreach (by simp) (by decide))) ?_
  rintro yes c₄ ws hs hreach₄ ⟨-, hyes⟩
  have hreach' := hreach.trans hreach₄
  refine .byKeyword ?_ ?_
  · rintro word c₅ hreach₅ _ hword
    refine .bind (ih.statement c₅
      (h.further (hreach'.trans hreach₅) (by simp) (by decide))) ?_
    rintro no c₆ xs is _ ⟨-, hno⟩
    refine .pure fun hnil => ?_
    simp only [List.append_nil, List.nil_append, List.append_eq_nil_iff] at hnil
    obtain ⟨hfs, hhs, his⟩ := hnil
    simpa using Spells.ifStmt hkeyword hopening (hcondition hfs) hclosing (hyes hhs)
      (.someElse hword (hno his))
  · refine .pure fun hnil => ?_
    simp only [List.append_nil, List.nil_append, List.append_eq_nil_iff] at hnil
    simpa using Spells.ifStmt hkeyword hopening (hcondition hnil.1) hclosing (hyes hnil.2)
      .noElse

/-- A `while` statement after its keyword. -/
theorem while_step (ih : StatementSpecs b) {keyword : Token} (h : c.Affords 16 (b + 1))
    (hkeyword : keyword.kind = .keyword .whileWord) :
    (do
      let _ ← expectMark .leftParen .whileCondition
      let condition ← expression
      let _ ← expectMark .rightParen .whileConditionEnd
      let body ← statementWithin b
      pure (.loop condition body) : Parser Stmt).Yields c fun s ts noted =>
        noted = [] → Spells (.symbol .statement) (keyword :: ts) (.stmt s) := by
  refine .bind (yields_expectMark _ _) ?_
  rintro opening c₁ ts es hreach₁ ⟨rfl, rfl, hopening⟩
  refine .bind (yields_expression (hreach₁.eof_kind h.eof)) ?_
  rintro condition c₂ us fs hreach₂ ⟨-, hcondition⟩
  refine .bind (yields_expectMark _ _) ?_
  rintro closing c₃ vs gs hreach₃ ⟨rfl, rfl, hclosing⟩
  have hreach := (hreach₁.trans hreach₂).trans hreach₃
  refine .bind (ih.statement c₃ (h.further hreach (by simp) (by decide))) ?_
  rintro body c₄ ws hs _ ⟨-, hbody⟩
  refine .pure fun hnil => ?_
  simp only [List.append_nil, List.nil_append, List.append_eq_nil_iff] at hnil
  simpa using Spells.whileStmt hkeyword hopening (hcondition hnil.1) hclosing (hbody hnil.2)

theorem statement_step (ih : StatementSpecs b) (h : c.Affords 1 (b + 1)) :
    (statementWithin (b + 1)).Yields c (ReadsSome (.symbol .statement) .stmt) := by
  rw [statementWithin]
  -- The parsers of what follows a keyword take more steps, but the keyword has paid for them.
  have hafter : ∀ {t : Token} {c₁ : Cursor}, c.Reaches [t] [] c₁ → c₁.Affords 16 (b + 1) :=
    fun hreach => h.afterToken hreach (by simp) (by decide)
  refine .peek (.byKeyword ?_ (.byKeyword ?_ (.byKeyword ?_ (.byKeyword ?_ (.byKeyword ?_
    (.byMark ?_ ?_))))))
  · rintro keyword c₁ hreach _ hkeyword
    exact (for_step ih (hafter hreach) hkeyword).mono fun s ts es hs => ⟨by simp, hs⟩
  · rintro keyword c₁ hreach _ hkeyword
    exact (if_step ih (hafter hreach) hkeyword).mono fun s ts es hs => ⟨by simp, hs⟩
  · rintro keyword c₁ hreach _ hkeyword
    refine (yields_printStatement (hreach.eof_kind h.eof)).mono
      fun s ts es hs => ⟨by simp, fun hnil => ?_⟩
    exact hs hnil keyword hkeyword
  · rintro keyword c₁ hreach hpeek hkeyword
    rw [hpeek]
    exact (yields_returnStatement (hreach.eof_kind h.eof) hkeyword).mono
      fun s ts es hs => ⟨by simp, hs⟩
  · rintro keyword c₁ hreach _ hkeyword
    exact (while_step ih (hafter hreach) hkeyword).mono fun s ts es hs => ⟨by simp, hs⟩
  · rintro opening c₁ hreach _ hopening
    refine .bind (ih.block c₁ (h.further hreach (by simp) (by decide))) ?_
    rintro body c₂ ts es _ hbody
    refine .pure ⟨by simp, fun hnil => ?_⟩
    simp only [List.append_nil, List.nil_append] at hnil
    simpa using Spells.blockStmt (hbody hnil opening hopening)
  · refine (yields_expressionStatement h.eof).mono ?_
    rintro s ts es ⟨hne, hs⟩
    exact ⟨hne, fun hnil => .expressionStmt (hs hnil)⟩

/-- The statement parsers end, and read what they give. -/
theorem statementSpecs (b : Nat) : StatementSpecs b := by
  induction b with
  | zero =>
      constructor
      all_goals
        intros
        exact absurd rfl (Cursor.Affords.budget_ne_zero ‹_› (by decide))
  | succ b ih =>
      exact
        { declaration := fun _ h hahead => declaration_step ih h hahead
          declarationOrFail := fun _ h => declarationOrFail_step ih h
          classDecl := fun _ h => classDecl_step ih h
          methods := fun _ h => methods_step ih h
          function := fun kind _ h => function_step ih kind h
          statement := fun _ h => statement_step ih h
          block := fun _ h => block_step ih h
          declarations := fun _ h => declarations_step ih h }

/-! ## Programs -/

theorem yields_declaration (hc : c.eof.kind = .eof) (hahead : c.ahead ≠ []) :
    declaration.Yields c fun o ts noted =>
      ts ≠ [] ∧ (noted = [] → ∃ s, o = some s ∧ Spells (.symbol .declaration) ts (.stmt s)) := by
  refine Yields.budgeted declarationWithin ?_
  exact (statementSpecs c.budget).declaration c (.of_budget hc (by decide)) hahead

/-- The declarations of a program are read up to the end. -/
theorem yields_program (h : c.Affords 1 b) :
    (programWithin b).Yields c fun p ts noted =>
      ts = c.ahead ∧ Reads (.repeated (.symbol .declaration)) .stmts p ts noted := by
  induction b generalizing c with
  | zero => exact absurd rfl (h.budget_ne_zero (by decide))
  | succ b ih =>
      rw [programWithin]
      refine .bind yields_atEnd ?_
      rintro ends c₁ ts es hreach ⟨rfl, rfl, hends⟩
      cases ends with
      | true => exact .pure ⟨(isAtEnd_iff.1 hends.symm).symm, fun _ => .noDeclarations⟩
      | false =>
          have hahead : c.ahead = c₁.ahead := hreach.ahead
          have hne : c₁.ahead ≠ [] := by
            rw [← hahead]
            intro hnil
            rw [isAtEnd_iff.2 hnil] at hends
            cases hends
          refine .bind (yields_declaration (hreach.eof_kind h.eof) hne) ?_
          rintro o c₂ us fs hreach₂ ⟨husne, hfirst⟩
          refine .bind (ih (h.further (hreach.trans hreach₂) (by simp [husne]) (by decide))) ?_
          rintro rest c₃ vs gs _ ⟨rfl, hrest⟩
          refine .pure ⟨?_, fun hnil => ?_⟩
          · rw [hahead, hreach₂.ahead, List.nil_append, List.append_nil]
          · simp only [List.append_nil, List.nil_append, List.append_eq_nil_iff] at hnil
            obtain ⟨s, rfl, hs⟩ := hfirst hnil.1
            simpa using Spells.declarations hs (hrest hnil.2)

/-- A parser that no syntax error stops. -/
def NeverFails (p : Parser α) : Prop :=
  ∀ c e c', p c ≠ .error (.failed e) c'

theorem NeverFails.bind {β : Type} {p : Parser α} {q : α → Parser β} (hp : NeverFails p)
    (hq : ∀ a, NeverFails (q a)) : NeverFails (p >>= q) := by
  intro c e c' h
  cases hpc : p c with
  | ok a c₁ =>
      rw [bind_of_ok hpc] at h
      exact hq a _ _ _ h
  | error e₁ c₁ =>
      rw [bind_of_error hpc] at h
      cases h
      exact hp _ _ _ hpc

theorem neverFails_pure (a : α) : NeverFails (Pure.pure a) := by
  intro c e c' h
  cases h

theorem neverFails_recovering (p : Parser α) : NeverFails (recovering p) := by
  intro c e c' h
  unfold recovering at h
  split at h <;> cases h

theorem neverFails_declarationWithin (b : Nat) : NeverFails (declarationWithin b) := by
  cases b with
  | zero =>
      intro c e c' h
      cases h
  | succ b =>
      rw [declarationWithin]
      exact neverFails_recovering _

theorem neverFails_declaration : NeverFails declaration :=
  fun c e c' h => neverFails_declarationWithin c.budget c e c' h

/-- Every error in a program is recovered from. -/
theorem neverFails_program (b : Nat) : NeverFails (programWithin b) := by
  induction b with
  | zero =>
      intro c e c' h
      cases h
  | succ b ih =>
      rw [programWithin]
      refine .bind (by intro c e c' h; cases h) ?_
      rintro (_ | _)
      · exact .bind neverFails_declaration fun o => .bind ih fun rest => neverFails_pure _
      · exact neverFails_pure _

/-- Tokens are a program that they spell, unless there are errors. -/
theorem ofTokens_cases (tokens : List Token) {eof : Token} (heof : eof.kind = .eof) :
    (∃ p, Program.ofTokens tokens eof = .ok p ∧
      Spells (.repeated (.symbol .declaration)) tokens (.stmts p)) ∨
    ∃ errors, Program.ofTokens tokens eof = .error errors ∧ errors ≠ [] := by
  have hyields := yields_program (c := .start tokens eof) (.of_budget heof (by decide))
  unfold Yields at hyields
  simp only [Program.ofTokens]
  cases hrun : programWithin (Cursor.start tokens eof).budget (Cursor.start tokens eof) with
  | ok p c =>
      rw [hrun] at hyields
      obtain ⟨ts, es, hreach, hts, hreads⟩ := hyields
      have hcollected : c.collected = es := hreach.collected
      have htokens : ts = tokens := hts
      by_cases hes : es = []
      · refine .inl ⟨p, ?_, by rw [← htokens]; exact hreads hes⟩
        simp [hcollected, hes]
      · refine .inr ⟨es, ?_, hes⟩
        simp [hcollected, hes]
  | error e c =>
      rw [hrun] at hyields
      cases e with
      | failed e => exact absurd hrun (neverFails_program _ _ _ _)
      | exhausted => exact hyields.elim

end Parser

end Lox
