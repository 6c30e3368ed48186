import Lox.Proofs.Grammar.Pairing
import Lox.Proofs.Parsing.ExpressionAcceptance

set_option autoImplicit false

/-! # Every program of the grammar is accepted

As for expressions: the statement parsers accept the tokens that the grammar derives. A statement
that lacks an `else` is only accepted where none comes after, so statements are followed in the
form in which each `else` belongs to the closest `if` (`Grammar.Paired`).
-/

namespace Lox.Parser

open Grammar

variable {eof : Token} {b : Nat} {ts rest : List Token}

/-! ## First tokens -/

/-- A token that starts a statement. -/
def startsInstruction (k : Token.Kind) : Bool :=
  startsExpression k ||
    match k with
    | .keyword .forWord | .keyword .ifWord | .keyword .printWord | .keyword .returnWord
    | .keyword .whileWord | .mark .leftBrace => true
    | _ => false

/-- A token that starts a declaration. -/
def startsDeclaration (k : Token.Kind) : Bool :=
  startsInstruction k ||
    match k with
    | .keyword .classWord | .keyword .funWord | .keyword .varWord => true
    | _ => false

theorem ne_of_eq_true_of_eq_false {f : Token.Kind → Bool} {k k' : Token.Kind} (h : f k = true)
    (h' : f k' = false) : k ≠ k' := by
  rintro rfl
  rw [h] at h'
  cases h'

theorem startsInstruction_of_expression {k : Token.Kind} (h : startsExpression k = true) :
    startsInstruction k = true := by
  unfold startsInstruction
  rw [h, Bool.true_or]

theorem startsDeclaration_of_instruction {k : Token.Kind} (h : startsInstruction k = true) :
    startsDeclaration k = true := by
  unfold startsDeclaration
  rw [h, Bool.true_or]

theorem starts_exprStmt (h : Derives (.symbol .exprStmt) ts) : Starts ts := by
  obtain ⟨us, semicolon, rfl, hus, -⟩ := exprStmt_cases h
  exact (starts_expression hus).append _

theorem startsInstruction_statement (h : Derives (.symbol .statement) ts) :
    ∃ t us, ts = t :: us ∧ startsInstruction t.kind = true := by
  rcases statement_cases h with ⟨s, hs, h⟩ | ⟨us, vs, rfl, hhead | hhead, -⟩ |
    ⟨us, vs, rfl, hhead, -⟩ | ⟨us, vs, keyword, ws, rfl, hhead, -⟩
  · simp only [List.mem_cons, List.not_mem_nil, or_false] at hs
    rcases hs with rfl | rfl | rfl | rfl
    · obtain ⟨t, us, rfl, ht⟩ := starts_exprStmt h
      exact ⟨t, us, rfl, startsInstruction_of_expression ht⟩
    · obtain ⟨keyword, us, semicolon, rfl, hkeyword, -⟩ := printStmt_cases h
      exact ⟨keyword, _, rfl, by rw [hkeyword]; rfl⟩
    · obtain ⟨keyword, us, semicolon, rfl, hkeyword, -⟩ := returnStmt_cases h
      exact ⟨keyword, _, rfl, by rw [hkeyword]; rfl⟩
    · obtain ⟨opening, us, closing, rfl, hopening, -⟩ := block_cases h
      exact ⟨opening, _, rfl, by rw [hopening]; rfl⟩
  all_goals
    obtain ⟨keyword, us, rfl, hkeyword, -⟩ := derives_token_cons_iff.1 hhead
    exact ⟨keyword, _, rfl, by rw [show keyword.kind = _ from hkeyword]; rfl⟩

theorem startsDeclaration_declaration (h : Derives (.symbol .declaration) ts) :
    ∃ t us, ts = t :: us ∧ startsDeclaration t.kind = true := by
  rcases declaration_cases h with h | h | h | h
  · obtain ⟨keyword, name, us, opening, vs, closing, rfl, hkeyword, -⟩ := classDecl_cases h
    exact ⟨keyword, _, rfl, by rw [hkeyword]; rfl⟩
  · obtain ⟨keyword, us, rfl, hkeyword, -⟩ := funDecl_cases h
    exact ⟨keyword, _, rfl, by rw [hkeyword]; rfl⟩
  · obtain ⟨keyword, name, us, semicolon, rfl, hkeyword, -⟩ := varDecl_cases h
    exact ⟨keyword, _, rfl, by rw [hkeyword]; rfl⟩
  · obtain ⟨t, us, rfl, ht⟩ := startsInstruction_statement h
    exact ⟨t, us, rfl, startsDeclaration_of_instruction ht⟩

/-! ## Simple statements -/

theorem accepts_parameterList {count most : Nat} (h : Derives (.listed most name) ts)
    (hmost : count + most ≤ maxArguments) (hnext : nextKind rest = .mark .rightParen)
    (hle : ts.length ≤ b) : (parameterListWithin b count).Accepts eof ts rest anything := by
  induction b generalizing count most ts with
  | zero =>
      have hnil := List.eq_nil_of_length_eq_zero (Nat.le_zero.1 hle)
      subst hnil
      cases most with
      | zero => exact absurd h not_derives_listed_zero
      | succ most =>
          rcases derives_listed_succ_iff.1 h with h | ⟨us, comma, vs, hnil, -⟩
          · obtain ⟨t, hnil, -⟩ := derives_terminal_iff.1 h
            cases hnil
          · exact absurd hnil (by simp)
  | succ b ih =>
      cases most with
      | zero => exact absurd h not_derives_listed_zero
      | succ most =>
          rw [parameterListWithin, if_neg (by omega)]
          rcases derives_listed_succ_iff.1 h with h | ⟨us, comma, vs, rfl, h, hcomma, hrest⟩
          · obtain ⟨t, rfl, ht⟩ := derives_terminal_iff.1 h
            exact .expectName ht (.noMark (by rw [List.nil_append, hnext]; simp) (.pure trivial))
          · obtain ⟨t, rfl, ht⟩ := derives_terminal_iff.1 h
            simp only [List.cons_append, List.nil_append, List.length_cons] at hle
            refine .expectName ht (.mark hcomma (.bind_nil (ih hrest (by omega) (by omega)) ?_))
            rintro parameters -
            exact .pure trivial

theorem accepts_parameters (h : Derives (.optional (.symbol .parameters)) ts)
    (hnext : nextKind rest = .mark .rightParen) :
    parameters.Accepts eof ts rest anything := by
  rw [parameters]
  refine .checkMark ?_
  rcases parameters_cases h with rfl | h
  · rw [List.nil_append, hnext, Token.Kind.isMark_iff.2 rfl]
    exact .pure trivial
  · have hstarts : ∃ t us, ts = t :: us ∧ t.kind = .identifier := by
      rcases derives_listed_succ_iff.1 h with h | ⟨us, comma, vs, rfl, h, -⟩
      all_goals
        obtain ⟨t, rfl, ht⟩ := derives_terminal_iff.1 h
        exact ⟨t, _, rfl, ht⟩
    have hcloses : (nextKind (ts ++ rest)).isMark .rightParen = false := by
      obtain ⟨t, us, rfl, ht⟩ := hstarts
      rw [List.cons_append, nextKind_cons, ht]
      rfl
    rw [hcloses]
    refine Accepts.budgeted (fun budget => parameterListWithin budget 0) ?_
    exact accepts_parameterList h (by omega) hnext (by rw [List.length_append]; omega)

theorem endsExpression_cons {t : Token} {m : Mark} (ht : t.kind = .mark m)
    (hm : m = .comma ∨ m = .rightParen ∨ m = .semicolon) (us : List Token) :
    EndsExpression (nextKind (t :: us)) := by
  rw [nextKind_cons, ht]
  exact endsExpression_mark hm

/-- A variable declaration after its keyword. -/
theorem accepts_variableDeclaration (heof : eof.kind = .eof) {n semicolon : Token}
    (hname : n.kind = .identifier) (h : Derives initializerPhrase ts)
    (hsemicolon : semicolon.kind = .mark .semicolon) :
    variableDeclaration.Accepts eof (n :: (ts ++ [semicolon])) rest anything := by
  rw [variableDeclaration]
  refine .expectName hname ?_
  rcases initializer_cases h with rfl | ⟨equals, us, rfl, hequals, hus⟩
  · refine .noMark (by simp [hsemicolon]) (.pure_bind ?_)
    exact .expectMark hsemicolon (.pure trivial)
  · have hends := endsExpression_cons hsemicolon (by simp) rest
    refine .mark hequals (.bind (accepts_expression heof hus hends) ?_)
    rintro e -
    exact .pure_bind (.expectMark hsemicolon (.pure trivial))

theorem accepts_expressionStatement (heof : eof.kind = .eof)
    (h : Derives (.symbol .exprStmt) ts) :
    expressionStatement.Accepts eof ts rest anything := by
  obtain ⟨us, semicolon, rfl, hus, hsemicolon⟩ := exprStmt_cases h
  rw [expressionStatement]
  refine .bind (accepts_expression heof hus (endsExpression_cons hsemicolon (by simp) rest)) ?_
  rintro e -
  exact .expectMark hsemicolon (.pure trivial)

/-- A print statement after its keyword. -/
theorem accepts_printStatement (heof : eof.kind = .eof) {semicolon : Token}
    (h : Derives (.symbol .expression) ts) (hsemicolon : semicolon.kind = .mark .semicolon) :
    printStatement.Accepts eof (ts ++ [semicolon]) rest anything := by
  rw [printStatement]
  refine .bind (accepts_expression heof h (endsExpression_cons hsemicolon (by simp) rest)) ?_
  rintro e -
  exact .expectMark hsemicolon (.pure trivial)

/-- No expression starts with a mark that ends one. -/
theorem nextKind_expression_ne {m : Mark} (h : Derives (.symbol .expression) ts)
    (hm : m = .comma ∨ m = .rightParen ∨ m = .semicolon) (us : List Token) :
    nextKind (ts ++ us) ≠ .mark m := by
  refine ne_of_eq_true_of_eq_false ((starts_expression h).append us).nextKind ?_
  rcases hm with rfl | rfl | rfl <;> rfl

/-- A return statement after its keyword. -/
theorem accepts_returnStatement (heof : eof.kind = .eof) (keyword : Name) {semicolon : Token}
    (h : Derives (.optional (.symbol .expression)) ts)
    (hsemicolon : semicolon.kind = .mark .semicolon) :
    (returnStatement keyword).Accepts eof (ts ++ [semicolon]) rest anything := by
  rw [returnStatement]
  rcases derives_optional_iff.1 h with rfl | h
  · exact .mark hsemicolon (.pure trivial)
  · refine .noMark ?_ (.bind (accepts_expression heof h
      (endsExpression_cons hsemicolon (by simp) rest)) ?_)
    · rw [List.append_assoc]
      exact nextKind_expression_ne h (by simp) _
    · rintro e -
      exact .expectMark hsemicolon (.pure trivial)

theorem accepts_forInitial (heof : eof.kind = .eof) (h : Derives forInitialPhrase ts) :
    forInitial.Accepts eof ts rest anything := by
  rw [forInitial]
  rcases forInitial_cases h with h | h | ⟨semicolon, rfl, hsemicolon⟩
  · obtain ⟨keyword, n, us, semicolon, rfl, hkeyword, hname, hus, hsemicolon⟩ := varDecl_cases h
    refine .noMark (by simp [hkeyword]) (.keyword hkeyword ?_)
    refine .bind_nil (accepts_variableDeclaration heof hname hus hsemicolon) ?_
    rintro s -
    exact .pure trivial
  · have hstarts := ((starts_exprStmt h).append rest).nextKind
    refine .noMark (ne_of_eq_true_of_eq_false hstarts rfl)
      (.noKeyword (ne_of_eq_true_of_eq_false hstarts rfl) ?_)
    refine .bind_nil (accepts_expressionStatement heof h) ?_
    rintro s -
    exact .pure trivial
  · exact .mark hsemicolon (.pure trivial)

/-- An optional expression, and the mark after it. -/
theorem accepts_optionalBefore (heof : eof.kind = .eof) {m : Mark} {cause : ParseError.Cause}
    {t : Token} (h : Derives (.optional (.symbol .expression)) ts) (ht : t.kind = .mark m)
    (hm : m = .comma ∨ m = .rightParen ∨ m = .semicolon) :
    (optionalBefore m cause).Accepts eof (ts ++ [t]) rest anything := by
  rw [optionalBefore]
  rcases derives_optional_iff.1 h with rfl | h
  · exact .mark ht (.pure trivial)
  · refine .noMark ?_ (.bind (accepts_expression heof h (endsExpression_cons ht hm rest)) ?_)
    · rw [List.append_assoc]
      exact nextKind_expression_ne h hm _
    · rintro e -
      exact .expectMark ht (.pure trivial)

theorem accepts_superclassClause {opening : Token} (h : Derives superclassPhrase ts)
    (hopening : opening.kind = .mark .leftBrace) :
    superclassClause.Accepts eof ts (opening :: rest) anything := by
  rw [superclassClause]
  rcases superclass_cases h with rfl | ⟨less, n, rfl, hless, hname⟩
  · exact .noMark (by simp [hopening]) (.pure trivial)
  · exact .mark hless (.expectName hname (.pure trivial))

theorem Accepts.atBlockEnd {β : Type} {q : Bool → Parser β} {post : β → Prop}
    (hq : (q ((nextKind (ts ++ rest)).isMark .rightBrace || (ts ++ rest).isEmpty)).Accepts eof
      ts rest post) : (atBlockEnd >>= q).Accepts eof ts rest post := by
  rw [← Cursor.isAtMark_eq _ _ eof] at hq
  exact hq

theorem Accepts.recovering {α : Type} {p : Parser α} (h : p.Accepts eof ts rest anything) :
    (recovering p).Accepts eof ts rest anything := by
  obtain ⟨a, -, h⟩ := h
  refine ⟨some a, trivial, ?_⟩
  unfold Parser.recovering
  rw [h]

/-! ## Statements and declarations -/

/-- What the statement parsers accept with a budget. -/
structure StatementAcceptance (eof : Token) (b : Nat) : Prop where
  declaration : ∀ ts rest, Derives (.symbol .declaration) ts →
    nextKind rest ≠ .keyword .elseWord → 16 * (ts.length + rest.length) + 3 ≤ b →
    (declarationWithin b).Accepts eof ts rest anything
  declarationOrFail : ∀ ts rest, Derives (.symbol .declaration) ts →
    nextKind rest ≠ .keyword .elseWord → 16 * (ts.length + rest.length) + 2 ≤ b →
    (declarationOrFail b).Accepts eof ts rest anything
  classDecl : ∀ n us opening vs closing rest, n.kind = .identifier →
    Derives superclassPhrase us → opening.kind = .mark .leftBrace →
    Derives (.repeated (.symbol .function)) vs → closing.kind = .mark .rightBrace →
    16 * ((n :: (us ++ opening :: (vs ++ [closing]))).length + rest.length) + 1 ≤ b →
    (classWithin b).Accepts eof (n :: (us ++ opening :: (vs ++ [closing]))) rest anything
  methods : ∀ ts rest, Derives (.repeated (.symbol .function)) ts →
    nextKind rest = .mark .rightBrace → 16 * (ts.length + rest.length) + 2 ≤ b →
    (methodsWithin b).Accepts eof ts rest anything
  function : ∀ kind ts rest, Derives (.symbol .function) ts →
    16 * (ts.length + rest.length) + 1 ≤ b →
    (functionWithin b kind).Accepts eof ts rest anything
  statement : ∀ lacking ts rest, Paired lacking ts →
    (lacking = true → nextKind rest ≠ .keyword .elseWord) →
    16 * (ts.length + rest.length) + 1 ≤ b →
    (statementWithin b).Accepts eof ts rest anything
  block : ∀ ts closing rest, Derives (.repeated (.symbol .declaration)) ts →
    closing.kind = .mark .rightBrace → 16 * ((ts ++ [closing]).length + rest.length) + 5 ≤ b →
    (blockWithin b).Accepts eof (ts ++ [closing]) rest anything
  declarations : ∀ ts rest, Derives (.repeated (.symbol .declaration)) ts →
    nextKind rest = .mark .rightBrace → 16 * (ts.length + rest.length) + 4 ≤ b →
    (declarationsWithin b).Accepts eof ts rest anything

theorem accepts_declarationOrFail_step (heof : eof.kind = .eof)
    (ih : StatementAcceptance eof b) (h : Derives (.symbol .declaration) ts)
    (hnext : nextKind rest ≠ .keyword .elseWord)
    (hle : 16 * (ts.length + rest.length) + 2 ≤ b + 1) :
    (declarationOrFail (b + 1)).Accepts eof ts rest anything := by
  rw [declarationOrFail]
  rcases declaration_cases h with h | h | h | h
  · obtain ⟨keyword, n, us, opening, vs, closing, rfl, hkeyword, hname, hus, hopening, hvs,
      hclosing⟩ := classDecl_cases h
    rw [List.length_cons] at hle
    exact .keyword hkeyword (ih.classDecl n us opening vs closing rest hname hus hopening hvs
      hclosing (by omega))
  · obtain ⟨keyword, us, rfl, hkeyword, hus⟩ := funDecl_cases h
    rw [List.length_cons] at hle
    refine .noKeyword (by simp [hkeyword]) (.keyword hkeyword ?_)
    refine .bind_nil (ih.function .function us rest hus (by omega)) ?_
    rintro f -
    exact .pure trivial
  · obtain ⟨keyword, n, us, semicolon, rfl, hkeyword, hname, hus, hsemicolon⟩ := varDecl_cases h
    refine .noKeyword (by simp [hkeyword]) (.noKeyword (by simp [hkeyword])
      (.keyword hkeyword ?_))
    exact accepts_variableDeclaration heof hname hus hsemicolon
  · have hstarts : startsInstruction (nextKind (ts ++ rest)) = true := by
      obtain ⟨t, us, rfl, ht⟩ := startsInstruction_statement h
      exact ht
    refine .noKeyword (ne_of_eq_true_of_eq_false hstarts rfl)
      (.noKeyword (ne_of_eq_true_of_eq_false hstarts rfl)
        (.noKeyword (ne_of_eq_true_of_eq_false hstarts rfl) ?_))
    obtain ⟨lacking, h⟩ := exists_paired h
    exact ih.statement lacking ts rest h (fun _ => hnext) (by omega)

theorem accepts_classDecl_step (ih : StatementAcceptance eof b) {n opening closing : Token}
    {us vs : List Token} (hname : n.kind = .identifier) (hus : Derives superclassPhrase us)
    (hopening : opening.kind = .mark .leftBrace)
    (hvs : Derives (.repeated (.symbol .function)) vs)
    (hclosing : closing.kind = .mark .rightBrace)
    (hle : 16 * ((n :: (us ++ opening :: (vs ++ [closing]))).length + rest.length) + 1 ≤ b + 1) :
    (classWithin (b + 1)).Accepts eof (n :: (us ++ opening :: (vs ++ [closing]))) rest
      anything := by
  rw [classWithin]
  simp only [List.length_cons, List.length_append, List.length_nil] at hle
  refine .expectName hname (.bind (accepts_superclassClause hus hopening) ?_)
  rintro above -
  refine .expectMark hopening (.bind (ih.methods vs _ hvs hclosing ?_) ?_)
  · simp only [List.length_cons, List.length_append, List.length_nil]
    omega
  · rintro methods -
    exact .expectMark hclosing (.pure trivial)

theorem accepts_methods_step (ih : StatementAcceptance eof b)
    (h : Derives (.repeated (.symbol .function)) ts) (hnext : nextKind rest = .mark .rightBrace)
    (hle : 16 * (ts.length + rest.length) + 2 ≤ b + 1) :
    (methodsWithin (b + 1)).Accepts eof ts rest anything := by
  rw [methodsWithin]
  refine .atBlockEnd ?_
  rcases derives_repeated_iff.1 h with rfl | ⟨us, vs, rfl, hus, hvs⟩
  · rw [List.nil_append, hnext, Token.Kind.isMark_iff.2 rfl]
    exact .pure trivial
  · obtain ⟨n, opening, ws, closing, xs, rfl, hname, -⟩ := function_cases hus
    have hends : (nextKind (n :: opening :: (ws ++ closing :: xs) ++ vs ++ rest)).isMark
        .rightBrace = false := by
      simp only [List.cons_append, nextKind_cons, hname]
      rfl
    rw [hends]
    rw [List.length_append] at hle
    refine .bind (ih.function .method _ _ hus (by rw [List.length_append]; omega)) ?_
    rintro f -
    rw [List.length_cons] at hle
    refine .bind_nil (ih.methods vs rest hvs hnext (by omega)) ?_
    rintro rest -
    exact .pure trivial

theorem accepts_function_step (ih : StatementAcceptance eof b) (kind : FunctionKind)
    (h : Derives (.symbol .function) ts) (hle : 16 * (ts.length + rest.length) + 1 ≤ b + 1) :
    (functionWithin (b + 1) kind).Accepts eof ts rest anything := by
  rw [functionWithin]
  obtain ⟨n, opening, us, closing, vs, rfl, hname, hopening, hus, hclosing, hvs⟩ :=
    function_cases h
  obtain ⟨brace, vs, last, rfl, hbrace, hvs, hlast⟩ := block_cases hvs
  simp only [List.length_cons, List.length_append, List.length_nil] at hle
  refine .expectName hname (.expectMark hopening (.bind (accepts_parameters hus hclosing) ?_))
  rintro ns -
  refine .expectMark hclosing (.expectMark hbrace ?_)
  refine .bind_nil (ih.block vs last rest hvs hlast ?_) ?_
  · simp only [List.length_cons, List.length_append, List.length_nil]
    omega
  · rintro body -
    exact .pure trivial

theorem accepts_block_step (ih : StatementAcceptance eof b) {closing : Token}
    (h : Derives (.repeated (.symbol .declaration)) ts)
    (hclosing : closing.kind = .mark .rightBrace)
    (hle : 16 * ((ts ++ [closing]).length + rest.length) + 5 ≤ b + 1) :
    (blockWithin (b + 1)).Accepts eof (ts ++ [closing]) rest anything := by
  rw [blockWithin]
  simp only [List.length_cons, List.length_append, List.length_nil] at hle
  refine .bind (ih.declarations ts _ h hclosing ?_) ?_
  · simp only [List.length_cons, List.length_append, List.length_nil]
    omega
  · rintro body -
    exact .expectMark hclosing (.pure trivial)

/-- Declarations are followed by no `else`. -/
theorem nextKind_declarations_ne (h : Derives (.repeated (.symbol .declaration)) ts)
    (hnext : nextKind rest ≠ .keyword .elseWord) :
    nextKind (ts ++ rest) ≠ .keyword .elseWord := by
  rcases derives_repeated_iff.1 h with rfl | ⟨us, vs, rfl, hus, -⟩
  · exact hnext
  · obtain ⟨t, us, rfl, ht⟩ := startsDeclaration_declaration hus
    exact ne_of_eq_true_of_eq_false (f := startsDeclaration) ht rfl

theorem accepts_declarations_step (ih : StatementAcceptance eof b)
    (h : Derives (.repeated (.symbol .declaration)) ts)
    (hnext : nextKind rest = .mark .rightBrace)
    (hle : 16 * (ts.length + rest.length) + 4 ≤ b + 1) :
    (declarationsWithin (b + 1)).Accepts eof ts rest anything := by
  rw [declarationsWithin]
  refine .atBlockEnd ?_
  rcases derives_repeated_iff.1 h with rfl | ⟨us, vs, rfl, hus, hvs⟩
  · rw [List.nil_append, hnext, Token.Kind.isMark_iff.2 rfl]
    exact .pure trivial
  · obtain ⟨t, us, rfl, ht⟩ := startsDeclaration_declaration hus
    -- A declaration starts with no closing brace, so the block goes on.
    have hends : (nextKind (t :: us ++ vs ++ rest)).isMark .rightBrace = false := by
      rw [Bool.eq_false_iff, ne_eq, Token.Kind.isMark_iff]
      exact ne_of_eq_true_of_eq_false (f := startsDeclaration) ht rfl
    rw [hends]
    rw [List.length_append] at hle
    refine .bind (ih.declaration _ _ hus
      (nextKind_declarations_ne hvs (by rw [hnext]; simp))
      (by rw [List.length_append]; omega)) ?_
    rintro first -
    rw [List.length_cons] at hle
    refine .bind_nil (ih.declarations vs rest hvs hnext (by omega)) ?_
    rintro rest -
    exact .pure trivial

/-- A simple statement. -/
theorem accepts_simple (heof : eof.kind = .eof) (ih : StatementAcceptance eof b) {s : Symbol}
    (hs : s ∈ [Symbol.exprStmt, .printStmt, .returnStmt, .block]) (h : Derives (.symbol s) ts)
    (hle : 16 * (ts.length + rest.length) + 1 ≤ b + 1) :
    (statementWithin (b + 1)).Accepts eof ts rest anything := by
  rw [statementWithin]
  refine .peek ?_
  simp only [List.mem_cons, List.not_mem_nil, or_false] at hs
  rcases hs with rfl | rfl | rfl | rfl
  · have hstarts := ((starts_exprStmt h).append rest).nextKind
    refine .noKeyword (ne_of_eq_true_of_eq_false hstarts rfl)
      (.noKeyword (ne_of_eq_true_of_eq_false hstarts rfl)
        (.noKeyword (ne_of_eq_true_of_eq_false hstarts rfl)
          (.noKeyword (ne_of_eq_true_of_eq_false hstarts rfl)
            (.noKeyword (ne_of_eq_true_of_eq_false hstarts rfl)
              (.noMark (ne_of_eq_true_of_eq_false hstarts rfl) ?_)))))
    exact accepts_expressionStatement heof h
  · obtain ⟨keyword, us, semicolon, rfl, hkeyword, hus, hsemicolon⟩ := printStmt_cases h
    refine .noKeyword (by simp [hkeyword]) (.noKeyword (by simp [hkeyword])
      (.keyword hkeyword ?_))
    exact accepts_printStatement heof hus hsemicolon
  · obtain ⟨keyword, us, semicolon, rfl, hkeyword, hus, hsemicolon⟩ := returnStmt_cases h
    refine .noKeyword (by simp [hkeyword]) (.noKeyword (by simp [hkeyword])
      (.noKeyword (by simp [hkeyword]) (.keyword hkeyword ?_)))
    exact accepts_returnStatement heof _ hus hsemicolon
  · obtain ⟨opening, us, closing, rfl, hopening, hus, hclosing⟩ := block_cases h
    rw [List.length_cons] at hle
    refine .noKeyword (by simp [hopening]) (.noKeyword (by simp [hopening])
      (.noKeyword (by simp [hopening]) (.noKeyword (by simp [hopening])
        (.noKeyword (by simp [hopening]) (.mark hopening ?_)))))
    refine .bind_nil (ih.block us closing rest hus hclosing (by omega)) ?_
    rintro body -
    exact .pure trivial

/-- A loop, when its body is accepted. -/
theorem accepts_loop {us vs : List Token} (heof : eof.kind = .eof)
    (hhead : Derives (sequence forHead) us ∨ Derives (sequence whileHead) us)
    (hbody : (statementWithin b).Accepts eof vs rest anything) :
    (statementWithin (b + 1)).Accepts eof (us ++ vs) rest anything := by
  rw [statementWithin]
  refine .peek ?_
  rcases hhead with hhead | hhead
  · obtain ⟨keyword, opening, us, ws, semicolon, xs, closing, rfl, hkeyword, hopening, hus, hws,
      hsemicolon, hxs, hclosing⟩ := forHead_cases hhead
    have happend : keyword :: opening :: (us ++ (ws ++ semicolon :: (xs ++ [closing]))) ++ vs =
        keyword :: opening :: (us ++ ((ws ++ [semicolon]) ++ ((xs ++ [closing]) ++ vs))) := by
      simp
    rw [happend]
    refine .keyword hkeyword (.expectMark hopening (.bind (accepts_forInitial heof hus) ?_))
    rintro initial -
    refine .bind (accepts_optionalBefore heof hws hsemicolon (by simp)) ?_
    rintro condition -
    refine .bind (accepts_optionalBefore heof hxs hclosing (by simp)) ?_
    rintro increment -
    refine .bind_nil hbody ?_
    rintro body -
    exact .pure trivial
  · obtain ⟨keyword, opening, us, closing, rfl, hkeyword, hopening, hus, hclosing⟩ :=
      condition_cases hhead
    simp only [List.cons_append, List.append_assoc, List.nil_append]
    refine .noKeyword (by simp [hkeyword]) (.noKeyword (by simp [hkeyword])
      (.noKeyword (by simp [hkeyword]) (.noKeyword (by simp [hkeyword])
        (.keyword hkeyword (.expectMark hopening ?_)))))
    refine .bind (accepts_expression heof hus (endsExpression_cons hclosing (by simp) _)) ?_
    rintro condition -
    refine .expectMark hclosing (.bind_nil hbody ?_)
    rintro body -
    exact .pure trivial

/-- A conditional, when its branches are accepted. -/
theorem accepts_conditional {us vs ws : List Token} (heof : eof.kind = .eof)
    (hhead : Derives (sequence ifHead) us)
    (hyes : (statementWithin b).Accepts eof vs (ws ++ rest) anything)
    (hno : (ws = [] ∧ nextKind rest ≠ .keyword .elseWord) ∨
      ∃ keyword xs, ws = keyword :: xs ∧ keyword.kind = .keyword .elseWord ∧
        (statementWithin b).Accepts eof xs rest anything) :
    (statementWithin (b + 1)).Accepts eof (us ++ (vs ++ ws)) rest anything := by
  rw [statementWithin]
  refine .peek ?_
  obtain ⟨keyword, opening, us, closing, rfl, hkeyword, hopening, hus, hclosing⟩ :=
    condition_cases hhead
  simp only [List.cons_append, List.append_assoc, List.nil_append]
  refine .noKeyword (by simp [hkeyword]) (.keyword hkeyword (.expectMark hopening ?_))
  refine .bind (accepts_expression heof hus (endsExpression_cons hclosing (by simp) _)) ?_
  rintro condition -
  refine .expectMark hclosing (.bind hyes ?_)
  rintro yes -
  rcases hno with ⟨rfl, hnext⟩ | ⟨word, xs, rfl, hword, hno⟩
  · exact .noKeyword hnext (.pure trivial)
  · refine .keyword hword (.bind_nil hno ?_)
    rintro no -
    exact .pure trivial

theorem accepts_statement_step (heof : eof.kind = .eof) (ih : StatementAcceptance eof b)
    {lacking : Bool} (h : Paired lacking ts)
    (hnext : lacking = true → nextKind rest ≠ .keyword .elseWord)
    (hle : 16 * (ts.length + rest.length) + 1 ≤ b + 1) :
    (statementWithin (b + 1)).Accepts eof ts rest anything := by
  cases h with
  | simple hs h => exact accepts_simple heof ih hs h hle
  | @loop _ us vs hhead hbody =>
      have hpos : 0 < us.length := hhead.elim length_head_pos length_head_pos
      rw [List.length_append] at hle
      exact accepts_loop heof hhead (ih.statement lacking vs rest hbody hnext (by omega))
  | @withoutElse within us vs hhead hyes =>
      -- No `else` comes after, which would be read as part of this statement.
      have hpos : 0 < us.length := length_head_pos hhead
      rw [List.length_append] at hle
      rw [← List.append_nil vs]
      refine accepts_conditional heof hhead ?_ (.inl ⟨rfl, hnext rfl⟩)
      exact ih.statement within vs rest hyes (fun _ => hnext rfl) (by omega)
  | @withElse _ us vs ws keyword hhead hyes hkeyword hno =>
      -- The first branch lacks no `else`, so it does not take the one after it.
      have hpos : 0 < us.length := length_head_pos hhead
      simp only [List.length_append, List.length_cons] at hle
      refine accepts_conditional heof hhead ?_ (.inr ⟨keyword, ws, rfl, hkeyword, ?_⟩)
      · exact ih.statement false vs _ hyes Bool.noConfusion
          (by simp only [List.length_append, List.length_cons]; omega)
      · exact ih.statement lacking ws rest hno hnext (by omega)

/-- The statement parsers accept every statement and declaration of the grammar. -/
theorem statementAcceptance (heof : eof.kind = .eof) (b : Nat) : StatementAcceptance eof b := by
  induction b with
  | zero =>
      constructor
      all_goals
        intros
        omega
  | succ b ih =>
      exact
        { declaration := fun _ _ h hnext hle => by
            rw [declarationWithin]
            exact .recovering (ih.declarationOrFail _ _ h hnext (by omega))
          declarationOrFail := fun _ _ h hnext hle =>
            accepts_declarationOrFail_step heof ih h hnext hle
          classDecl := fun _ _ _ _ _ _ hname hus hopening hvs hclosing hle =>
            accepts_classDecl_step ih hname hus hopening hvs hclosing hle
          methods := fun _ _ h hnext hle => accepts_methods_step ih h hnext hle
          function := fun kind _ _ h hle => accepts_function_step ih kind h hle
          statement := fun _ _ _ h hnext hle => accepts_statement_step heof ih h hnext hle
          block := fun _ _ _ h hclosing hle => accepts_block_step ih h hclosing hle
          declarations := fun _ _ h hnext hle => accepts_declarations_step ih h hnext hle }

/-! ## Programs -/

/-- A declaration of the grammar is accepted, unless an `else` comes after it. -/
theorem accepts_declaration (heof : eof.kind = .eof) (h : Derives (.symbol .declaration) ts)
    (hnext : nextKind rest ≠ .keyword .elseWord) : declaration.Accepts eof ts rest anything := by
  refine Accepts.budgeted declarationWithin ?_
  exact (statementAcceptance heof _).declaration ts rest h hnext
    (by rw [List.length_append]; omega)

theorem accepts_program (heof : eof.kind = .eof)
    (h : Derives (.repeated (.symbol .declaration)) ts) (hle : ts.length + 1 ≤ b) :
    (programWithin b).Accepts eof ts [] anything := by
  induction b generalizing ts with
  | zero => omega
  | succ b ih =>
      rw [programWithin]
      have hatEnd : ∀ {q : Bool → Parser Program},
          (q (ts ++ []).isEmpty).Accepts eof ts [] anything →
          (atEnd >>= q).Accepts eof ts [] anything := fun hq => hq
      refine hatEnd ?_
      rcases derives_repeated_iff.1 h with rfl | ⟨us, vs, rfl, hus, hvs⟩
      · exact .pure trivial
      · obtain ⟨t, us, rfl, -⟩ := startsDeclaration_declaration hus
        rw [List.length_append, List.length_cons] at hle
        refine .bind (accepts_declaration heof hus (nextKind_declarations_ne hvs ?_)) ?_
        · simp [nextKind]
        rintro first -
        refine .bind_nil (ih hvs (by omega)) ?_
        rintro rest -
        exact .pure trivial

end Lox.Parser
