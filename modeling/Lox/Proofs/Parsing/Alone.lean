import Lox.Proofs.Parsing.Closed
import Lox.Proofs.Renumbering.Program
import Lox.Source

set_option autoImplicit false

/-! # An expression by itself and as a statement

`Expr.ofTokens` does not look at the errors that were noted while an expression was read, and
`Program.ofTokens` does. So tokens that are an expression by themselves are one before a semicolon
exactly when no error was noted (`Program.ofTokens_semicolon`): `1 = 2` is an expression, and
`1 = 2;` is no program.
-/

namespace Lox

open Grammar

/-- The errors that are noted while tokens are read as one expression. -/
def Expr.noted (tokens : List Token) (eof : Token) : List ParseError :=
  match Parser.wholeExpression (Cursor.start tokens eof) with
  | .ok _ c => c.collected
  | .error _ c => c.collected

namespace Parser

variable {tokens : List Token} {eof eof' semicolon : Token} {e : Expr} {s : Stmt} {c c₁ : Cursor}

/-! ## An expression before a semicolon -/

theorem wholeExpression_eq_ok_iff :
    wholeExpression c = .ok e c₁ ↔ expression c = .ok e c₁ ∧ c₁.ahead = [] := by
  constructor
  · intro h
    obtain ⟨e', c₂, hexpression, hend⟩ := ok_of_bind h
    by_cases hatEnd : c₂.isAtEnd = true
    · rw [if_pos hatEnd] at hend
      cases hend
      exact ⟨hexpression, isAtEnd_iff.1 hatEnd⟩
    · rw [if_neg hatEnd] at hend
      cases hend
  · rintro ⟨hexpression, hahead⟩
    refine (bind_of_ok hexpression).trans ?_
    rw [if_pos (isAtEnd_iff.2 hahead)]

theorem ofTokens_eq_ok_iff :
    Expr.ofTokens tokens eof = .ok e ↔
      ∃ c₁, wholeExpression (.start tokens eof) = .ok e c₁ ∧
        c₁.collected = Expr.noted tokens eof := by
  rw [Expr.ofTokens, Expr.noted]
  cases wholeExpression (Cursor.start tokens eof) with
  | ok e' c₂ =>
      constructor
      · rintro ⟨⟩
        exact ⟨c₂, rfl, rfl⟩
      · rintro ⟨c₁, ⟨⟩, -⟩
        rfl
  | error failure c₂ => cases failure <;> simp

/-- What is an expression by itself is one before a semicolon, with the same errors noted. -/
theorem expression_semicolon (heof : eof.kind = .eof) (heof' : eof'.kind = .eof)
    (hsemicolon : semicolon.kind = .mark .semicolon) (h : Expr.ofTokens tokens eof = .ok e) :
    expression (.start (tokens ++ [semicolon]) eof') =
      .ok e ⟨[semicolon], eof', Expr.noted tokens eof⟩ := by
  obtain ⟨c₁, hwhole, hnoted⟩ := ofTokens_eq_ok_iff.1 h
  obtain ⟨hexpression, hahead⟩ := wholeExpression_eq_ok_iff.1 hwhole
  have hstart : (Cursor.start tokens eof).Closed semicolon []
      (.start (tokens ++ [semicolon]) eof') := ⟨heof, rfl, rfl⟩
  obtain ⟨c₂, hrun, hc₂⟩ := closes_expression hsemicolon [] _ _ _ _ hstart hexpression
  have heof₂ : c₂.eof = eof' := by
    have hyields := yields_expression (c := .start (tokens ++ [semicolon]) eof') heof'
    rw [Yields, hrun] at hyields
    obtain ⟨_, _, hreach, -⟩ := hyields
    exact hreach.eof
  have hcollected : c₂.collected = Expr.noted tokens eof := hc₂.collected.trans hnoted
  have hahead₂ : c₂.ahead = [semicolon] := by rw [hc₂.ahead, hahead, List.nil_append]
  rw [hrun, ← heof₂, ← hcollected, ← hahead₂]

/-! ## A declaration that is an expression or prints one -/

theorem misses_keyword {α : Type} {w : Keyword} (h : nextKind c.ahead ≠ .keyword w)
    (k : Bool → Parser α) : (acceptKeyword w >>= k) c = k false c := by
  refine (asks_acceptKeyword w).misses k (.inr (Bool.eq_false_iff.2 fun hnext => ?_))
  exact h (Token.Kind.isKeyword_iff.1 hnext)

/-- A declaration takes no more steps than its cursor affords. -/
theorem declaration_of_orFail (h : ∀ b, declarationOrFail (b + 2) c = .ok s c₁) :
    declaration c = .ok (some s) c₁ := by
  have hbudget : c.budget = 16 * c.ahead.length + 13 + 2 + 1 := by rw [Cursor.budget]; omega
  rw [declaration, hbudget, declarationWithin, recovering, h]

/-- What starts as an expression does is an expression. -/
theorem declaration_of_expressionStatement (hstarts : startsExpression (nextKind c.ahead) = true)
    (h : expressionStatement c = .ok s c₁) : declaration c = .ok (some s) c₁ := by
  have hmiss : ∀ w (k : Bool → Parser Stmt), startsExpression (.keyword w) = false →
      (acceptKeyword w >>= k) c = k false c :=
    fun w k hw => misses_keyword (ne_of_eq_true_of_eq_false hstarts hw) k
  have hbrace : c.ahead = [] ∨ (nextKind c.ahead).isMark .leftBrace = false := by
    refine .inr (Bool.eq_false_iff.2 fun hnext => ?_)
    exact ne_of_eq_true_of_eq_false hstarts rfl (Token.Kind.isMark_iff.1 hnext)
  refine declaration_of_orFail fun b => ?_
  rw [declarationOrFail]
  refine (hmiss .classWord _ rfl).trans ((hmiss .funWord _ rfl).trans ?_)
  refine (hmiss .varWord _ rfl).trans ?_
  rw [statementWithin]
  refine (bind_of_ok (p := peek) rfl).trans ?_
  refine (hmiss .forWord _ rfl).trans ((hmiss .ifWord _ rfl).trans ?_)
  refine (hmiss .printWord _ rfl).trans ((hmiss .returnWord _ rfl).trans ?_)
  refine (hmiss .whileWord _ rfl).trans (((asks_acceptMark .leftBrace).misses _ hbrace).trans ?_)
  exact h

theorem declaration_of_printStatement {print : Token} {ts : List Token}
    (hahead : c.ahead = print :: ts) (hprint : print.kind = .keyword .printWord)
    (h : printStatement c.advance = .ok s c₁) : declaration c = .ok (some s) c₁ := by
  have hmiss : ∀ w (k : Bool → Parser Stmt), w ≠ .printWord →
      (acceptKeyword w >>= k) c = k false c := by
    intro w k hw
    refine misses_keyword ?_ k
    rw [hahead, nextKind_cons, hprint]
    rintro ⟨⟩
    exact hw rfl
  refine declaration_of_orFail fun b => ?_
  rw [declarationOrFail]
  refine (hmiss .classWord _ (by decide)).trans ((hmiss .funWord _ (by decide)).trans ?_)
  refine (hmiss .varWord _ (by decide)).trans ?_
  rw [statementWithin]
  refine (bind_of_ok (p := peek) rfl).trans ?_
  refine (hmiss .forWord _ (by decide)).trans ((hmiss .ifWord _ (by decide)).trans ?_)
  refine ((asks_acceptKeyword .printWord).finds _ hahead ?_).trans h
  exact Token.Kind.isKeyword_iff.2 hprint

/-- A mark that is next is read. -/
theorem expectMark_of_ahead {m : Mark} {t : Token} {ts : List Token} (cause : ParseError.Cause)
    (hahead : c.ahead = t :: ts) (ht : t.kind = .mark m) :
    expectMark m cause c = .ok t c.advance := by
  have hpeek : c.peek = t := by rw [Cursor.peek, hahead]
  rw [expectMark, if_pos (isAtMark_iff.2 ⟨t, ts, hahead, ht⟩), hpeek]

end Parser

/-! ## What spells one statement -/

namespace Grammar

variable {p : Phrase} {ts : List Token} {e : Expr}

theorem Spells.of_expression (h : Spells p ts (.stmt (.expression e))) :
    ∃ us semicolon, ts = us ++ [semicolon] ∧ Spells (.symbol .expression) us (.expr e) := by
  generalize htree : Tree.stmt (.expression e) = tree at h
  induction h with
  | exprStmt h hsemicolon =>
      cases htree
      exact ⟨_, _, rfl, h⟩
  | expressionStmt h ih => exact ih htree
  | statement h ih => exact ih htree
  | variableDecl h ih => exact ih htree
  | @forStmt _ _ _ _ _ _ _ _ initial _ increment _ =>
      -- A loop is no expression, in whichever way it is written.
      cases initial <;> cases increment <;> cases htree
  | _ => cases htree

/-- Declarations are spelled one after the other. -/
theorem Spells.of_stmts {ss : List Stmt}
    (h : Spells (.repeated (.symbol .declaration)) ts (.stmts ss)) :
    (ss = [] ∧ ts = []) ∨
      ∃ s rest us vs, ss = s :: rest ∧ ts = us ++ vs ∧
        Spells (.symbol .declaration) us (.stmt s) ∧
        Spells (.repeated (.symbol .declaration)) vs (.stmts rest) := by
  generalize hphrase : Phrase.repeated (.symbol .declaration) = p at h
  generalize htree : Tree.stmts ss = tree at h
  cases h with
  | noDeclarations =>
      cases htree
      exact .inl ⟨rfl, rfl⟩
  | declarations hfirst hrest =>
      cases htree
      exact .inr ⟨_, _, _, _, rfl, rfl, hfirst, hrest⟩
  | block hopening hbody hclosing => cases hphrase
  | _ => cases htree

end Grammar

/-! ## Programs of one statement -/

namespace Program

variable {tokens : List Token} {eof eof' semicolon : Token} {e : Expr} {s : Stmt}

/-- A program whose tokens are those of one declaration, with the errors noted in it. -/
theorem ofTokens_of_declaration {noted : List ParseError} (htokens : tokens ≠ [])
    (h : Parser.declaration (.start tokens eof) = .ok (some s) ⟨[], eof, noted⟩) :
    ofTokens tokens eof = if noted.isEmpty then .ok [s] else .error noted := by
  have hbudget : (Cursor.start tokens eof).budget = 16 * tokens.length + 14 + 1 + 1 := by
    show 16 * (tokens.length + 1) = _
    omega
  have hend : Parser.programWithin (16 * tokens.length + 14 + 1) ⟨[], eof, noted⟩ =
      .ok [] ⟨[], eof, noted⟩ := rfl
  have hrun := Parser.programWithin_of_declaration htokens h hend
  rw [ofTokens]
  simp only [hbudget, hrun]
  rfl

/-- What is an expression by itself is a statement before a semicolon, unless an error was
noted. -/
theorem ofTokens_of_expression (heof : eof.kind = .eof) (heof' : eof'.kind = .eof)
    (hsemicolon : semicolon.kind = .mark .semicolon) (h : Expr.ofTokens tokens eof = .ok e) :
    ofTokens (tokens ++ [semicolon]) eof' =
      if (Expr.noted tokens eof).isEmpty then .ok [.expression e]
      else .error (Expr.noted tokens eof) := by
  have hexpression := Parser.expression_semicolon heof heof' hsemicolon h
  have hstarts := Parser.startsExpression_of_expression heof' hexpression
  have hstatement : Parser.expressionStatement (.start (tokens ++ [semicolon]) eof') =
      .ok (.expression e) ⟨[], eof', Expr.noted tokens eof⟩ := by
    refine (Parser.bind_of_ok hexpression).trans ?_
    exact Parser.bind_of_ok (Parser.expectMark_of_ahead _ rfl hsemicolon)
  refine ofTokens_of_declaration (by simp) ?_
  exact Parser.declaration_of_expressionStatement hstarts hstatement

/-- A program that is one expression is an expression by itself, without its semicolon. -/
theorem spells_of_ofTokens_expression (heof' : eof'.kind = .eof)
    (h : ofTokens (tokens ++ [semicolon]) eof' = .ok [.expression e]) :
    Spells (.symbol .expression) tokens (.expr e) := by
  have hspells := spells_of_ofTokens heof' h
  rcases hspells.of_stmts with ⟨hnil, -⟩ | ⟨_, _, us, vs, hone, hall, hdeclaration, hrest⟩
  · cases hnil
  · cases hone
    rcases hrest.of_stmts with ⟨-, rfl⟩ | ⟨_, _, _, _, hmore, -⟩
    · obtain ⟨ws, semicolon', hws, hexpression⟩ := hdeclaration.of_expression
      rw [List.append_nil, hws] at hall
      rwa [List.append_inj_left' hall rfl]
    · cases hmore

end Program

variable {tokens : List Token} {eof eof' semicolon : Token} {e : Expr}

/-- Every expression of the grammar is one by itself, and no error is noted in it. -/
theorem Expr.exists_of_derives (heof : eof.kind = .eof)
    (h : Derives (.symbol .expression) tokens) :
    ∃ e, Expr.ofTokens tokens eof = .ok e ∧ Expr.noted tokens eof = [] := by
  have hends : Parser.EndsExpression (nextKind []) :=
    ⟨⟨fun l _ => by cases l <;> rfl, nofun, nofun⟩, nofun⟩
  obtain ⟨e, -, hrun⟩ := Parser.accepts_expression heof h hends
  rw [List.append_nil] at hrun
  have hwhole : Parser.wholeExpression (.start tokens eof) = .ok e ⟨[], eof, []⟩ :=
    Parser.wholeExpression_eq_ok_iff.2 ⟨hrun, rfl⟩
  have hnoted : Expr.noted tokens eof = [] := by rw [Expr.noted, hwhole]
  exact ⟨e, Parser.ofTokens_eq_ok_iff.2 ⟨_, hwhole, hnoted.symm⟩, hnoted⟩

/-- Tokens are an expression as a statement exactly if they are one by itself in which no error
was noted. Such errors are all that makes the two differ: they are the errors of the statement. -/
theorem Program.ofTokens_semicolon (tokens : List Token) (e : Expr) {eof eof' semicolon : Token}
    (heof : eof.kind = .eof) (heof' : eof'.kind = .eof)
    (hsemicolon : semicolon.kind = .mark .semicolon) :
    (Program.ofTokens (tokens ++ [semicolon]) eof' = .ok [.expression e] ↔
      Expr.ofTokens tokens eof = .ok e ∧ Expr.noted tokens eof = []) ∧
    (Expr.ofTokens tokens eof = .ok e → Expr.noted tokens eof ≠ [] →
      Program.ofTokens (tokens ++ [semicolon]) eof' = .error (Expr.noted tokens eof)) := by
  have hclean : ∀ e, Expr.ofTokens tokens eof = .ok e → Expr.noted tokens eof = [] →
      Program.ofTokens (tokens ++ [semicolon]) eof' = .ok [.expression e] := by
    intro e he hnoted
    rw [ofTokens_of_expression heof heof' hsemicolon he, hnoted]
    rfl
  refine ⟨⟨fun h => ?_, fun ⟨he, hnoted⟩ => hclean e he hnoted⟩, fun he hnoted => ?_⟩
  · have hspells := spells_of_ofTokens_expression heof' h
    obtain ⟨e', he', hnoted⟩ := Expr.exists_of_derives heof hspells.derives
    -- The statement has one tree, so both ways of reading give the same one.
    have hsame := (hclean e' he' hnoted).symm.trans h
    cases hsame
    exact ⟨he', hnoted⟩
  · rw [ofTokens_of_expression heof heof' hsemicolon he]
    exact if_neg fun hempty => hnoted (List.isEmpty_iff.1 hempty)

/-- `1 = 2` is an expression, and `1 = 2;` has the error that was noted in it. -/
theorem Program.ofTokens_semicolon_number :
    Expr.ofTokens
      [⟨.number 1, "1", 1, 0⟩, ⟨.mark .equal, "=", 1, 2⟩, ⟨.number 2, "2", 1, 4⟩]
      ⟨.eof, "", 1, 5⟩ = .ok (.literal (.number 1)) ∧
    Program.ofTokens
      ([⟨.number 1, "1", 1, 0⟩, ⟨.mark .equal, "=", 1, 2⟩, ⟨.number 2, "2", 1, 4⟩] ++
        [⟨.mark .semicolon, ";", 1, 5⟩]) ⟨.eof, "", 1, 6⟩ =
      .error [⟨.assignmentTarget, ⟨.mark .equal, "=", 1, 2⟩⟩] := by
  have hread : Expr.ofTokens
      [⟨.number 1, "1", 1, 0⟩, ⟨.mark .equal, "=", 1, 2⟩, ⟨.number 2, "2", 1, 4⟩]
      ⟨.eof, "", 1, 5⟩ = .ok (.literal (.number 1)) := rfl
  have hnoted : Expr.noted
      [⟨.number 1, "1", 1, 0⟩, ⟨.mark .equal, "=", 1, 2⟩, ⟨.number 2, "2", 1, 4⟩]
      ⟨.eof, "", 1, 5⟩ = [⟨.assignmentTarget, ⟨.mark .equal, "=", 1, 2⟩⟩] := rfl
  refine ⟨hread, ?_⟩
  rw [← hnoted]
  exact (Program.ofTokens_semicolon _ _ rfl rfl rfl).2 hread (by rw [hnoted]; exact nofun)

/-- So the two ways of reading do not accept the same expressions. -/
theorem Program.not_ofTokens_semicolon_iff :
    ¬ ∀ (tokens : List Token) (e : Expr) (eof eof' semicolon : Token), eof.kind = .eof →
      eof'.kind = .eof → semicolon.kind = .mark .semicolon →
      (Expr.ofTokens tokens eof = .ok e ↔
        Program.ofTokens (tokens ++ [semicolon]) eof' = .ok [.expression e]) := by
  intro hagree
  have hread : Expr.ofTokens
      [⟨.number 1, "1", 1, 0⟩, ⟨.mark .equal, "=", 1, 2⟩, ⟨.number 2, "2", 1, 4⟩]
      ⟨.eof, "", 1, 5⟩ = .ok (.literal (.number 1)) := rfl
  have hprogram := (hagree _ _ _ ⟨.eof, "", 1, 6⟩ ⟨.mark .semicolon, ";", 1, 5⟩ rfl rfl rfl).1 hread
  cases hprogram

/-- What can be checked of the expression that a source is read as. -/
theorem Expr.exists_of_parsed (source : String) (check : Expr → Bool)
    (h : (Expr.ofText source).parsed.toOption.any check = true) :
    ∃ e, (Expr.ofText source).parsed = .ok e ∧ check e = true := by
  cases hparsed : (Expr.ofText source).parsed with
  | error error =>
      rw [hparsed] at h
      cases h
  | ok e =>
      rw [hparsed] at h
      exact ⟨e, rfl, h⟩

end Lox
