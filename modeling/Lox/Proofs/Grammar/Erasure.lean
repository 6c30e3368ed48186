import Lox.Proofs.Grammar.Spelling

set_option autoImplicit false

/-! # What spells a tree is derivable

Forgetting the trees turns a spelling into a derivation (`Spells.derives`). Only the collecting
rules need work: what a spelling collects from the left, a derivation repeats to the right.
-/

namespace Lox.Grammar

variable {ts us : List Token}

/-- One more call or access after an expression. -/
theorem derives_call_snoc (h : Derives (.symbol .call) ts)
    (hsuffix : Derives
      (choice (sequence [mark .leftParen, .optional (.symbol .arguments), mark .rightParen])
        [sequence [mark .dot, name]]) us) :
    Derives (.symbol .call) (ts ++ us) := by
  rw [derives_symbol_iff] at h
  simp only [rule, sequence, derives_both_iff, derives_empty_iff] at h
  -- The repetition after the first part gets one more item at its end.
  obtain ⟨first, rest, rfl, hfirst, suffixes, _, rfl, hsuffixes, rfl⟩ := h
  refine .symbol ?_
  rw [List.append_nil, List.append_assoc]
  exact .cons hfirst (.single (hsuffixes.snoc hsuffix))

/-- One more operator of a level with its right operand. -/
theorem derives_level_snoc {l : Level} {t : Token} {op : InfixOp}
    (h : Derives (.symbol (levelSymbol l)) ts) (hop : l.operator? t.kind = some op)
    (hright : Derives (.symbol (operandSymbol l)) us) :
    Derives (.symbol (levelSymbol l)) (ts ++ t :: us) := by
  rw [derives_symbol_iff, rule_levelSymbol] at h
  simp only [infixed, sequence, derives_both_iff, derives_empty_iff] at h
  obtain ⟨first, rest, rfl, hfirst, operands, _, rfl, hoperands, rfl⟩ := h
  refine .symbol ?_
  rw [rule_levelSymbol, List.append_nil, List.append_assoc]
  have hop' : Derives (operatorPhrase l) [t] := derives_operatorPhrase_iff.2 ⟨t, op, rfl, hop⟩
  exact .cons hfirst (.single (hoperands.snoc (.cons hop' (.single hright))))

theorem derives_level_of_operand {l : Level} (h : Derives (.symbol (operandSymbol l)) ts) :
    Derives (.symbol (levelSymbol l)) ts := by
  refine .symbol ?_
  rw [rule_levelSymbol, ← List.append_nil ts]
  exact .cons h (.single .done)

theorem derives_statement {s : Symbol} (h : Derives (.symbol s) ts)
    (hs : s ∈ [Symbol.exprStmt, .forStmt, .ifStmt, .printStmt, .returnStmt, .whileStmt, .block]) :
    Derives (.symbol .statement) ts := by
  refine .symbol (.of_choice (r := .symbol s) ?_ h)
  simpa using hs

theorem derives_declaration {s : Symbol} (h : Derives (.symbol s) ts)
    (hs : s ∈ [Symbol.classDecl, .funDecl, .varDecl, .statement]) :
    Derives (.symbol .declaration) ts := by
  refine .symbol (.of_choice (r := .symbol s) ?_ h)
  simpa using hs

/-- Tokens that spell a tree derive from the phrase. -/
theorem Spells.derives {p : Phrase} {tree : Tree} (h : Spells p ts tree) : Derives p ts := by
  induction h with
  | literal h => exact derives_primary_of_literal h
  | this h => exact .symbol (.of_choice (r := word .thisWord) (by simp) (.terminal h))
  | super h hdot hmethod =>
      refine .symbol (.of_choice (r := sequence [word .superWord, mark .dot, name]) (by simp) ?_)
      exact .token_cons h (.token_cons hdot (.token hmethod))
  | identifier h => exact .symbol (.of_choice (r := name) (by simp) (.terminal h))
  | grouping hopening _ hclosing ih =>
      refine .symbol (.of_choice
        (r := sequence [mark .leftParen, .symbol .expression, mark .rightParen]) (by simp) ?_)
      exact .token_cons hopening (.cons ih (.token hclosing))
  | @primary ts _ _ ih =>
      refine .symbol ?_
      rw [← List.append_nil ts]
      exact .cons ih (.single .done)
  | noArguments | noParameters | noExpression | noSuperclass | noInitializer | noElse =>
      exact .absent
  | arguments _ ih | parameters _ ih => exact .present (.symbol ih)
  | lastExpr _ ih => exact .last ih
  | moreExprs _ hcomma _ ih ihrest => exact .more ih hcomma ihrest
  | call _ hopening _ hclosing ih iharguments =>
      refine derives_call_snoc ih (.of_choice (Or.inl rfl) ?_)
      exact .token_cons hopening (.cons iharguments (.token hclosing))
  | get _ hdot hproperty ih =>
      refine derives_call_snoc ih (.of_choice (r := sequence [mark .dot, name]) (by simp) ?_)
      exact .token_cons hdot (.token hproperty)
  | callUnary _ ih => exact .symbol (.right ih)
  | @unary t _ op _ hop _ ih =>
      refine .symbol (.left ?_)
      exact .cons (derives_unaryOperator_iff.2 ⟨t, op, rfl, hop⟩) (.single ih)
  | operand _ ih => exact derives_level_of_operand ih
  | infixed _ hop _ ihleft ihright => exact derives_level_snoc ihleft hop ihright
  | disjunction _ ih => exact .symbol (.right ih)
  | assign htarget hequals _ ih =>
      -- Without an object before the name.
      refine .symbol (.left (.cons .absent ?_))
      exact .token_cons htarget (.token_cons hequals (.single ih))
  | set _ hdot hproperty hequals _ ihobject ih =>
      refine .symbol (.left ?_)
      rw [List.append_cons]
      refine .cons (.present (.cons ihobject (.token hdot))) ?_
      exact .token_cons hproperty (.token_cons hequals (.single ih))
  | expression _ ih => exact .symbol ih
  | someExpression _ ih => exact .present ih
  | superclass hless hname => exact .present (.token_cons hless (.token hname))
  | noMethods | noDeclarations => exact .done
  | methods _ _ ih ihrest | declarations _ _ ih ihrest => exact .again ih ihrest
  | classDecl hkeyword hname _ hopening _ hclosing ihabove ihmethods =>
      refine derives_declaration (s := .classDecl) (.symbol ?_) (by simp)
      refine .token_cons hkeyword (.token_cons hname (.cons ihabove ?_))
      exact .token_cons hopening (.cons ihmethods (.token hclosing))
  | lastName h => exact .last (.terminal h)
  | moreNames h hcomma _ ih => exact .more (.terminal (t := .identifier) h) hcomma ih
  | function hname hopening _ hclosing _ ihparameters ihbody =>
      refine .symbol (.token_cons hname (.token_cons hopening (.cons ihparameters ?_)))
      exact .token_cons hclosing (.single ihbody)
  | funDecl hkeyword _ ih =>
      refine derives_declaration (s := .funDecl) (.symbol ?_) (by simp)
      exact .token_cons hkeyword (.single ih)
  | initializer hequals _ ih => exact .present (.token_cons hequals (.single ih))
  | varDecl hkeyword hname _ hsemicolon ih =>
      refine .symbol (.token_cons hkeyword (.token_cons hname ?_))
      exact .cons ih (.token hsemicolon)
  | variableDecl _ ih | statement _ ih => exact derives_declaration ih (by simp)
  | exprStmt _ hsemicolon ih => exact .symbol (.cons ih (.token hsemicolon))
  | expressionStmt _ ih | blockStmt _ ih => exact derives_statement ih (by simp)
  | forVariable _ ih => exact .of_choice (Or.inl rfl) ih
  | forExpression _ ih => exact .of_choice (r := .symbol .exprStmt) (by simp) ih
  | forNothing h => exact .of_choice (r := mark .semicolon) (by simp) (.terminal h)
  | forStmt hkeyword hopening _ _ hsemicolon _ hclosing _ ihinitial ihcondition ihincrement
      ihbody =>
      refine derives_statement (s := .forStmt) (.symbol ?_) (by simp)
      refine .token_cons hkeyword (.token_cons hopening (.cons ihinitial (.cons ihcondition ?_)))
      refine .token_cons hsemicolon (.cons ihincrement ?_)
      exact .token_cons hclosing (.single ihbody)
  | someElse hkeyword _ ih => exact .present (.token_cons hkeyword (.single ih))
  | ifStmt hkeyword hopening _ hclosing _ _ ihcondition ihyes ihno =>
      refine derives_statement (s := .ifStmt) (.symbol ?_) (by simp)
      refine .token_cons hkeyword (.token_cons hopening (.cons ihcondition ?_))
      exact .token_cons hclosing (.cons ihyes (.single ihno))
  | printStmt hkeyword _ hsemicolon ih =>
      refine derives_statement (s := .printStmt) (.symbol ?_) (by simp)
      exact .token_cons hkeyword (.cons ih (.token hsemicolon))
  | returnStmt hkeyword _ hsemicolon ih =>
      refine derives_statement (s := .returnStmt) (.symbol ?_) (by simp)
      exact .token_cons hkeyword (.cons ih (.token hsemicolon))
  | whileStmt hkeyword hopening _ hclosing _ ihcondition ihbody =>
      refine derives_statement (s := .whileStmt) (.symbol ?_) (by simp)
      refine .token_cons hkeyword (.token_cons hopening (.cons ihcondition ?_))
      exact .token_cons hclosing (.single ihbody)
  | block hopening _ hclosing ih =>
      exact .symbol (.token_cons hopening (.cons ih (.token hclosing)))

end Lox.Grammar
