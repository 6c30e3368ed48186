import Lox.Proofs.Loop.Direct
import Lox.Proofs.Parsing.Language

set_option autoImplicit false

/-! # The loops of a program

Every `for` among the tokens of a program that is parsed starts the text of a loop, and the tree of
that loop stands in the program (`Program.exists_loop_of_ofTokens`). A program is spelled by its
tokens, so this is an induction on the spelling, in which tokens and trees are taken apart together.
-/

namespace Lox

mutual

/-- All statements in a statement, at any depth. -/
def Stmt.statements : Stmt → List Stmt
  | .block body => Stmt.statementsAll body
  | .branch _ yes none => yes :: yes.statements
  | .branch _ yes (some no) => (yes :: yes.statements) ++ (no :: no.statements)
  | .loop _ body => body :: body.statements
  | .function f => f.statements
  | .classDecl _ _ methods => Function.statementsAll methods
  | .expression _ | .print _ | .var _ _ | .ret _ _ => []

/-- Statements, and all statements in them. -/
def Stmt.statementsAll : List Stmt → List Stmt
  | [] => []
  | s :: ss => (s :: s.statements) ++ Stmt.statementsAll ss

@[inherit_doc Stmt.statements]
def Function.statements : Function → List Stmt
  | .mk _ _ body => Stmt.statementsAll body

@[inherit_doc Stmt.statements]
def Function.statementsAll : List Function → List Stmt
  | [] => []
  | f :: fs => f.statements ++ Function.statementsAll fs

end

/-- The statements of a program, at any depth. -/
def Program.statements (p : Program) : List Stmt := Stmt.statementsAll p

namespace Grammar.Tree

/-- The statements in a tree. -/
def statements : Tree → List Stmt
  | .stmt s => s :: s.statements
  | .maybeStmt none => []
  | .maybeStmt (some s) => s :: s.statements
  | .stmts ss => Stmt.statementsAll ss
  | .function f => f.statements
  | .functions fs => Function.statementsAll fs
  | .expr _ | .maybeExpr _ | .exprs _ | .name _ | .names _ => []

end Grammar.Tree

theorem Stmt.statements_branch (condition : Expr) (yes : Stmt) (no : Option Stmt) :
    (Stmt.branch condition yes no).statements =
      (yes :: yes.statements) ++ (Grammar.Tree.maybeStmt no).statements := by
  cases no with
  | none => exact (List.append_nil _).symm
  | some s => rfl

namespace Lexical

open Grammar

/-- Every `for` among the tokens starts a loop whose tree is one of the statements. -/
def LoopsStand (ss : List Stmt) : List Token → Prop
  | [] => True
  | t :: ts =>
    (t.kind = .keyword .forWord →
      ∃ (l : ForLoop) (us rest : List Token),
        ts = us ++ rest ∧ l.SpelledBy (t :: us) ∧ l.tree ∈ ss) ∧
    LoopsStand ss ts

namespace LoopsStand

variable {ss ss' : List Stmt} {ts us : List Token} {t : Token}

theorem nil : LoopsStand ss [] := trivial

theorem cons {k : Token.Kind} (h : LoopsStand ss ts) (hkind : t.kind = k)
    (hne : k ≠ .keyword .forWord) : LoopsStand ss (t :: ts) :=
  ⟨fun hfor => absurd (hkind.symm.trans hfor) hne, h⟩

theorem append (hts : LoopsStand ss ts) (hus : LoopsStand ss us) : LoopsStand ss (ts ++ us) := by
  induction ts with
  | nil => exact hus
  | cons t ts ih =>
      obtain ⟨hfor, hts⟩ := hts
      refine ⟨fun hkind => ?_, ih hts⟩
      obtain ⟨l, vs, rest, rfl, hl, htree⟩ := hfor hkind
      exact ⟨l, vs, rest ++ us, List.append_assoc vs rest us, hl, htree⟩

theorem mono (h : LoopsStand ss ts) (hsub : ss ⊆ ss') : LoopsStand ss' ts := by
  induction ts with
  | nil => trivial
  | cons t ts ih =>
      obtain ⟨hfor, hts⟩ := h
      refine ⟨fun hkind => ?_, ih hts⟩
      obtain ⟨l, vs, rest, hrest, hl, htree⟩ := hfor hkind
      exact ⟨l, vs, rest, hrest, hl, hsub htree⟩

/-- There is no `for` among these tokens at all. -/
theorem ofNone (h : LoopsStand [] ts) : LoopsStand ss ts := h.mono (List.nil_subset ss)

theorem inside {s : Stmt} (h : LoopsStand ss ts) : LoopsStand (s :: ss) ts :=
  h.mono (List.subset_cons_self s ss)

/-- The parts of a text, each with its own statements. -/
theorem both (hts : LoopsStand ss ts) (hus : LoopsStand ss' us) :
    LoopsStand (ss ++ ss') (ts ++ us) :=
  (hts.mono (List.subset_append_left ss ss')).append (hus.mono (List.subset_append_right ss ss'))

/-- A `for` that stands somewhere among the tokens. -/
theorem exists_of_append {before after : List Token}
    (h : LoopsStand ss (before ++ t :: after)) (hkind : t.kind = .keyword .forWord) :
    ∃ (l : ForLoop) (us rest : List Token),
      after = us ++ rest ∧ l.SpelledBy (t :: us) ∧ l.tree ∈ ss := by
  induction before with
  | nil => exact h.1 hkind
  | cons _ _ ih => exact ih h.2

end LoopsStand

/-! ## Loops where they are spelled -/

/-- The body of a loop, and the statements in it, are in the tree. -/
theorem ForLoop.statements_body_subset (l : ForLoop) :
    l.body :: l.body.statements ⊆ l.tree.statements := by
  obtain ⟨initial, condition, increment, body, -⟩ := l
  cases initial <;> cases increment <;>
    simp +contextual [List.subset_def, tree, Stmt.forLoop, Stmt.statements, Stmt.statementsAll]

/-- The statements of the first clause are in the tree. -/
theorem ForLoop.statements_initial_subset (l : ForLoop) :
    (Tree.maybeStmt l.initial).statements ⊆ l.tree.statements := by
  obtain ⟨initial, condition, increment, body, -⟩ := l
  cases initial with
  | none => exact List.nil_subset _
  | some s =>
      simp +contextual [List.subset_def, tree, Stmt.forLoop, Tree.statements, Stmt.statements,
        Stmt.statementsAll]

theorem loopsStand_of_spells {p : Phrase} {ts : List Token} {tree : Tree}
    (h : Spells p ts tree) : LoopsStand tree.statements ts := by
  induction h with
  | literal h =>
      refine ⟨fun hfor => ?_, .nil⟩
      rw [hfor] at h
      cases h
  | unary hop _ ih =>
      refine ⟨fun hfor => ?_, ih⟩
      rw [hfor] at hop
      cases hop
  | @infixed l _ _ _ _ _ _ _ hop _ ihleft ihright =>
      refine ihleft.append ⟨fun hfor => ?_, ihright⟩
      rw [hfor] at hop
      cases l <;> cases hop
  | this h | identifier h | lastName h | forNothing h => exact .cons .nil h nofun
  | noArguments | noExpression | noSuperclass | noMethods | noParameters | noInitializer
  | noDeclarations | noElse => exact .nil
  | primary _ ih | arguments _ ih | lastExpr _ ih | callUnary _ ih | operand _ ih
  | disjunction _ ih | expression _ ih | someExpression _ ih | parameters _ ih | variableDecl _ ih
  | statement _ ih | expressionStmt _ ih | forVariable _ ih | forExpression _ ih => exact ih
  | super h hdot hmethod => exact .cons (.cons (.cons .nil hmethod nofun) hdot nofun) h nofun
  | grouping hopening _ hclosing ih =>
      exact .cons (ih.append (.cons .nil hclosing nofun)) hopening nofun
  | moreExprs _ hcomma _ ih ihrest => exact ih.append (.cons ihrest hcomma nofun)
  | call _ hopening _ hclosing ih iharguments =>
      exact ih.append (.cons (iharguments.append (.cons .nil hclosing nofun)) hopening nofun)
  | get _ hdot hproperty ih => exact ih.append (.cons (.cons .nil hproperty nofun) hdot nofun)
  | assign htarget hequals _ ih => exact .cons (.cons ih hequals nofun) htarget nofun
  | set _ hdot hproperty hequals _ ihobject ih =>
      exact ihobject.append (.cons (.cons (.cons ih hequals nofun) hproperty nofun) hdot nofun)
  | superclass hless hname => exact .cons (.cons .nil hname nofun) hless nofun
  | methods _ _ ih ihrest => exact ih.both ihrest
  | classDecl hkeyword hname _ hopening _ hclosing ihabove ihmethods =>
      have hbody := ihmethods.append (.cons .nil hclosing nofun)
      have hrest := ihabove.ofNone.append (.cons hbody hopening nofun)
      exact .inside (.cons (.cons hrest hname nofun) hkeyword nofun)
  | moreNames h hcomma _ ih => exact .cons (.cons ih hcomma nofun) h nofun
  | function hname hopening _ hclosing _ ihparameters ihbody =>
      have hrest := ihparameters.ofNone.append (.cons ihbody hclosing nofun)
      exact .cons (.cons hrest hopening nofun) hname nofun
  | funDecl hkeyword _ ih => exact .inside (.cons ih hkeyword nofun)
  | initializer hequals _ ih => exact .cons ih hequals nofun
  | varDecl hkeyword hname _ hsemicolon ih =>
      have hrest := ih.append (.cons .nil hsemicolon nofun)
      exact .inside (.cons (.cons hrest hname nofun) hkeyword nofun)
  | declarations _ _ ih ihrest => exact ih.both ihrest
  | exprStmt _ hsemicolon ih => exact .inside (ih.append (.cons .nil hsemicolon nofun))
  | @forStmt _ _ _ _ _ _ _ _ initial condition increment body hkeyword hopening hinitial hcondition
      hsemicolon hincrement hclosing hbody ihinitial ihcondition ihincrement ihbody =>
      let l : ForLoop := ⟨initial, condition, increment, body, hbody.isDeclaration_eq_false⟩
      have hspelled : l.SpelledBy _ :=
        .mk hkeyword hopening hinitial hcondition hsemicolon hincrement hclosing hbody
      have hlast := LoopsStand.cons (ihbody.mono l.statements_body_subset) hclosing nofun
      have hclauses := LoopsStand.cons (ihincrement.ofNone.append hlast) hsemicolon nofun
      have hinside := (ihinitial.mono l.statements_initial_subset).append
        (ihcondition.ofNone.append hclauses)
      exact ⟨fun _ => ⟨l, _, [], (List.append_nil _).symm, hspelled, List.mem_cons_self⟩,
        .cons hinside.inside hopening nofun⟩
  | someElse hkeyword _ ih => exact .cons ih hkeyword nofun
  | ifStmt hkeyword hopening _ hclosing _ _ ihcondition ihyes ihno =>
      have hrest := ihcondition.ofNone.append (.cons (ihyes.both ihno) hclosing nofun)
      rw [Tree.statements, Stmt.statements_branch]
      exact .inside (.cons (.cons hrest hopening nofun) hkeyword nofun)
  | printStmt hkeyword _ hsemicolon ih | returnStmt hkeyword _ hsemicolon ih =>
      exact .inside (.cons (ih.append (.cons .nil hsemicolon nofun)) hkeyword nofun)
  | whileStmt hkeyword hopening _ hclosing _ ihcondition ihbody =>
      have hrest := ihcondition.ofNone.append (.cons ihbody hclosing nofun)
      exact .inside (.cons (.cons hrest hopening nofun) hkeyword nofun)
  | block hopening _ hclosing ih =>
      exact .cons (ih.append (.cons .nil hclosing nofun)) hopening nofun
  | blockStmt _ ih => exact ih.inside

end Lexical

/-- Every `for` of a program that is parsed starts the text of a loop, and the tree of that loop
stands in the program. -/
theorem Program.exists_loop_of_ofTokens {p : Program} {before after : List Token}
    {keyword eof : Token} (heof : eof.kind = .eof)
    (h : Program.ofTokens (before ++ keyword :: after) eof = .ok p)
    (hkeyword : keyword.kind = .keyword .forWord) :
    ∃ (l : Lexical.ForLoop) (ts rest : List Token),
      after = ts ++ rest ∧ l.SpelledBy (keyword :: ts) ∧ l.tree ∈ p.statements := by
  have hstand := Lexical.loopsStand_of_spells (Program.spells_of_ofTokens heof h)
  exact hstand.exists_of_append hkeyword

end Lox
