import Lox.Proofs.Binding.Table
import Lox.Proofs.Parsing.Language
import Lox.Proofs.Scanning.Tokens
import Lox.Source

set_option autoImplicit false

/-! # The names in a tree

What the tokens that spell a tree say of its names. Each reference has its offset from a token of
its own (`Spells.count_references_le`), so references differ in their offsets if tokens do. What is
declared or assigned to is an identifier, so it is neither `this` nor `super`, and no declaration is
the whole of a branch or of the body of a loop (`Spells.wellFormed`).
-/

namespace Lox

/-! ## Well-formed trees -/

/-- The name is an identifier. -/
structure Name.Ordinary (n : Name) : Prop where
  ne_this : n.text ≠ "this"
  ne_super : n.text ≠ "super"

/-- The name of a reference fits its role. -/
def Reference.WellNamed (r : Reference) : Prop :=
  match r.role with
  | .variable | .assign => r.name.Ordinary
  | .this => r.name.text = "this"
  | .super => r.name.text = "super"

/-- The statement declares a name. -/
def Stmt.isDeclaration : Stmt → Bool
  | .var _ _ | .function _ | .classDecl _ _ _ => true
  | _ => false

mutual

/-- Declared names are identifiers, and declarations stand where the scope goes on after them. -/
def Stmt.WellFormed : Stmt → Prop
  | .expression _ | .print _ | .ret _ _ => True
  | .var name _ => name.Ordinary
  | .block body => Stmt.WellFormedAll body
  | .branch _ yes none => yes.isDeclaration = false ∧ yes.WellFormed
  | .branch _ yes (some no) =>
    (yes.isDeclaration = false ∧ yes.WellFormed) ∧ no.isDeclaration = false ∧ no.WellFormed
  | .loop _ body => body.isDeclaration = false ∧ body.WellFormed
  | .function f => f.WellFormed
  | .classDecl name _ methods => name.Ordinary ∧ Function.WellFormedAll methods

/-- Every one of the statements is well-formed. -/
def Stmt.WellFormedAll : List Stmt → Prop
  | [] => True
  | s :: ss => s.WellFormed ∧ Stmt.WellFormedAll ss

@[inherit_doc Stmt.WellFormed]
def Function.WellFormed : Function → Prop
  | .mk name parameters body =>
    name.Ordinary ∧ (∀ n ∈ parameters, n.Ordinary) ∧ Stmt.WellFormedAll body

/-- Every one of the functions is well-formed. -/
def Function.WellFormedAll : List Function → Prop
  | [] => True
  | f :: fs => f.WellFormed ∧ Function.WellFormedAll fs

end

theorem Function.WellFormed.ordinary_name {f : Function} (h : f.WellFormed) : f.name.Ordinary := by
  cases f with
  | mk name parameters body => exact h.1

/-- A program whose names are as their tokens have to be. -/
structure Program.WellFormed (p : Program) : Prop where
  statements : Stmt.WellFormedAll p
  references : ∀ r ∈ p.references, r.WellNamed

theorem Token.Faithful.ordinary {t : Token} (h : t.Faithful) (hkind : t.kind = .identifier) :
    t.toName.Ordinary :=
  ⟨h.identifier hkind .thisWord, h.identifier hkind .superWord⟩

namespace Grammar

/-! ## References -/

/-- The references of a tree. The name that a superclass clause may have is one. -/
def Tree.references : Tree → List Reference
  | .expr e => e.references
  | .maybeExpr none => []
  | .maybeExpr (some e) => e.references
  | .exprs es => Expr.referencesAll es
  | .name none => []
  | .name (some n) => [⟨.variable, n⟩]
  | .names _ => []
  | .stmt s => s.references
  | .maybeStmt none => []
  | .maybeStmt (some s) => s.references
  | .stmts ss => Stmt.referencesAll ss
  | .function f => f.references
  | .functions fs => Function.referencesAll fs

@[simp] theorem references_expr (e : Expr) : Tree.references (.expr e) = e.references := rfl

@[simp] theorem references_stmt (s : Stmt) : Tree.references (.stmt s) = s.references := rfl

@[simp] theorem references_functions (fs : List Function) :
    Tree.references (.functions fs) = Function.referencesAll fs := rfl

theorem references_join (op : InfixOp) (line : Nat) (left right : Expr) :
    (op.join line left right).references = left.references ++ right.references := by
  cases op <;> rfl

theorem references_var (name : Name) (initial : Option Expr) :
    (Stmt.var name initial).references = Tree.references (.maybeExpr initial) := by
  cases initial <;> rfl

theorem references_ret (keyword : Name) (value : Option Expr) :
    (Stmt.ret keyword value).references = Tree.references (.maybeExpr value) := by
  cases value <;> rfl

theorem references_branch (condition : Expr) (yes : Stmt) (no : Option Stmt) :
    (Stmt.branch condition yes no).references =
      condition.references ++ (yes.references ++ Tree.references (.maybeStmt no)) := by
  cases no with
  | none => exact congrArg _ (List.append_nil _).symm
  | some no => exact List.append_assoc _ _ _

theorem references_classDecl (name : Name) (above : Option Name) (methods : List Function) :
    (Stmt.classDecl name above methods).references =
      Tree.references (.name above) ++ Function.referencesAll methods := by
  cases above <;> rfl

/-- A loop refers to what its clauses and its body refer to. -/
theorem perm_references_forLoop (initial : Option Stmt) (condition increment : Option Expr)
    (body : Stmt) :
    (Stmt.forLoop initial condition increment body).references.Perm
      (Tree.references (.maybeStmt initial) ++ (Tree.references (.maybeExpr condition) ++
        (Tree.references (.maybeExpr increment) ++ body.references))) := by
  have hcondition : (condition.getD (.literal (.bool true))).references =
      Tree.references (.maybeExpr condition) := by
    cases condition <;> rfl
  have hrounds : (Stmt.forLoop none condition increment body).references.Perm
      (Tree.references (.maybeExpr condition) ++
        (Tree.references (.maybeExpr increment) ++ body.references)) := by
    cases increment with
    | none =>
        simp only [Stmt.forLoop, Stmt.references, hcondition]
        exact .refl _
    | some e =>
        -- The increment follows the body in the block that is run each time.
        simp only [Stmt.forLoop, Stmt.references, Stmt.referencesAll, hcondition,
          List.append_nil]
        exact List.perm_append_comm.append_left _
  cases initial with
  | none => exact hrounds
  | some s =>
      have hloop : Stmt.forLoop (some s) condition increment body =
          .block [s, Stmt.forLoop none condition increment body] := rfl
      simp only [hloop, Stmt.references, Stmt.referencesAll, List.append_nil]
      exact hrounds.append_left _

@[simp] theorem start_toName (t : Token) : t.toName.start = t.start := rfl

/-- The references of a tree take their offsets from its tokens, no two from one token. -/
theorem Spells.count_references_le {p : Phrase} {ts : List Token} {tree : Tree}
    (h : Spells p ts tree) (k : Nat) :
    (tree.references.map (·.name.start)).count k ≤ (ts.map Token.start).count k := by
  induction h with
  | primary _ ih | callUnary _ ih | operand _ ih | disjunction _ ih | expression _ ih
  | arguments _ ih | someExpression _ ih | variableDecl _ ih | statement _ ih
  | expressionStmt _ ih | forVariable _ ih | forExpression _ ih | blockStmt _ ih =>
      exact ih
  | @forStmt _ _ _ _ _ _ _ _ initial condition increment body _ _ _ _ _ _ _ _ ih₁ ih₂ ih₃ ih₄ =>
      have hperm := ((perm_references_forLoop initial condition increment body).map
        fun r : Reference => r.name.start).count_eq k
      simp only [references_stmt, List.map_append, List.map_cons, List.count_append,
        List.count_cons] at hperm ih₄ ⊢
      omega
  | ifStmt | classDecl | varDecl | returnStmt =>
      -- These have optional parts, whose references are not known by unfolding.
      simp only [references_expr, references_stmt, references_functions, references_branch,
        references_classDecl, references_var, references_ret, List.map_append, List.map_cons,
        List.map_nil, List.count_append, List.count_cons, List.count_nil] at *
      omega
  | _ =>
      simp only [Tree.references, Expr.references, Expr.referencesAll, Stmt.references,
        Stmt.referencesAll, Function.references, Function.referencesAll, references_join,
        List.map_append, List.map_cons, List.map_nil, List.count_append, List.count_cons,
        List.count_nil, start_toName] at *
      omega

/-! ## Well-formed trees -/

/-- What is declared in a tree is well-formed. -/
def Tree.WellFormed : Tree → Prop
  | .names ns => ∀ n ∈ ns, n.Ordinary
  | .stmt s | .maybeStmt (some s) => s.WellFormed
  | .stmts ss => Stmt.WellFormedAll ss
  | .function f => f.WellFormed
  | .functions fs => Function.WellFormedAll fs
  | _ => True

theorem wellFormed_forLoop {initial : Option Stmt} {condition increment : Option Expr}
    {body : Stmt} (hinitial : Tree.WellFormed (.maybeStmt initial))
    (hdeclaration : body.isDeclaration = false) (hbody : body.WellFormed) :
    (Stmt.forLoop initial condition increment body).WellFormed := by
  cases initial <;> cases increment <;>
    simp_all [Stmt.forLoop, Stmt.WellFormed, Stmt.WellFormedAll, Stmt.isDeclaration,
      Tree.WellFormed]

theorem isDeclaration_forLoop (initial : Option Stmt) (condition increment : Option Expr)
    (body : Stmt) : (Stmt.forLoop initial condition increment body).isDeclaration = false := by
  cases initial <;> rfl

theorem Spells.isDeclaration_of_exprStmt {ts : List Token} {s : Stmt}
    (h : Spells (.symbol .exprStmt) ts (.stmt s)) : s.isDeclaration = false := by
  generalize hp : Phrase.symbol .exprStmt = p at h
  generalize htree : Tree.stmt s = tree at h
  cases h with
  | exprStmt =>
      cases htree
      rfl
  | _ => first | cases hp | cases htree

/-- What the grammar calls a statement is no declaration. -/
theorem Spells.isDeclaration_eq_false {ts : List Token} {s : Stmt}
    (h : Spells (.symbol .statement) ts (.stmt s)) : s.isDeclaration = false := by
  generalize hp : Phrase.symbol .statement = p at h
  generalize htree : Tree.stmt s = tree at h
  cases h with
  | expressionStmt h =>
      cases htree
      exact h.isDeclaration_of_exprStmt
  | forStmt =>
      cases htree
      exact isDeclaration_forLoop _ _ _ _
  | ifStmt | printStmt | returnStmt | whileStmt | blockStmt =>
      cases htree
      rfl
  | _ => first | cases hp | cases htree

theorem Spells.isDeclaration_of_else {ts : List Token} {s : Stmt}
    (h : Spells elsePhrase ts (.maybeStmt (some s))) : s.isDeclaration = false := by
  generalize hp : elsePhrase = p at h
  generalize htree : Tree.maybeStmt (some s) = tree at h
  cases h with
  | someElse _ h =>
      cases htree
      exact h.isDeclaration_eq_false
  | forVariable | forExpression => simp [elsePhrase, forInitialPhrase, choice] at hp
  | _ => cases htree

variable {p : Phrase} {ts : List Token} {tree : Tree}

/-- What faithful tokens spell is well-formed. -/
theorem Spells.wellFormed (h : Spells p ts tree) (hts : ∀ t ∈ ts, t.Faithful) :
    tree.WellFormed := by
  induction h with
  | parameters _ ih | variableDecl _ ih | statement _ ih | expressionStmt _ ih
  | forVariable _ ih | forExpression _ ih | blockStmt _ ih => exact ih hts
  | forStmt _ _ _ _ _ _ _ hbody ih _ _ ihbody =>
      simp only [List.forall_mem_cons, List.forall_mem_append] at hts
      exact wellFormed_forLoop (ih hts.2.2.1) hbody.isDeclaration_eq_false
        (ihbody hts.2.2.2.2.2.2.2)
  | @ifStmt _ _ _ _ _ _ _ _ no _ _ _ _ hyes hno _ ihyes ihno =>
      simp only [List.forall_mem_cons, List.forall_mem_append] at hts
      have hyes := And.intro hyes.isDeclaration_eq_false (ihyes hts.2.2.2.2.1)
      cases no with
      | none => exact hyes
      | some s => exact ⟨hyes, hno.isDeclaration_of_else, ihno hts.2.2.2.2.2⟩
  | whileStmt _ _ _ _ hbody _ ihbody =>
      simp only [List.forall_mem_cons, List.forall_mem_append] at hts
      exact ⟨hbody.isDeclaration_eq_false, ihbody hts.2.2.2.2⟩
  | _ =>
      simp_all [Tree.WellFormed, Stmt.WellFormed, Stmt.WellFormedAll, Function.WellFormed,
        Function.WellFormedAll, Token.Faithful.ordinary, or_imp, forall_and]

/-- What faithful tokens spell refers to names that fit their roles. -/
theorem Spells.wellNamed (h : Spells p ts tree) (hts : ∀ t ∈ ts, t.Faithful) :
    ∀ r ∈ tree.references, r.WellNamed := by
  induction h with
  | primary _ ih | callUnary _ ih | operand _ ih | disjunction _ ih | expression _ ih
  | arguments _ ih | someExpression _ ih | variableDecl _ ih | statement _ ih
  | expressionStmt _ ih | forVariable _ ih | forExpression _ ih | blockStmt _ ih =>
      exact ih hts
  | @this t h =>
      have htext : t.lexeme = "this" := (hts t (by simp)).keyword .thisWord h
      simpa [Tree.references, Expr.references, Reference.WellNamed, Token.toName] using htext
  | @super t _ _ h =>
      have htext : t.lexeme = "super" := (hts t (by simp)).keyword .superWord h
      simpa [Tree.references, Expr.references, Reference.WellNamed, Token.toName] using htext
  | @forStmt _ _ _ _ _ _ _ _ initial condition increment body _ _ _ _ _ _ _ _ ih₁ ih₂ ih₃ ih₄ =>
      intro r hr
      have hr := (perm_references_forLoop initial condition increment body).subset hr
      simp only [List.forall_mem_cons, List.forall_mem_append] at hts
      rw [List.mem_append, List.mem_append, List.mem_append] at hr
      rcases hr with hr | hr | hr | hr
      · exact ih₁ hts.2.2.1 r hr
      · exact ih₂ hts.2.2.2.1 r hr
      · exact ih₃ hts.2.2.2.2.2.1 r hr
      · exact ih₄ hts.2.2.2.2.2.2.2 r hr
  | ifStmt | classDecl | varDecl | returnStmt =>
      simp_all [references_expr, references_stmt, references_functions, references_branch,
        references_classDecl, references_var, references_ret, or_imp, forall_and]
  | _ =>
      simp_all [Tree.references, Expr.references, Expr.referencesAll, Stmt.references,
        Stmt.referencesAll, Function.references, Function.referencesAll, references_join,
        or_imp, forall_and, Reference.WellNamed, Token.Faithful.ordinary]

end Grammar

namespace Program

variable {source : String} {offset : Nat} {p : Program}

theorem spells_of_ofText (h : (Program.ofText source offset).parsed = .ok p) :
    Grammar.Spells (.repeated (.symbol .declaration)) (Scan.ofText source offset).tokens
      (.stmts p) :=
  spells_of_ofTokens rfl h

/-- A program that is read from a text is well-formed. -/
theorem wellFormed_of_ofText (h : (Program.ofText source offset).parsed = .ok p) :
    p.WellFormed :=
  ⟨(spells_of_ofText h).wellFormed fun _ => Scan.faithful_of_mem,
    (spells_of_ofText h).wellNamed fun _ => Scan.faithful_of_mem⟩

/-- The references of a program that is read from a text have offsets of their own. -/
theorem distinctOffsets_of_ofText (h : (Program.ofText source offset).parsed = .ok p) :
    p.DistinctOffsets := by
  -- An offset is that of one token at most, so it is that of one reference at most.
  refine List.nodup_iff_count_le_one.2 fun k => ?_
  calc (p.references.map (·.name.start)).count k
      ≤ ((Scan.ofText source offset).tokens.map Token.start).count k :=
        (spells_of_ofText h).count_references_le k
    _ ≤ 1 := List.nodup_iff_count_le_one.1 (Scan.nodup_starts source offset) k

/-- The references of a program that is read from a text do not come before the text. -/
theorem le_start_of_ofText (h : (Program.ofText source offset).parsed = .ok p) {r : Reference}
    (hr : r ∈ p.references) : offset ≤ r.name.start := by
  have hcount : 0 < ((Scan.ofText source offset).tokens.map Token.start).count r.name.start :=
    Nat.lt_of_lt_of_le (List.count_pos_iff.2 (List.mem_map_of_mem hr))
      ((spells_of_ofText h).count_references_le _)
  obtain ⟨t, ht, hstart⟩ := List.mem_map.1 (List.count_pos_iff.1 hcount)
  rw [← hstart]
  exact Item.le_of_mem_tokens ht

end Program

end Lox
