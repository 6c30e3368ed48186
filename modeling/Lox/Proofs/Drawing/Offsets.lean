import Lox.Proofs.Drawing.Erasure
import Lox.Proofs.Parsing.Names

set_option autoImplicit false

/-! # The offsets of all names in a tree

Every name in a tree has its offset from a token of its own, whether it is a reference or not
(`Spells.count_starts_le`).
-/

namespace Lox

namespace Grammar

/-- The names of a tree that are no references. -/
def Tree.bareNames : Tree → List Name
  | .expr e => e.bareNames
  | .maybeExpr e => Expr.bareNamesOf? e
  | .exprs es => Expr.bareNamesAll es
  | .name _ => []
  | .names ns => ns
  | .stmt s => s.bareNames
  | .maybeStmt s => Stmt.bareNamesAll s.toList
  | .stmts ss => Stmt.bareNamesAll ss
  | .function f => f.bareNames
  | .functions fs => Function.bareNamesAll fs

theorem bareNames_join (op : InfixOp) (line : Nat) (left right : Expr) :
    (op.join line left right).bareNames = left.bareNames ++ right.bareNames := by
  cases op <;> rfl

theorem bareNames_branch (condition : Expr) (yes : Stmt) (no : Option Stmt) :
    (Stmt.branch condition yes no).bareNames =
      condition.bareNames ++ (yes.bareNames ++ Stmt.bareNamesAll no.toList) := by
  cases no <;> simp [Stmt.bareNames, Stmt.bareNamesAll]

/-- A loop has the names of its clauses and its body. -/
theorem count_bareNames_forLoop (initial : Option Stmt) (condition increment : Option Expr)
    (body : Stmt) (k : Nat) :
    ((Stmt.forLoop initial condition increment body).bareNames.map Name.start).count k =
      ((Stmt.bareNamesAll initial.toList).map Name.start).count k +
        (((Expr.bareNamesOf? condition).map Name.start).count k +
          (((Expr.bareNamesOf? increment).map Name.start).count k +
            (body.bareNames.map Name.start).count k)) := by
  cases initial <;> cases condition <;> cases increment <;>
    simp [Stmt.forLoop, Stmt.bareNames, Stmt.bareNamesAll, Expr.bareNames, Expr.bareNamesOf?] <;>
    omega

/-- The names of a tree take their offsets from its tokens, no two from one token. -/
theorem Spells.count_starts_le {p : Phrase} {ts : List Token} {tree : Tree} (h : Spells p ts tree)
    (k : Nat) :
    (tree.references.map (·.name.start)).count k + (tree.bareNames.map Name.start).count k ≤
      (ts.map Token.start).count k := by
  induction h with
  | primary _ ih | callUnary _ ih | operand _ ih | disjunction _ ih | expression _ ih
  | arguments _ ih | someExpression _ ih | variableDecl _ ih | statement _ ih
  | expressionStmt _ ih | blockStmt _ ih =>
      exact ih
  | @forStmt _ _ _ _ _ _ _ _ initial condition increment body _ _ _ _ _ _ _ _ ih₁ ih₂ ih₃ ih₄ =>
      have hperm := ((perm_references_forLoop initial condition increment body).map
        fun r : Reference => r.name.start).count_eq k
      have hnames := count_bareNames_forLoop initial condition increment body k
      simp only [references_stmt, Tree.bareNames, List.map_append, List.map_cons, List.count_append,
        List.count_cons] at *
      omega
  | ifStmt | classDecl | varDecl | returnStmt =>
      -- These have optional parts, whose references are not known by unfolding.
      simp only [references_expr, references_stmt, references_functions, references_branch,
        references_classDecl, references_var, references_ret, Tree.bareNames, bareNames_branch,
        Stmt.bareNames, List.map_append, List.map_cons,
        List.map_nil, List.count_append, List.count_cons, List.count_nil, start_toName] at *
      omega
  | _ =>
      simp only [Tree.references, Expr.references, Expr.referencesAll, Stmt.references,
        Stmt.referencesAll, Function.references, Function.referencesAll, references_join,
        Tree.bareNames, Expr.bareNames, Expr.bareNamesOf?, Expr.bareNamesAll, Stmt.bareNames,
        Stmt.bareNamesAll, Function.bareNames, Function.bareNamesAll, bareNames_join, Option.toList,
        List.map_append, List.map_cons, List.map_nil, List.count_append, List.count_cons,
        List.count_nil, start_toName] at *
      omega

end Grammar

namespace Program

variable {source : String} {offset : Nat} {p : Program}

/-- A number is the offset of one name at most, and then a place in the source. -/
theorem count_starts_le_one (h : (ofText source offset).parsed = .ok p) (k : Nat) :
    p.ids.count k + ((Stmt.bareNamesAll p).map Name.start).count k ≤ 1 :=
  Nat.le_trans ((spells_of_ofText h).count_starts_le k)
    (List.nodup_iff_count_le_one.1 (Scan.nodup_starts source offset) k)

theorem place_of_mem_names (h : (ofText source offset).parsed = .ok p) {k : Nat}
    (hk : k ∈ p.ids ∨ k ∈ (Stmt.bareNamesAll p).map Name.start) :
    offset ≤ k ∧ k < offset + source.length := by
  have hcount : 0 < ((Scan.ofText source offset).tokens.map Token.start).count k := by
    have hle := (spells_of_ofText h).count_starts_le k
    rcases hk with hk | hk
    · exact Nat.lt_of_lt_of_le (List.count_pos_iff.2 hk)
        (Nat.le_trans (Nat.le_add_right _ _) hle)
    · exact Nat.lt_of_lt_of_le (List.count_pos_iff.2 hk)
        (Nat.le_trans (Nat.le_add_left _ _) hle)
  obtain ⟨t, ht, rfl⟩ := List.mem_map.1 (List.count_pos_iff.1 hcount)
  have hlt := Item.lt_of_mem_tokens (fun _ => Piece.text_ne_nil_of_mem_split) ht
  rw [Piece.flatten_split, String.length_toList] at hlt
  exact ⟨Item.le_of_mem_tokens ht, hlt⟩

/-- No other name stands where a reference does. -/
theorem not_mem_ids_of_bareNames (h : (ofText source offset).parsed = .ok p) {n : Name}
    (hn : n ∈ Stmt.bareNamesAll p) : n.start ∉ p.ids := by
  intro hmem
  have hle := count_starts_le_one h n.start
  have hids := List.count_pos_iff.2 hmem
  have hnames := List.count_pos_iff.2 (List.mem_map_of_mem (f := Name.start) hn)
  omega

end Program

end Lox
