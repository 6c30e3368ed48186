import Lox.Tree.Statement

set_option autoImplicit false

/-! # Renaming

A renaming gives another spelling to the names that have the old one and stand at some offsets.
Names are told apart by their offsets, so that of several names with one spelling some can be
renamed and the others left. All of a tree but these names stays as it is.
-/

namespace Lox

/-- Another spelling for names at some offsets. -/
structure Renaming where
  old : String
  new : String
  starts : List Nat

/-- The spelling of what stands at an offset. -/
def Renaming.text (r : Renaming) (start : Nat) (text : String) : String :=
  if text = r.old ∧ start ∈ r.starts then r.new else text

variable (r : Renaming)

theorem Renaming.text_of_ne {text : String} (h : text ≠ r.old) (start : Nat) :
    r.text start text = text := if_neg fun hold => h hold.1

theorem Renaming.text_of_not_mem {start : Nat} (h : start ∉ r.starts) (text : String) :
    r.text start text = text := if_neg fun hold => h hold.2

theorem Renaming.text_of_mem {start : Nat} (h : start ∈ r.starts) : r.text start r.old = r.new :=
  if_pos ⟨rfl, h⟩

/-- A spelling stays, or it is the old one and becomes the new one. -/
theorem Renaming.text_cases (start : Nat) (text : String) :
    r.text start text = text ∨ (text = r.old ∧ r.text start text = r.new) := by
  by_cases h : text = r.old ∧ start ∈ r.starts
  · exact .inr ⟨h.1, if_pos h⟩
  · exact .inl (if_neg h)

/-- The token, renamed. -/
def Token.rename (t : Token) : Token := { t with lexeme := r.text t.start t.lexeme }

/-- The syntax error at the renamed token. -/
def ParseError.rename (e : ParseError) : ParseError := ⟨e.cause, e.token.rename r⟩

/-- The name, renamed. -/
def Name.rename (n : Name) : Name := { n with text := r.text n.start n.text }

@[simp] theorem Token.rename_kind (t : Token) : (t.rename r).kind = t.kind := rfl

@[simp] theorem Token.rename_line (t : Token) : (t.rename r).line = t.line := rfl

@[simp] theorem Token.rename_start (t : Token) : (t.rename r).start = t.start := rfl

@[simp] theorem Token.rename_toName (t : Token) : (t.rename r).toName = t.toName.rename r := rfl

@[simp] theorem Name.rename_line (n : Name) : (n.rename r).line = n.line := rfl

@[simp] theorem Name.rename_start (n : Name) : (n.rename r).start = n.start := rfl

theorem Name.rename_text_cases (n : Name) :
    (n.rename r).text = n.text ∨ (n.text = r.old ∧ (n.rename r).text = r.new) :=
  r.text_cases n.start n.text

/-! ## Expressions -/

mutual

/-- The expression with its names renamed. -/
def Expr.rename : Expr → Expr
  | .literal value => .literal value
  | .grouping inner => .grouping inner.rename
  | .unary op line operand => .unary op line operand.rename
  | .binary op line left right => .binary op line left.rename right.rename
  | .logical op left right => .logical op left.rename right.rename
  | .variable name => .variable (name.rename r)
  | .assign name value => .assign (name.rename r) value.rename
  | .call callee arguments line => .call callee.rename (Expr.renameAll arguments) line
  | .get object property => .get object.rename (property.rename r)
  | .set object property value => .set object.rename (property.rename r) value.rename
  | .this keyword => .this (keyword.rename r)
  | .super keyword method => .super (keyword.rename r) (method.rename r)

/-- The expressions with their names renamed. -/
def Expr.renameAll : List Expr → List Expr
  | [] => []
  | e :: es => e.rename :: Expr.renameAll es

end

@[simp] theorem Expr.renameAll_eq_map (es : List Expr) :
    Expr.renameAll r es = es.map (Expr.rename r) := by
  induction es with
  | nil => rfl
  | cons e es ih => rw [Expr.renameAll, ih, List.map_cons]

theorem InfixOp.rename_join (op : InfixOp) (line : Nat) (left right : Expr) :
    (op.join line left right).rename r = op.join line (left.rename r) (right.rename r) := by
  cases op <;> rfl

/-! ## Statements -/

mutual

/-- The statement with its names renamed. -/
def Stmt.rename : Stmt → Stmt
  | .expression e => .expression (e.rename r)
  | .print e => .print (e.rename r)
  | .var name initial => .var (name.rename r) (initial.map (Expr.rename r))
  | .block body => .block (Stmt.renameAll body)
  | .branch condition yes none => .branch (condition.rename r) yes.rename none
  | .branch condition yes (some no) =>
    .branch (condition.rename r) yes.rename (some no.rename)
  | .loop condition body => .loop (condition.rename r) body.rename
  | .function f => .function f.rename
  | .ret keyword value => .ret (keyword.rename r) (value.map (Expr.rename r))
  | .classDecl name superclass methods =>
    .classDecl (name.rename r) (superclass.map (Name.rename r)) (Function.renameAll methods)

/-- The statements with their names renamed. -/
def Stmt.renameAll : List Stmt → List Stmt
  | [] => []
  | s :: ss => s.rename :: Stmt.renameAll ss

/-- The function with its names renamed. -/
def Function.rename : Function → Function
  | .mk name parameters body =>
    .mk (name.rename r) (parameters.map (Name.rename r)) (Stmt.renameAll body)

/-- The functions with their names renamed. -/
def Function.renameAll : List Function → List Function
  | [] => []
  | f :: fs => f.rename :: Function.renameAll fs

end

@[simp] theorem Stmt.renameAll_eq_map (ss : List Stmt) :
    Stmt.renameAll r ss = ss.map (Stmt.rename r) := by
  induction ss with
  | nil => rfl
  | cons s ss ih => rw [Stmt.renameAll, ih, List.map_cons]

@[simp] theorem Function.renameAll_eq_map (fs : List Function) :
    Function.renameAll r fs = fs.map (Function.rename r) := by
  induction fs with
  | nil => rfl
  | cons f fs ih => rw [Function.renameAll, ih, List.map_cons]

theorem Stmt.rename_branch (condition : Expr) (yes : Stmt) (no : Option Stmt) :
    (Stmt.branch condition yes no).rename r =
      .branch (condition.rename r) (yes.rename r) (no.map (Stmt.rename r)) := by
  cases no <;> rfl

theorem Stmt.rename_forLoop (initial : Option Stmt) (condition increment : Option Expr)
    (body : Stmt) :
    (Stmt.forLoop initial condition increment body).rename r =
      .forLoop (initial.map (Stmt.rename r)) (condition.map (Expr.rename r))
        (increment.map (Expr.rename r)) (body.rename r) := by
  cases initial <;> cases condition <;> cases increment <;>
    simp [Stmt.forLoop, Stmt.rename, Expr.rename]

namespace Function

@[simp] theorem rename_name (f : Function) : (f.rename r).name = f.name.rename r := by
  cases f
  rfl

@[simp] theorem rename_parameters (f : Function) :
    (f.rename r).parameters = f.parameters.map (Name.rename r) := by
  cases f
  rfl

@[simp] theorem rename_body (f : Function) :
    (f.rename r).body = f.body.map (Stmt.rename r) := by
  cases f
  exact Stmt.renameAll_eq_map r _

@[simp] theorem rename_arity (f : Function) : (f.rename r).arity = f.arity := by
  simp [arity]

end Function

end Lox
