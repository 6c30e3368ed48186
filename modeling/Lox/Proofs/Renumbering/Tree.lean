import Lox.Tree.Statement

set_option autoImplicit false

/-! # Renumbering

Where a source stands in a session shows in two kinds of numbers only: the lines, and the offsets
that tell one reference from another. A renumbering changes both throughout. What is done with
tokens and trees never looks at these numbers, other than to use an offset as the key of a
reference, so it is the same before and after a renumbering.
-/

namespace Lox

/-- Other numbers for lines and for offsets. -/
structure Renumbering where
  line : Nat → Nat
  start : Nat → Nat

variable (r : Renumbering)

/-- The token with its place renumbered. -/
def Token.renumber (t : Token) : Token :=
  { t with line := r.line t.line, start := r.start t.start }

/-- The syntax error at the renumbered token. -/
def ParseError.renumber (e : ParseError) : ParseError := ⟨e.cause, e.token.renumber r⟩

/-- The name with its place renumbered. -/
def Name.renumber (n : Name) : Name := ⟨n.text, r.line n.line, r.start n.start⟩

@[simp] theorem Token.renumber_kind (t : Token) : (t.renumber r).kind = t.kind := rfl

@[simp] theorem Token.renumber_line (t : Token) : (t.renumber r).line = r.line t.line := rfl

@[simp] theorem Token.renumber_toName (t : Token) :
    (t.renumber r).toName = t.toName.renumber r := rfl

@[simp] theorem Name.renumber_text (n : Name) : (n.renumber r).text = n.text := rfl

@[simp] theorem Name.renumber_line (n : Name) : (n.renumber r).line = r.line n.line := rfl

@[simp] theorem Name.renumber_start (n : Name) : (n.renumber r).start = r.start n.start := rfl

theorem Name.map_text_renumber (ns : List Name) :
    (ns.map (Name.renumber r)).map Name.text = ns.map Name.text := by
  rw [List.map_map]
  rfl

/-! ## Expressions -/

mutual

/-- The expression with all places renumbered. -/
def Expr.renumber : Expr → Expr
  | .literal value => .literal value
  | .grouping inner => .grouping inner.renumber
  | .unary op line operand => .unary op (r.line line) operand.renumber
  | .binary op line left right => .binary op (r.line line) left.renumber right.renumber
  | .logical op left right => .logical op left.renumber right.renumber
  | .variable name => .variable (name.renumber r)
  | .assign name value => .assign (name.renumber r) value.renumber
  | .call callee arguments line =>
    .call callee.renumber (Expr.renumberAll arguments) (r.line line)
  | .get object property => .get object.renumber (property.renumber r)
  | .set object property value => .set object.renumber (property.renumber r) value.renumber
  | .this keyword => .this (keyword.renumber r)
  | .super keyword method => .super (keyword.renumber r) (method.renumber r)

/-- The expressions with all places renumbered. -/
def Expr.renumberAll : List Expr → List Expr
  | [] => []
  | e :: es => e.renumber :: Expr.renumberAll es

end

@[simp] theorem Expr.renumberAll_eq_map (es : List Expr) :
    Expr.renumberAll r es = es.map (Expr.renumber r) := by
  induction es with
  | nil => rfl
  | cons e es ih => rw [Expr.renumberAll, ih, List.map_cons]

theorem InfixOp.renumber_join (op : InfixOp) (line : Nat) (left right : Expr) :
    (op.join line left right).renumber r =
      op.join (r.line line) (left.renumber r) (right.renumber r) := by
  cases op <;> rfl

/-! ## Statements -/

mutual

/-- The statement with all places renumbered. -/
def Stmt.renumber : Stmt → Stmt
  | .expression e => .expression (e.renumber r)
  | .print e => .print (e.renumber r)
  | .var name initial => .var (name.renumber r) (initial.map (Expr.renumber r))
  | .block body => .block (Stmt.renumberAll body)
  | .branch condition yes none => .branch (condition.renumber r) yes.renumber none
  | .branch condition yes (some no) =>
    .branch (condition.renumber r) yes.renumber (some no.renumber)
  | .loop condition body => .loop (condition.renumber r) body.renumber
  | .function f => .function f.renumber
  | .ret keyword value => .ret (keyword.renumber r) (value.map (Expr.renumber r))
  | .classDecl name superclass methods =>
    .classDecl (name.renumber r) (superclass.map (Name.renumber r))
      (Function.renumberAll methods)

/-- The statements with all places renumbered. -/
def Stmt.renumberAll : List Stmt → List Stmt
  | [] => []
  | s :: ss => s.renumber :: Stmt.renumberAll ss

/-- The function with all places renumbered. -/
def Function.renumber : Function → Function
  | .mk name parameters body =>
    .mk (name.renumber r) (parameters.map (Name.renumber r)) (Stmt.renumberAll body)

/-- The functions with all places renumbered. -/
def Function.renumberAll : List Function → List Function
  | [] => []
  | f :: fs => f.renumber :: Function.renumberAll fs

end

@[simp] theorem Stmt.renumberAll_eq_map (ss : List Stmt) :
    Stmt.renumberAll r ss = ss.map (Stmt.renumber r) := by
  induction ss with
  | nil => rfl
  | cons s ss ih => rw [Stmt.renumberAll, ih, List.map_cons]

@[simp] theorem Function.renumberAll_eq_map (fs : List Function) :
    Function.renumberAll r fs = fs.map (Function.renumber r) := by
  induction fs with
  | nil => rfl
  | cons f fs ih => rw [Function.renumberAll, ih, List.map_cons]

theorem Stmt.renumber_branch (condition : Expr) (yes : Stmt) (no : Option Stmt) :
    (Stmt.branch condition yes no).renumber r =
      .branch (condition.renumber r) (yes.renumber r) (no.map (Stmt.renumber r)) := by
  cases no <;> rfl

theorem Stmt.renumber_forLoop (initial : Option Stmt) (condition increment : Option Expr)
    (body : Stmt) :
    (Stmt.forLoop initial condition increment body).renumber r =
      .forLoop (initial.map (Stmt.renumber r)) (condition.map (Expr.renumber r))
        (increment.map (Expr.renumber r)) (body.renumber r) := by
  cases initial <;> cases condition <;> cases increment <;>
    simp [Stmt.forLoop, Stmt.renumber, Expr.renumber]

namespace Function

@[simp] theorem renumber_name (f : Function) : (f.renumber r).name = f.name.renumber r := by
  cases f
  rfl

@[simp] theorem renumber_parameters (f : Function) :
    (f.renumber r).parameters = f.parameters.map (Name.renumber r) := by
  cases f
  rfl

@[simp] theorem renumber_body (f : Function) :
    (f.renumber r).body = f.body.map (Stmt.renumber r) := by
  cases f
  exact Stmt.renumberAll_eq_map r _

@[simp] theorem renumber_arity (f : Function) : (f.renumber r).arity = f.arity := by
  simp [arity]

@[simp] theorem renumber_isNamedInit (f : Function) :
    (f.renumber r).isNamedInit = f.isNamedInit := by
  simp [isNamedInit]

end Function

end Lox
