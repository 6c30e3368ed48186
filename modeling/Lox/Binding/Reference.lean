import Lox.Tree.Basic

set_option autoImplicit false

/-! # The references of a tree

All places of a tree that name a variable, `this` or `super`, in the order of the tree from
the outside in: an assignment comes before its value, a property is assigned after its object.
-/

namespace Lox

/-- What a reference does with the variable it names. -/
inductive Reference.Role
  | variable
  | assign
  | this
  | super
deriving DecidableEq, Inhabited

/-- A place that names a variable. -/
structure Reference where
  role : Reference.Role
  name : Name
deriving DecidableEq, Inhabited

mutual

/-- The references of an expression. -/
def Expr.references : Expr → List Reference
  | .literal _ => []
  | .grouping inner => inner.references
  | .unary _ _ operand => operand.references
  | .binary _ _ left right => left.references ++ right.references
  | .logical _ left right => left.references ++ right.references
  | .variable name => [⟨.variable, name⟩]
  | .assign name value => ⟨.assign, name⟩ :: value.references
  | .call callee arguments _ => callee.references ++ Expr.referencesAll arguments
  | .get object _ => object.references
  | .set object _ value => object.references ++ value.references
  | .this keyword => [⟨.this, keyword⟩]
  | .super keyword _ => [⟨.super, keyword⟩]

/-- The references of expressions. -/
def Expr.referencesAll : List Expr → List Reference
  | [] => []
  | e :: es => e.references ++ Expr.referencesAll es

end

/-- The references of an expression, if there is one. -/
def Expr.referencesOf? : Option Expr → List Reference
  | none => []
  | some e => e.references

mutual

/-- The references of a statement. -/
def Stmt.references : Stmt → List Reference
  | .expression e => e.references
  | .print e => e.references
  | .var _ initial => Expr.referencesOf? initial
  | .block body => Stmt.referencesAll body
  | .branch condition yes none => condition.references ++ yes.references
  | .branch condition yes (some no) =>
    condition.references ++ yes.references ++ no.references
  | .loop condition body => condition.references ++ body.references
  | .function f => f.references
  | .ret _ value => Expr.referencesOf? value
  | .classDecl _ superclass methods =>
    (superclass.map (⟨.variable, ·⟩)).toList ++ Function.referencesAll methods

/-- The references of statements. -/
def Stmt.referencesAll : List Stmt → List Reference
  | [] => []
  | s :: ss => s.references ++ Stmt.referencesAll ss

/-- The references of a function. -/
def Function.references : Function → List Reference
  | .mk _ _ body => Stmt.referencesAll body

/-- The references of functions. -/
def Function.referencesAll : List Function → List Reference
  | [] => []
  | f :: fs => f.references ++ Function.referencesAll fs

end

/-- The references of a program. -/
def Program.references (p : Program) : List Reference := Stmt.referencesAll p

end Lox
