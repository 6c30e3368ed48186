import Lox.Binding.Scope
import Lox.Binding.Table

set_option autoImplicit false

/-! # Resolving references

Resolving walks a program once and finds, for every reference to a local, how many scopes out its
declaration is, and every breach of the static rules, both in the order of the walk. What a
statement declares it declares for the statements after it, so a walk over statements hands
on the scopes (`Stmt.scopesAfter`) while everything inside a statement leaves them alone.

A program with errors has no binding table.
-/

namespace Lox

/-- What a walk over a part of a program finds. -/
structure Findings where
  errors : List ResolveError
  /-- Local references, by the offsets of their names, with their hops. -/
  bindings : List (Nat × Nat)
deriving DecidableEq, Inhabited

namespace Findings

/-- Nothing found. -/
def empty : Findings := ⟨[], []⟩

/-- One part after another. -/
def append (f g : Findings) : Findings := ⟨f.errors ++ g.errors, f.bindings ++ g.bindings⟩

instance : Append Findings := ⟨append⟩

/-- One error. -/
def error (cause : ResolveError.Cause) (name : Name) : Findings := ⟨[⟨cause, name⟩], []⟩

/-- An error under a condition. -/
def errorIf (condition : Bool) (cause : ResolveError.Cause) (name : Name) : Findings :=
  if condition then error cause name else empty

/-- A reference to the nearest declaration of its name. -/
def reference (scopes : Scopes) (name : Name) : Findings :=
  match scopes.hops? name.text with
  | some hops => ⟨[], [(name.start, hops)]⟩
  | none => empty

/-- A variable that is read. -/
def read (scopes : Scopes) (name : Name) : Findings :=
  errorIf (scopes.isPending name.text) .ownInitializer name ++ reference scopes name

/-- A declaration in the innermost scope. -/
def declaration (scopes : Scopes) (name : Name) : Findings :=
  errorIf (scopes.redeclares name.text) .redeclaration name

@[simp] theorem errors_append (f g : Findings) : (f ++ g).errors = f.errors ++ g.errors := rfl

/-- Both parts of a walk are without errors if the whole is. -/
theorem errors_append_eq_nil_iff {f g : Findings} :
    (f ++ g).errors = [] ↔ f.errors = [] ∧ g.errors = [] := by
  rw [errors_append]
  exact List.append_eq_nil_iff

@[simp] theorem bindings_append (f g : Findings) :
    (f ++ g).bindings = f.bindings ++ g.bindings := rfl

@[simp] theorem errors_empty : empty.errors = [] := rfl

@[simp] theorem bindings_empty : empty.bindings = [] := rfl

end Findings

mutual

/-- What an expression refers to. -/
def Expr.findings (ctx : Context) (scopes : Scopes) : Expr → Findings
  | .literal _ => .empty
  | .grouping inner => inner.findings ctx scopes
  | .unary _ _ operand => operand.findings ctx scopes
  | .binary _ _ left right => left.findings ctx scopes ++ right.findings ctx scopes
  | .logical _ left right => left.findings ctx scopes ++ right.findings ctx scopes
  | .variable name => .read scopes name
  | .assign name value => value.findings ctx scopes ++ .reference scopes name
  | .call callee arguments _ =>
    callee.findings ctx scopes ++ Expr.findingsAll ctx scopes arguments
  | .get object _ => object.findings ctx scopes
  | .set object _ value => value.findings ctx scopes ++ object.findings ctx scopes
  | .this keyword =>
    if ctx.inClass = .none then .error .thisOutsideClass keyword else .reference scopes keyword
  | .super keyword _ =>
    Findings.errorIf (ctx.inClass = .none) .superOutsideClass keyword ++
      Findings.errorIf (ctx.inClass = .plain) .superWithoutSuperclass keyword ++
      .reference scopes keyword

/-- What expressions refer to. -/
def Expr.findingsAll (ctx : Context) (scopes : Scopes) : List Expr → Findings
  | [] => .empty
  | e :: es => e.findings ctx scopes ++ Expr.findingsAll ctx scopes es

end

/-- What an expression refers to, if there is one. -/
def Expr.findingsOf? (ctx : Context) (scopes : Scopes) : Option Expr → Findings
  | none => .empty
  | some e => e.findings ctx scopes

/-- The scopes after the parameters of a function. -/
def Scopes.defineAll (scopes : Scopes) : List Name → Scopes
  | [] => scopes
  | name :: names => Scopes.defineAll (scopes.define name.text) names

/-- Declarations in the innermost scope, one after another. -/
def Findings.declarations (scopes : Scopes) : List Name → Findings
  | [] => .empty
  | name :: names => .declaration scopes name ++ declarations (scopes.define name.text) names

/-- The scopes for the statements after a statement. -/
def Stmt.scopesAfter (scopes : Scopes) : Stmt → Scopes
  | .var name _ => (scopes.declare name.text).define name.text
  | .function f => scopes.define f.name.text
  | .classDecl name _ _ => scopes.define name.text
  | _ => scopes

/-- The context of the body of a method. -/
def Context.ofMethod (ctx : Context) (f : Function) : Context :=
  { ctx with inFunction := if f.isNamedInit then .initializer else .method }

/-- The scopes of the methods of a class, around which `super` is declared if there is a
superclass. -/
def Scopes.ofMethods (scopes : Scopes) (hasSuperclass : Bool) : Scopes :=
  [("this", true)] :: (if hasSuperclass then [("super", true)] :: scopes else scopes)

/-- What the head of a class refers to: its superclass, which must not be itself. -/
def Findings.superclass (scopes : Scopes) (className : Name) : Option Name → Findings
  | none => .empty
  | some name =>
    errorIf (name.text == className.text) .ownSuperclass name ++ read scopes name

mutual

/-- What a statement refers to. -/
def Stmt.findings (ctx : Context) (scopes : Scopes) : Stmt → Findings
  | .expression e => e.findings ctx scopes
  | .print e => e.findings ctx scopes
  | .var name initial =>
    .declaration scopes name ++ Expr.findingsOf? ctx (scopes.declare name.text) initial
  | .block body => Stmt.findingsAll ctx ([] :: scopes) body
  | .branch condition yes none => condition.findings ctx scopes ++ yes.findings ctx scopes
  | .branch condition yes (some no) =>
    condition.findings ctx scopes ++ yes.findings ctx scopes ++ no.findings ctx scopes
  | .loop condition body => condition.findings ctx scopes ++ body.findings ctx scopes
  | .function f =>
    .declaration scopes f.name ++
      f.findings { ctx with inFunction := .function } (scopes.define f.name.text)
  | .ret keyword value =>
    Findings.errorIf (ctx.inFunction = .none) .topLevelReturn keyword ++
      Findings.errorIf (ctx.inFunction = .initializer && value.isSome) .initializerReturn keyword ++
      Expr.findingsOf? ctx scopes value
  | .classDecl name superclass methods =>
    let scopes' := scopes.define name.text
    let inside := { ctx with inClass := if superclass.isSome then .subclass else .plain }
    .declaration scopes name ++ .superclass scopes' name superclass ++
      Function.findingsAll inside (scopes'.ofMethods superclass.isSome) methods

/-- What statements refer to, each seeing the declarations before it. -/
def Stmt.findingsAll (ctx : Context) (scopes : Scopes) : List Stmt → Findings
  | [] => .empty
  | s :: ss => s.findings ctx scopes ++ Stmt.findingsAll ctx (s.scopesAfter scopes) ss

/-- What a function refers to: parameters and body share one scope. -/
def Function.findings (ctx : Context) (scopes : Scopes) : Function → Findings
  | .mk _ parameters body =>
    .declarations ([] :: scopes) parameters ++
      Stmt.findingsAll ctx (Scopes.defineAll ([] :: scopes) parameters) body

/-- What the methods of a class refer to. -/
def Function.findingsAll (ctx : Context) (scopes : Scopes) : List Function → Findings
  | [] => .empty
  | f :: fs => f.findings (ctx.ofMethod f) scopes ++ Function.findingsAll ctx scopes fs

end

namespace Program

/-- What a program refers to. -/
def findings (p : Program) : Findings := Stmt.findingsAll .top [] p

/-- The table with the local references of a program, or all its scoping errors. -/
def bind (p : Program) (t : BindingTable) : Except (List ResolveError) BindingTable :=
  if p.findings.errors.isEmpty then .ok (t.extend p.findings.bindings)
  else .error p.findings.errors

end Program

end Lox
