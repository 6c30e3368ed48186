import Lox.Diagnostic
import Lox.Tree.Basic

set_option autoImplicit false

/-! # Scopes

A scope lists the names declared in a block, or in a function's parameters and body. Between
the declaration of a variable and the end of its initializer the name is pending: it hides outer
variables already but must not be read.

`Scopes` holds the local scopes around a place, the innermost first. The global scope is not
among them: at the top level nothing is recorded, names may be declared again, and a name that
no local scope declares is looked up when it is used.
-/

namespace Lox

/-- The names declared in a scope, the latest first, with `true` for those that may be read. -/
abbrev Scope := List (String × Bool)

namespace Scope

/-- The scope declares the name. -/
def declares (s : Scope) (name : String) : Bool := (s.lookup name).isSome

/-- The name is declared but must not be read yet. -/
def isPending (s : Scope) (name : String) : Bool := s.lookup name == some false

end Scope

/-- The local scopes around a place, the innermost first. -/
abbrev Scopes := List Scope

namespace Scopes

/-- How many scopes out a name is declared. -/
def hops? (scopes : Scopes) (name : String) : Option Nat := scopes.findIdx? (·.declares name)

/-- The innermost scope declares the name. -/
def redeclares : Scopes → String → Bool
  | [], _ => false
  | s :: _, name => s.declares name

/-- The name is pending in the innermost scope. -/
def isPending : Scopes → String → Bool
  | [], _ => false
  | s :: _, name => s.isPending name

/-- Declares a name that must not be read yet; a second declaration changes nothing. -/
def declare : Scopes → String → Scopes
  | [], _ => []
  | s :: outer, name => if s.declares name then s :: outer else ((name, false) :: s) :: outer

/-- Declares a name that may be read. -/
def define : Scopes → String → Scopes
  | [], _ => []
  | s :: outer, name => ((name, true) :: s) :: outer

end Scopes

/-- What a class says of the places inside it. -/
inductive ClassContext
  | none
  | plain
  | subclass
deriving DecidableEq, Inhabited

/-- What a function says of the places inside it. -/
inductive FunctionContext
  | none
  | function
  | method
  | initializer
deriving DecidableEq, Inhabited

/-- The innermost class and the innermost function around a place. -/
structure Context where
  inClass : ClassContext
  inFunction : FunctionContext
deriving DecidableEq, Inhabited

/-- The top level of a program. -/
def Context.top : Context := ⟨.none, .none⟩

/-- Why a program that parses is refused. -/
inductive ResolveError.Cause
  | redeclaration
  | ownInitializer
  | topLevelReturn
  | initializerReturn
  | thisOutsideClass
  | superOutsideClass
  | superWithoutSuperclass
  | ownSuperclass
deriving DecidableEq, Inhabited

/-- The wording of a scoping error. -/
def ResolveError.Cause.message : ResolveError.Cause → String
  | redeclaration => "Already a variable with this name in this scope."
  | ownInitializer => "Can't read local variable in its own initializer."
  | topLevelReturn => "Can't return from top-level code."
  | initializerReturn => "Can't return a value from an initializer."
  | thisOutsideClass => "Can't use 'this' outside of a class."
  | superOutsideClass => "Can't use 'super' outside of a class."
  | superWithoutSuperclass => "Can't use 'super' in a class with no superclass."
  | ownSuperclass => "A class can't inherit from itself."

/-- A scoping error at a name. -/
structure ResolveError where
  cause : ResolveError.Cause
  name : Name
deriving DecidableEq, Inhabited

/-- A scoping error as it is reported. -/
def ResolveError.toDiagnostic (e : ResolveError) : Diagnostic :=
  .resolve e.name.line (.lexeme e.name.text) e.cause.message

end Lox
