import Lox.Diagnostic

set_option autoImplicit false

/-! # Runtime errors

What ends a run. The two causes `undefined` and `unbound` share their wording: the first is a
name that the global environment does not have, the second a local reference whose environment
does not hold its variable.
-/

namespace Lox

/-- Why a run ends. -/
inductive RuntimeError.Cause
  | undefined (name : String)
  | unbound (name : String)
  | undefinedProperty (name : String)
  | notCallable
  | wrongArity (expected actual : Nat)
  | stackOverflow
  | propertyOfNonInstance
  | fieldOfNonInstance
  | operandNotNumber
  | operandsNotNumbers
  | operandsNotAddable
  | superclassNotClass
deriving DecidableEq, Inhabited

/-- The wording of a runtime error. -/
def RuntimeError.Cause.message : RuntimeError.Cause → String
  | undefined name => "Undefined variable '" ++ name ++ "'."
  | unbound name => "Undefined variable '" ++ name ++ "'."
  | undefinedProperty name => "Undefined property '" ++ name ++ "'."
  | notCallable => "Can only call functions and classes."
  | wrongArity expected actual =>
    "Expected " ++ toString expected ++ " arguments but got " ++ toString actual ++ "."
  | stackOverflow => "Stack overflow."
  | propertyOfNonInstance => "Only instances have properties."
  | fieldOfNonInstance => "Only instances have fields."
  | operandNotNumber => "Operand must be a number."
  | operandsNotNumbers => "Operands must be numbers."
  | operandsNotAddable => "Operands must be two numbers or two strings."
  | superclassNotClass => "Superclass must be a class."

/-- A runtime error on a line. -/
structure RuntimeError where
  cause : RuntimeError.Cause
  line : Nat
deriving DecidableEq, Inhabited

/-- A runtime error as it is reported. -/
def RuntimeError.toDiagnostic (e : RuntimeError) : Diagnostic := .runtime e.line e.cause.message

end Lox
