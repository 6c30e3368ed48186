import Lox.Token.Basic

set_option autoImplicit false

/-! # Diagnostics

What a run reports. Lexical, syntactic and scoping errors are static: they are found before
anything runs. A runtime error ends a run. The last two kinds concern the source file itself.

Each kind has its place in the rendered text and its exit code; a list of diagnostics exits with
the code of its first one.
-/

namespace Lox

/-- The token that a diagnostic points at. -/
inductive Diagnostic.Site
  | lexeme (text : String)
  | endOfSource
deriving DecidableEq, Inhabited

/-- An error as it is reported. -/
inductive Diagnostic
  | lexical (line : Nat) (message : String)
  | parse (line : Nat) (site : Diagnostic.Site) (message : String)
  | resolve (line : Nat) (site : Diagnostic.Site) (message : String)
  | runtime (line : Nat) (message : String)
  | file (message : String)
  | encoding (message : String)
deriving DecidableEq, Inhabited

namespace Diagnostic

/-- The site of a token. -/
def Site.ofToken (t : Token) : Site :=
  if t.kind.isEof then .endOfSource else .lexeme t.lexeme

/-- How a site stands in a rendered error. -/
def Site.text : Site → String
  | lexeme s => "at '" ++ s ++ "'"
  | endOfSource => "at end"

/-- The line of an error in a source. -/
def line? : Diagnostic → Option Nat
  | lexical line _ | parse line _ _ | resolve line _ _ | runtime line _ => some line
  | file _ | encoding _ => none

/-- The bare message. -/
def message : Diagnostic → String
  | lexical _ m | parse _ _ m | resolve _ _ m | runtime _ m | file m | encoding m => m

/-- Static errors are found before anything runs. -/
def isStatic : Diagnostic → Bool
  | lexical .. | parse .. | resolve .. => true
  | runtime .. | file .. | encoding .. => false

/-- The exit code of a run that reports an error. -/
def exitCode : Diagnostic → Nat
  | lexical .. | parse .. | resolve .. => 65
  | runtime .. => 70
  | file .. | encoding .. => 74

/-- The exit code of a failed run: the first error decides, and a run that failed without an
error to show counts as static. -/
def exitCodeOf : List Diagnostic → Nat
  | [] => 65
  | d :: _ => d.exitCode

/-- A static error, rendered with its line. -/
def atLine (line : Nat) (place message : String) : String :=
  "[line " ++ toString line ++ "] Error" ++ place ++ ": " ++ message

/-- An error as it is shown. -/
def text : Diagnostic → String
  | lexical line m => atLine line "" m
  | parse line site m | resolve line site m => atLine line (" " ++ site.text) m
  | runtime line m => m ++ "\n[line " ++ toString line ++ "]"
  | file m | encoding m => m

@[simp] theorem exitCodeOf_nil : exitCodeOf [] = 65 := rfl

@[simp] theorem exitCodeOf_cons (d : Diagnostic) (ds : List Diagnostic) :
    exitCodeOf (d :: ds) = d.exitCode := rfl

theorem exitCode_of_isStatic {d : Diagnostic} (h : d.isStatic = true) : d.exitCode = 65 := by
  cases d <;> simp_all [isStatic, exitCode]

end Diagnostic

end Lox
