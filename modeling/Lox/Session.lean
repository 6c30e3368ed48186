import Lox.Binding.Resolve
import Lox.Machine.Step
import Lox.Source

set_option autoImplicit false

/-! # Sessions and whole runs

A session reads one source after another, and what one defines the next can use. A source runs
only if it scans, parses and resolves without an error (`Session.accept`); otherwise it is
rejected with its errors, all lexical ones before all syntactic ones, or all scoping errors if
there are none of the others. The first runtime error ends the run of a source, not the
session.

A whole run (`runSource`) is a session with a single source. Runs are given a number of steps;
`Ending.running` is the report on a run that needs more.
-/

namespace Lox

/-- More steps than any run is waited for. -/
def manySteps : Nat := Nat.pow 10 18

/-- How the run of a source ended. -/
inductive Ending
  | finished
  | rejected (errors : List Diagnostic)
  | failed (error : RuntimeError)
  | running
deriving DecidableEq, Inhabited

/-- What the run of a source shows. -/
structure Report where
  output : String
  ending : Ending
deriving DecidableEq, Inhabited

namespace Report

/-- The errors of a run. -/
def errors (r : Report) : List Diagnostic :=
  match r.ending with
  | .finished | .running => []
  | .rejected errors => errors
  | .failed error => [error.toDiagnostic]

/-- The exit code of a run. -/
def exitCode (r : Report) : Nat :=
  match r.ending with
  | .finished | .running => 0
  | .rejected _ | .failed _ => Diagnostic.exitCodeOf r.errors

/-- The report on the configuration that a run has come to. -/
def ofConfig (c : Config) : Report :=
  { output := c.state.output
    ending :=
      match c.outcome? with
      | some (.ok _) => .finished
      | some (.error e) => .failed e
      | none => .running }

end Report

/-- The errors of a source that does not parse, or has lexical errors. -/
def Reading.errors {α : Type} (r : Reading (List ParseError) α) : List Diagnostic :=
  r.lexErrors.map LexError.toDiagnostic ++
    match r.parsed with
    | .ok _ => []
    | .error errors => errors.map ParseError.toDiagnostic

/-- The program that was read, with the table that binds it after other programs, or the errors for
which it is rejected. -/
def Reading.accept (reading : Reading (List ParseError) Program) (bindings : BindingTable) :
    Except (List Diagnostic) (Program × BindingTable) :=
  match reading.parsed with
  | .error _ => .error reading.errors
  | .ok program =>
    if reading.lexErrors.isEmpty then
      match program.bind bindings with
      | .ok bindings => .ok (program, bindings)
      | .error errors => .error (errors.map ResolveError.toDiagnostic)
    else .error reading.errors

/-- What a session remembers. -/
structure Session where
  bindings : BindingTable
  state : State
  /-- The offset of the next character that is read. -/
  offset : Nat
deriving Inhabited

namespace Session

/-- A session that has read nothing. -/
def start : Session := ⟨∅, .start, 0⟩

/-- The offset after a source and the end of its last line. -/
def offsetAfter (session : Session) (source : String) : Nat := session.offset + source.length + 1

/-- The program that a source is, with the table that binds it, or the errors for which it
is rejected. -/
def accept (session : Session) (source : String) :
    Except (List Diagnostic) (Program × BindingTable) :=
  (Program.ofText source session.offset).accept session.bindings

/-- Runs a program with a table for a number of steps. -/
def runProgram (session : Session) (clock : Nat → Float) (steps : Nat) (program : Program)
    (bindings : BindingTable) : Config :=
  let state := { session.state with output := "" }
  (Config.ofProgram program state).run ⟨bindings, clock⟩ steps

/-- Runs a source in a session. -/
def run (session : Session) (clock : Nat → Float) (steps : Nat) (source : String) :
    Report × Session :=
  let offset := session.offsetAfter source
  match session.accept source with
  | .error errors => (⟨"", .rejected errors⟩, { session with offset })
  | .ok (program, bindings) =>
    let last := session.runProgram clock steps program bindings
    (.ofConfig last, ⟨bindings, last.state, offset⟩)

/-- Runs sources one after another. -/
def runAll (session : Session) (clock : Nat → Float) (steps : Nat) :
    List String → List Report
  | [] => []
  | source :: sources =>
    let (report, session) := session.run clock steps source
    report :: session.runAll clock steps sources

end Session

/-- Runs a source by itself. -/
def runSource (clock : Nat → Float) (steps : Nat) (source : String) : Report :=
  (Session.start.run clock steps source).1

/-- Runs a source by itself without resolving it: every reference is a global one. -/
def runUnresolved (clock : Nat → Float) (steps : Nat) (source : String) : Report :=
  let reading := Program.ofText source 0
  if reading.lexErrors.isEmpty then
    match reading.parsed with
    | .error _ => ⟨"", .rejected reading.errors⟩
    | .ok program => .ofConfig (Session.start.runProgram clock steps program ∅)
  else ⟨"", .rejected (reading.lexErrors.map LexError.toDiagnostic)⟩

/-- Evaluates an expression by itself without resolving it. -/
def evaluate (clock : Nat → Float) (steps : Nat) (e : Expr) : Config :=
  (Config.ofExpr e .start).run ⟨∅, clock⟩ steps

end Lox
