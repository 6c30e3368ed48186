import Lox.Proofs.Binding.Key
import Lox.Proofs.Drawing.Agreement
import Lox.Session

set_option autoImplicit false

/-! # Sessions that draw identities

A session whose parser draws the identities of references, from a counter that goes on from line to
line. Lines are accepted, rejected and run as in a session of offsets, and the table of the session
has the identities for its keys. A line that does not parse or resolve leaves the counter where its
parser has brought it.
-/

namespace Lox.Drawing

/-! ## Reading a source -/

/-- What comes of parsing a source when so many identities were drawn before. -/
def parse (source : String) (drawn : Nat) : EStateM.Result Failure Drawer Program :=
  let scan := Scan.ofText source 0
  let start := Cursor.start scan.tokens scan.eof
  programWithin start.budget ⟨start, drawn⟩

/-- A source as a program. -/
def ofText (source : String) (drawn : Nat) : Reading (List ParseError) Program where
  lexErrors := (Scan.ofText source 0).errors
  parsed :=
    match parse source drawn with
    | .ok p d => if d.cursor.collected.isEmpty then .ok p else .error d.cursor.collected
    | .error _ d => .error d.cursor.collected

/-- How many identities have been drawn after a source. -/
def drawnAfter (source : String) (drawn : Nat) : Nat :=
  match parse source drawn with
  | .ok _ d | .error _ d => d.drawn

/-- What could be read of a source, whether or not there were errors. -/
def kept (source : String) (drawn : Nat) : Program :=
  match parse source drawn with
  | .ok p _ => p
  | .error _ _ => []

/-! ## Sessions -/

/-- What a session remembers, and how many identities the process has drawn. -/
structure Session where
  bindings : BindingTable
  state : State
  drawn : Nat

namespace Session

/-- A session that has read nothing. The process may have drawn identities before. -/
def start (drawn : Nat) : Session := ⟨∅, .start, drawn⟩

@[inherit_doc Lox.Session.accept]
def accept (session : Session) (source : String) :
    Except (List Diagnostic) (Program × BindingTable) :=
  (ofText source session.drawn).accept session.bindings

@[inherit_doc Lox.Session.runProgram]
def runProgram (session : Session) (clock : Nat → Float) (steps : Nat) (program : Program)
    (bindings : BindingTable) : Config :=
  let state := { session.state with output := "" }
  (Config.ofProgram program state).run ⟨bindings, clock⟩ steps

/-- Runs a source in a session. -/
def run (session : Session) (clock : Nat → Float) (steps : Nat) (source : String) :
    Report × Session :=
  let drawn := drawnAfter source session.drawn
  match session.accept source with
  | .error errors => (⟨"", .rejected errors⟩, { session with drawn })
  | .ok (program, bindings) =>
    let last := session.runProgram clock steps program bindings
    (.ofConfig last, ⟨bindings, last.state, drawn⟩)

variable (clock : Nat → Float) (steps : Nat)

/-- Runs sources one after another. -/
def runAll (session : Session) : List String → List Report
  | [] => []
  | source :: sources =>
    let (report, session) := session.run clock steps source
    report :: session.runAll sources

/-- A session after it has run lines. -/
def afterAll (session : Session) : List String → Session
  | [] => session
  | source :: sources => (session.run clock steps source).2.afterAll sources

/-- The trees of lines, whether or not there are errors in them. -/
def trees (session : Session) : List String → List Program
  | [] => []
  | source :: sources =>
    kept source session.drawn :: (session.run clock steps source).2.trees sources

end Session

/-! ## The identities in a source -/

variable {source : String} {drawn : Nat}

theorem ids_kept (source : String) (drawn : Nat) :
    (kept source drawn).ids.Nodup ∧
      ∀ i ∈ (kept source drawn).ids, drawn < i ∧ i ≤ drawnAfter source drawn := by
  unfold kept drawnAfter
  cases hrun : parse source drawn with
  | ok p d => exact Follows.ids (fun k => follows_program _) hrun
  | error e d => exact ⟨.nil, fun i hi => by cases hi⟩

theorem drawn_le_drawnAfter (source : String) (drawn : Nat) : drawn ≤ drawnAfter source drawn := by
  unfold drawnAfter
  cases hrun : parse source drawn with
  | ok p d => exact (follows_program (k := 0) _).drawn_le hrun
  | error e d => exact (follows_program (k := 0) _).drawn_le_of_error hrun

theorem kept_of_parsed {p : Program} (h : (ofText source drawn).parsed = .ok p) :
    kept source drawn = p := by
  unfold ofText at h
  unfold kept
  cases hrun : parse source drawn with
  | ok q d =>
      rw [hrun] at h
      dsimp only at h ⊢
      split at h <;> cases h
      rfl
  | error e d =>
      rw [hrun] at h
      cases h

theorem nodup_keys_kept (source : String) (drawn : Nat) : (kept source drawn).keys.Nodup := by
  obtain ⟨ids, hperm, hsublist⟩ := (kept source drawn).keys_subperm
  exact hperm.nodup_iff.1 ((ids_kept source drawn).1.sublist hsublist)

/-- A source is a program for both parsers, and the same one but for the identities, or it has the
same errors for both. -/
theorem parsed_cases (source : String) (drawn : Nat) :
    (∃ errors, (Program.ofText source 0).parsed = .error errors ∧
      (ofText source drawn).parsed = .error errors) ∨
    ∃ p p' : Program, (Program.ofText source 0).parsed = .ok p ∧
      (ofText source drawn).parsed = .ok p' ∧
      p'.map Stmt.erase = p.map (Stmt.renumber .bare) := by
  simp only [Program.ofText, Program.ofTokens, ofText, parse]
  generalize Cursor.start (Scan.ofText source 0).tokens (Scan.ofText source 0).eof = start
  have hrun := follows_program (k := 0) start.budget ⟨start, drawn⟩
  dsimp only at hrun
  split at hrun
  · rename_i p c hp
    obtain ⟨p', d, hp', hagrees, -⟩ := hrun
    rw [hp, hp']
    dsimp only
    split
    · exact .inr ⟨p, p', rfl, rfl, hagrees⟩
    · exact .inl ⟨_, rfl, rfl⟩
  · rename_i e c hp
    obtain ⟨d, hp', -⟩ := hrun
    rw [hp, hp']
    exact .inl ⟨_, rfl, rfl⟩

end Lox.Drawing
