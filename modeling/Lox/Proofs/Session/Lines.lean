import Lox.Proofs.Binding.Table
import Lox.Proofs.Machine.Run
import Lox.Session

set_option autoImplicit false

/-! # The lines of a session

What a session shows for its lines is what it shows for the first of them and then, from where it
has come to, for the others.
-/

namespace Lox

theorem Config.isFinished_of_ending {c : Config} (h : (Report.ofConfig c).ending ≠ .running) :
    c.isFinished = true := by
  obtain ⟨control, frames, st⟩ := c
  cases control <;> cases frames <;> first | rfl | exact absurd rfl h

/-- What was read is accepted if it has no lexical errors, and is a program that resolves. -/
theorem Reading.accept_eq_ok_iff {reading : Reading (List ParseError) Program}
    {bindings t : BindingTable} {p : Program} :
    reading.accept bindings = .ok (p, t) ↔
      reading.lexErrors = [] ∧ reading.parsed = .ok p ∧ p.bind bindings = .ok t := by
  simp only [accept]
  cases reading.parsed with
  | error errors => simp
  | ok q =>
      cases reading.lexErrors with
      | cons e es => simp
      | nil =>
          simp only [List.isEmpty_nil, ↓reduceIte, true_and, Except.ok.injEq]
          constructor
          · intro h
            cases hbind : q.bind bindings with
            | error errors => rw [hbind] at h; cases h
            | ok u => rw [hbind] at h; cases h; exact ⟨rfl, hbind⟩
          · rintro ⟨rfl, hbind⟩
            rw [hbind]

namespace Session

/-- A source is accepted if it scans, parses and resolves. -/
theorem accept_eq_ok_iff {session : Session} {source : String} {p : Program} {t : BindingTable} :
    session.accept source = .ok (p, t) ↔
      (Program.ofText source session.offset).lexErrors = [] ∧
        (Program.ofText source session.offset).parsed = .ok p ∧
        p.bind session.bindings = .ok t :=
  Reading.accept_eq_ok_iff

variable (clock : Nat → Float) (steps : Nat)

/-- A session after it has run lines. -/
def afterAll (session : Session) : List String → Session
  | [] => session
  | source :: sources => (session.run clock steps source).2.afterAll sources

variable (session : Session)

theorem runAll_cons (source : String) (sources : List String) :
    session.runAll clock steps (source :: sources) =
      (session.run clock steps source).1 ::
        (session.run clock steps source).2.runAll clock steps sources := rfl

theorem runAll_append (lines more : List String) :
    session.runAll clock steps (lines ++ more) =
      session.runAll clock steps lines ++
        (session.afterAll clock steps lines).runAll clock steps more := by
  induction lines generalizing session with
  | nil => rfl
  | cons line lines ih =>
      rw [List.cons_append, runAll_cons, runAll_cons, ih, afterAll, List.cons_append]

@[simp] theorem length_runAll (lines : List String) :
    (session.runAll clock steps lines).length = lines.length := by
  induction lines generalizing session with
  | nil => rfl
  | cons line lines ih => rw [runAll_cons, List.length_cons, List.length_cons, ih]

/-- A line is rejected, which leaves the session as it is but for the offset, or its program is
run. -/
theorem run_cases (source : String) :
    (∃ errors, session.accept source = .error errors ∧
      session.run clock steps source =
        (⟨"", .rejected errors⟩, { session with offset := session.offsetAfter source })) ∨
      ∃ p t, session.accept source = .ok (p, t) ∧
        session.run clock steps source =
          (.ofConfig (session.runProgram clock steps p t),
            ⟨t, (session.runProgram clock steps p t).state, session.offsetAfter source⟩) := by
  rw [run]
  cases session.accept source with
  | error errors => exact .inl ⟨errors, rfl, rfl⟩
  | ok accepted => exact .inr ⟨accepted.1, accepted.2, rfl, rfl⟩

/-- With more steps, what has ended shows the same. -/
theorem run_of_le {clock : Nat → Float} {steps steps' : Nat} {session : Session} {source : String}
    (h : (session.run clock steps source).1.ending ≠ .running) (hle : steps ≤ steps') :
    session.run clock steps' source = session.run clock steps source := by
  rcases session.run_cases clock steps source with ⟨_, haccept, hrun⟩ | ⟨p, t, haccept, hrun⟩
  · rw [hrun, run, haccept]
  · rw [hrun] at h
    rw [hrun, run, haccept]
    have hlast : session.runProgram clock steps' p t = session.runProgram clock steps p t :=
      Config.run_of_le (Config.isFinished_of_ending h) hle
    simp only [hlast]

theorem offset_run (source : String) :
    (session.run clock steps source).2.offset = session.offsetAfter source := by
  rcases session.run_cases clock steps source with ⟨_, -, hrun⟩ | ⟨_, _, -, hrun⟩ <;> rw [hrun]

end Session

end Lox
