import Lox.Proofs.Session.Read

set_option autoImplicit false

/-! # Rejected lines

A line with a static error is rejected before anything of it runs. What a session remembers of it
is only that its characters were read: the references of later lines get other numbers, and no
later line shows the difference (`Session.rejected_leaves_no_trace`).
-/

namespace Lox

namespace Session

variable {session session' : Session}

/-- A source with a lexical, a syntactic or a scoping error. -/
def HasStaticError (session : Session) (source : String) : Prop :=
  (Program.ofText source session.offset).lexErrors ≠ [] ∨
    (∃ errors, (Program.ofText source session.offset).parsed = .error errors) ∨
    ∃ p, (Program.ofText source session.offset).parsed = .ok p ∧ p.findings.errors ≠ []

/-- Static errors are all that a source is rejected for. -/
theorem hasStaticError_iff {source : String} :
    session.HasStaticError source ↔ ∃ errors, session.accept source = .error errors := by
  simp only [HasStaticError, accept, Reading.accept]
  cases (Program.ofText source session.offset).parsed with
  | error errors => simp
  | ok p =>
      cases (Program.ofText source session.offset).lexErrors with
      | cons e es => simp
      | nil =>
          simp only [Program.bind]
          cases hfindings : p.findings.errors with
          | nil => simp [hfindings]
          | cons e es => simp [hfindings]

theorem hasStaticError_of_isNone {source : String}
    (h : (session.accept source).toOption.isNone = true) : session.HasStaticError source := by
  rw [hasStaticError_iff]
  cases haccept : session.accept source with
  | error errors => exact ⟨errors, rfl⟩
  | ok accepted =>
      rw [haccept] at h
      cases h

/-- Sessions of which one has read more show the same for all lines. -/
theorem Moved.runAll {r : Renumbering} {characters : Nat} (hline : ∀ i, r.line i = i)
    (hinj : Function.Injective r.start)
    (hstart : ∀ i, session.offset ≤ i → r.start i = i + characters)
    (h : session.Moved r characters session') (clock : Nat → Float) (steps : Nat)
    (lines : List String) :
    session'.runAll clock steps lines = session.runAll clock steps lines := by
  induction lines generalizing session session' with
  | nil => rfl
  | cons line lines ih =>
      obtain ⟨hreport, hnext⟩ := h.run hline hinj hstart clock steps line
      have hoffset : session.offset ≤ (session.run clock steps line).2.offset := by
        rw [offset_run]
        exact offset_le_offsetAfter line
      rw [runAll_cons, runAll_cons, hreport,
        ih (fun i hi => hstart i (Nat.le_trans hoffset hi)) hnext]

/-- A session that has read a rejected line too is the same with later references moved. -/
theorem HoldsRead.moved (h : session.HoldsRead) (characters : Nat) :
    session.Moved (.beyond session.offset characters) characters
      { session with offset := session.offset + characters } where
  state := (h.state _ (Renumbering.keeps_beyond _ _)).symm
  bindings := (h.bindings.agrees (Renumbering.keeps_beyond _ characters) Float.ofNat).bindings
  offset := rfl

/-- Reading a rejected line first makes no difference to the lines after it. -/
theorem HoldsRead.runAll_cons_of_error (h : session.HoldsRead) {source : String}
    {errors : List Diagnostic} (haccept : session.accept source = .error errors)
    (clock : Nat → Float) (steps : Nat) (lines : List String) :
    session.runAll clock steps (source :: lines) =
      ⟨"", .rejected errors⟩ :: session.runAll clock steps lines := by
  have hrun : session.run clock steps source =
      (⟨"", .rejected errors⟩, { session with offset := session.offsetAfter source }) := by
    rw [Session.run, haccept]
  have hmoved := h.moved (source.length + 1)
  rw [runAll_cons, hrun]
  exact congrArg _ (hmoved.runAll (fun _ => rfl) (Renumbering.injective_beyond _ _)
    (fun i hi => Renumbering.beyond_start_of_le _ _ hi) clock steps lines)

end Session

/-- A line with a static error prints nothing and is rejected, and without it the session shows the
same for all other lines. -/
theorem Session.rejected_leaves_no_trace (clock : Nat → Float) (steps : Nat) {lines : List String}
    {i : Nat} {line : String} (hline : lines[i]? = some line)
    (herror : (Session.start.afterAll clock steps (lines.take i)).HasStaticError line) :
    (∃ errors, (Session.start.runAll clock steps lines)[i]? = some ⟨"", .rejected errors⟩) ∧
      Session.start.runAll clock steps (lines.eraseIdx i) =
        (Session.start.runAll clock steps lines).eraseIdx i := by
  obtain ⟨errors, haccept⟩ := hasStaticError_iff.1 herror
  obtain ⟨hi, rfl⟩ := List.getElem?_eq_some_iff.1 hline
  have hread := holdsRead_start.afterAll clock steps (lines.take i)
  have hlength : (Session.start.runAll clock steps (lines.take i)).length = i := by
    rw [length_runAll, List.length_take, Nat.min_eq_left (Nat.le_of_lt hi)]
  have hsplit : lines = lines.take i ++ lines[i] :: lines.drop (i + 1) := by
    rw [← List.drop_eq_getElem_cons, List.take_append_drop]
  have hall : Session.start.runAll clock steps lines =
      Session.start.runAll clock steps (lines.take i) ++ ⟨"", .rejected errors⟩ ::
        (Session.start.afterAll clock steps (lines.take i)).runAll clock steps
          (lines.drop (i + 1)) := by
    rw [← hread.runAll_cons_of_error haccept, ← runAll_append, ← hsplit]
  rw [hall, List.eraseIdx_eq_take_drop_succ, runAll_append]
  refine ⟨⟨errors, ?_⟩, ?_⟩
  · rw [List.getElem?_append_right (Nat.le_of_eq hlength), hlength, Nat.sub_self,
      List.getElem?_cons_zero]
  · rw [List.eraseIdx_append_of_length_le (Nat.le_of_eq hlength), hlength, Nat.sub_self,
      List.eraseIdx_cons_zero]

/-- A block that prints and then declares a variable twice is as if it had not been there. -/
theorem Session.rejected_leaves_no_trace_twice :
    ∃ lines, lines = ["fun f() \x7b return x; \x7d", "\x7b var x; print x; var x; \x7d",
        "var x = \"kept\"; print f();"] ∧
      (∃ errors, (Session.start.runAll Float.ofNat 100 lines)[1]? =
        some ⟨"", .rejected errors⟩) ∧
      Session.start.runAll Float.ofNat 100 (lines.eraseIdx 1) =
        (Session.start.runAll Float.ofNat 100 lines).eraseIdx 1 ∧
      (Session.start.runAll Float.ofNat 100 (lines.eraseIdx 1)).map Report.output =
        ["", "kept\n"] := by
  have hnone : ((Session.start.afterAll Float.ofNat 100 ["fun f() \x7b return x; \x7d"]).accept
      "\x7b var x; print x; var x; \x7d").toOption.isNone = true := by decide +kernel
  exact ⟨_, rfl, and_assoc.1 ⟨Session.rejected_leaves_no_trace Float.ofNat 100 rfl
    (Session.hasStaticError_of_isNone hnone), by decide +kernel⟩⟩

end Lox
