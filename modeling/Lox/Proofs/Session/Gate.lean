import Lox.Proofs.Parsing.Language
import Lox.Proofs.Scanning.Partition
import Lox.Proofs.Session.Lines

set_option autoImplicit false

/-! # The static gate

A source runs only if it has no lexical, no syntactic and no scoping error. Otherwise nothing of it
runs, and what is reported is settled before any run: the errors found while it was read, or the
scoping errors if there are none of these (`staticErrors`). A source that runs and ends does so
without an error or with a single runtime error (`runSource_gate`).
-/

namespace Lox

/-! ## The errors of each stage -/

/-- The lexical errors of a source. -/
def lexicalErrors (source : String) : List LexError := (Scan.ofText source 0).errors

/-- The syntactic errors of a source. -/
def syntaxErrors (source : String) : List ParseError :=
  match (Program.ofText source 0).parsed with
  | .ok _ => []
  | .error errors => errors

/-- The scoping errors of a source that is a program. -/
def scopingErrors (source : String) : List ResolveError :=
  match (Program.ofText source 0).parsed with
  | .ok program => program.findings.errors
  | .error _ => []

/-- The errors that are found while a source is read, all lexical ones first. -/
def readingErrors (source : String) : List Diagnostic :=
  (lexicalErrors source).map LexError.toDiagnostic ++
    (syntaxErrors source).map ParseError.toDiagnostic

/-- Everything that is wrong with a source before it runs. Scopes are looked at only if there was
no error before. -/
def staticErrors (source : String) : List Diagnostic :=
  if readingErrors source = [] then (scopingErrors source).map ResolveError.toDiagnostic
  else readingErrors source

theorem isStatic_of_mem_staticErrors {source : String} {d : Diagnostic}
    (h : d ∈ staticErrors source) : d.isStatic = true := by
  unfold staticErrors at h
  split at h
  · obtain ⟨e, -, rfl⟩ := List.mem_map.1 h
    rfl
  · rcases List.mem_append.1 h with h | h
    · obtain ⟨e, -, rfl⟩ := List.mem_map.1 h
      rfl
    · obtain ⟨e, -, rfl⟩ := List.mem_map.1 h
      rfl

/-- The lexical errors come in the order of the text. -/
theorem pairwise_lexicalErrors (source : String) :
    (lexicalErrors source).Pairwise (·.stop ≤ ·.start) := by
  have hall := (Scan.partitions_ofText source 0).increasing
  rw [Scan.allItems, List.pairwise_append] at hall
  rw [lexicalErrors, Scan.errors, List.pairwise_filterMap]
  refine hall.1.imp ?_
  intro item item' hle e he e' he'
  cases item with
  | token t => cases he
  | error _ =>
      cases item' with
      | token t => cases he'
      | error _ =>
          cases he
          cases he'
          exact hle

/-- A source that is rejected by the parser has a syntactic error to show for it. -/
theorem syntaxErrors_ne_nil {source : String} {errors : List ParseError}
    (h : (Program.ofText source 0).parsed = .error errors) : syntaxErrors source ≠ [] := by
  have herrors : syntaxErrors source = errors := by rw [syntaxErrors, h]
  have hparsed : Program.ofTokens (Scan.ofText source 0).tokens (Scan.ofText source 0).eof =
      .error errors := h
  have heof : (Scan.ofText source 0).eof.kind = .eof := rfl
  rcases Parser.ofTokens_cases (Scan.ofText source 0).tokens heof with
    ⟨p, hp, -⟩ | ⟨errors', herror, hne⟩
  · rw [hparsed] at hp
    cases hp
  · rw [hparsed] at herror
    cases herror
    rw [herrors]
    exact hne

/-! ## Passing the gate -/

namespace Session

variable {source : String}

/-- Errors of any stage keep a source from being accepted, and are what it is rejected for. -/
theorem accept_of_staticErrors (h : staticErrors source ≠ []) :
    Session.start.accept source = .error (staticErrors source) := by
  have hlex : (Program.ofText source Session.start.offset).lexErrors = lexicalErrors source := rfl
  unfold staticErrors at h ⊢
  cases hparsed : (Program.ofText source 0).parsed with
  | error errors =>
      -- The syntactic errors are not empty, so there are errors of reading.
      have hsyntax : syntaxErrors source = errors := by rw [syntaxErrors, hparsed]
      have hne := syntaxErrors_ne_nil hparsed
      have hreading : readingErrors source ≠ [] := by
        intro hnil
        exact hne (List.map_eq_nil_iff.1 (List.append_eq_nil_iff.1 hnil).2)
      have hstart : (Program.ofText source Session.start.offset).parsed = .error errors := hparsed
      rw [if_neg hreading, accept, Reading.accept]
      simp only [hstart, Reading.errors, hlex, readingErrors, hsyntax]
  | ok program =>
      have hsyntax : syntaxErrors source = [] := by rw [syntaxErrors, hparsed]
      have hscoping : scopingErrors source = program.findings.errors := by
        rw [scopingErrors, hparsed]
      have hreading : readingErrors source = (lexicalErrors source).map LexError.toDiagnostic := by
        rw [readingErrors, hsyntax, List.map_nil, List.append_nil]
      have hstart : (Program.ofText source Session.start.offset).parsed = .ok program := hparsed
      rw [hreading, hscoping] at h ⊢
      rw [accept, Reading.accept]
      simp only [hstart, Reading.errors, hlex, List.append_nil]
      cases hlexical : lexicalErrors source with
      | cons e es => simp
      | nil =>
          rw [hlexical] at h
          simp only [List.map_nil, ↓reduceIte] at h ⊢
          have hne : program.findings.errors ≠ [] := fun hnil => h (by rw [hnil]; rfl)
          have hbind : program.bind Session.start.bindings = .error program.findings.errors := by
            rw [Program.bind, if_neg]
            rwa [List.isEmpty_iff]
          simp [hbind]

/-- A source without an error of any stage is accepted. -/
theorem exists_accept_of_staticErrors (h : staticErrors source = []) :
    ∃ p t, (Program.ofText source 0).parsed = .ok p ∧ p.bind ∅ = .ok t ∧
      Session.start.accept source = .ok (p, t) := by
  have hreading : readingErrors source = [] := by
    by_contra hne
    unfold staticErrors at h
    rw [if_neg hne] at h
    exact hne h
  have hlexical : lexicalErrors source = [] :=
    List.map_eq_nil_iff.1 (List.append_eq_nil_iff.1 hreading).1
  have hsyntax : syntaxErrors source = [] :=
    List.map_eq_nil_iff.1 (List.append_eq_nil_iff.1 hreading).2
  have hscoping : scopingErrors source = [] := by
    unfold staticErrors at h
    rw [if_pos hreading] at h
    exact List.map_eq_nil_iff.1 h
  cases hparsed : (Program.ofText source 0).parsed with
  | error errors => exact absurd hsyntax (syntaxErrors_ne_nil hparsed)
  | ok p =>
      have herrors : p.findings.errors = [] := by rwa [scopingErrors, hparsed] at hscoping
      have hbind : p.bind ∅ = .ok (BindingTable.extend ∅ p.findings.bindings) :=
        Program.bind_eq_ok_iff.2 ⟨herrors, rfl⟩
      exact ⟨p, _, rfl, hbind, accept_eq_ok_iff.2 ⟨hlexical, hparsed, hbind⟩⟩

end Session

/-! ## The three ways to end -/

namespace Report

/-- These static errors were reported, and nothing was printed. -/
structure IsRejected (r : Report) (found : List Diagnostic) : Prop where
  errors_eq : r.errors = found
  ne_nil : found ≠ []
  isStatic : ∀ d ∈ found, d.isStatic = true
  output_eq : r.output = ""

/-- One runtime error was reported, and no other error. -/
def IsFailed (r : Report) : Prop := ∃ line message, r.errors = [.runtime line message]

/-- The errors of a report decide its exit code, if there are any. -/
theorem exitCode_of_errors {r : Report} (h : r.errors ≠ []) :
    r.exitCode = Diagnostic.exitCodeOf r.errors := by
  obtain ⟨output, ending⟩ := r
  cases ending with
  | finished => exact absurd rfl h
  | running => exact absurd rfl h
  | rejected found => rfl
  | failed e => rfl

theorem IsRejected.exitCode {r : Report} {found : List Diagnostic} (h : r.IsRejected found) :
    r.exitCode = 65 := by
  obtain ⟨d, ds, hfound⟩ := List.exists_cons_of_ne_nil h.ne_nil
  have hd : d.isStatic = true := h.isStatic d (hfound ▸ List.mem_cons_self)
  rw [exitCode_of_errors (h.errors_eq ▸ h.ne_nil), h.errors_eq, hfound, Diagnostic.exitCodeOf_cons]
  exact Diagnostic.exitCode_of_isStatic hd

theorem IsFailed.exitCode {r : Report} (h : r.IsFailed) : r.exitCode = 70 := by
  obtain ⟨line, message, herrors⟩ := h
  have hne : r.errors ≠ [] := by
    rw [herrors]
    exact List.cons_ne_nil _ _
  rw [exitCode_of_errors hne, herrors]
  rfl

/-- The run went through, or it goes on. -/
def HasNoError (r : Report) : Prop := r.ending = .finished ∨ r.ending = .running

theorem HasNoError.errors_eq {r : Report} (h : r.HasNoError) : r.errors = [] := by
  rcases h with h | h <;> rw [errors, h]

theorem HasNoError.exitCode {r : Report} (h : r.HasNoError) : r.exitCode = 0 := by
  rcases h with h | h <;> rw [Report.exitCode, h]

/-- A run ends with a runtime error or without an error, however its program came about. -/
theorem ofConfig_cases (c : Config) : (ofConfig c).HasNoError ∨ (ofConfig c).IsFailed := by
  unfold ofConfig
  cases c.outcome? with
  | none => exact .inl (.inr rfl)
  | some outcome =>
      cases outcome with
      | ok v => exact .inl (.inl rfl)
      | error e => exact .inr ⟨e.line, e.cause.message, rfl⟩

/-- The exit code tells apart the ways to end. -/
theorem exitCode_iff {r : Report} {found : List Diagnostic}
    (h : r.HasNoError ∨ r.IsRejected found ∨ r.IsFailed) :
    (r.HasNoError ↔ r.exitCode = 0) ∧ (r.IsRejected found ↔ r.exitCode = 65) ∧
      (r.IsFailed ↔ r.exitCode = 70) := by
  refine ⟨⟨fun h => h.exitCode, fun hcode => ?_⟩, ⟨fun h => h.exitCode, fun hcode => ?_⟩,
    ⟨fun h => h.exitCode, fun hcode => ?_⟩⟩
  -- In the other cases the code would have to be two numbers at once.
  all_goals rcases h with hnone | hrejected | hfailed
  · exact hnone
  · exact absurd (hrejected.exitCode.symm.trans hcode) (by decide)
  · exact absurd (hfailed.exitCode.symm.trans hcode) (by decide)
  · exact absurd (hnone.exitCode.symm.trans hcode) (by decide)
  · exact hrejected
  · exact absurd (hfailed.exitCode.symm.trans hcode) (by decide)
  · exact absurd (hnone.exitCode.symm.trans hcode) (by decide)
  · exact absurd (hrejected.exitCode.symm.trans hcode) (by decide)
  · exact hfailed

end Report

/-- A source with static errors shows these, and its run has not begun. -/
theorem Session.run_of_staticErrors (clock : Nat → Float) (steps : Nat) {source : String}
    (h : staticErrors source ≠ []) :
    Session.start.run clock steps source =
      (⟨"", .rejected (staticErrors source)⟩,
        { Session.start with offset := Session.start.offsetAfter source }) := by
  rw [Session.run, Session.accept_of_staticErrors h]

/-- A source without static errors is run. -/
theorem exists_run_of_staticErrors (clock : Nat → Float) (steps : Nat) {source : String}
    (h : staticErrors source = []) :
    ∃ p t, (Program.ofText source 0).parsed = .ok p ∧ p.bind ∅ = .ok t ∧
      runSource clock steps source =
        .ofConfig ((Config.ofProgram p .start).run ⟨t, clock⟩ steps) := by
  obtain ⟨p, t, hparsed, hbind, haccept⟩ := Session.exists_accept_of_staticErrors h
  refine ⟨p, t, hparsed, hbind, ?_⟩
  rw [runSource, Session.run, haccept]
  rfl

/-- The ways in which a source ends, if it does. -/
theorem runSource_ways (clock : Nat → Float) (steps : Nat) (source : String) :
    (runSource clock steps source).HasNoError ∨
      (runSource clock steps source).IsRejected (staticErrors source) ∨
      (runSource clock steps source).IsFailed := by
  by_cases h : staticErrors source = []
  · obtain ⟨p, t, -, -, hrun⟩ := exists_run_of_staticErrors clock steps h
    rw [hrun]
    exact (Report.ofConfig_cases _).imp_right Or.inr
  · refine .inr (.inl ?_)
    rw [runSource, Session.run_of_staticErrors clock steps h]
    exact ⟨rfl, h, fun d => isStatic_of_mem_staticErrors, rfl⟩

/-- A source that has static errors does not run. -/
theorem staticErrors_of_running {clock : Nat → Float} {steps : Nat} {source : String}
    (h : (runSource clock steps source).ending = .running) : staticErrors source = [] := by
  by_contra hne
  rw [runSource, Session.run_of_staticErrors clock steps hne] at h
  cases h

/-- The static gate. A source by itself that ends does so in one of three ways, which its exit code
tells apart: it goes through without an error; or all errors of reading it, or all its scoping
errors, are reported, and then nothing of it has run; or one runtime error is reported. A source
without static errors is run, and a run that has not ended has no error yet.

That a run fails with a runtime error, and never with an error of another stage, is part of the type
of what a step can raise: all causes of `RuntimeError` are those of the evaluator. -/
theorem runSource_gate (clock : Nat → Float) (steps : Nat) (source : String) :
    let r := runSource clock steps source
    (r.ending ≠ .running →
      (r.ending = .finished ∨ r.IsRejected (staticErrors source) ∨ r.IsFailed) ∧
      (r.ending = .finished ↔ r.exitCode = 0) ∧
      (r.errors = [] ↔ r.exitCode = 0)) ∧
    (r.ending = .running → r.errors = [] ∧ staticErrors source = []) ∧
    (r.IsRejected (staticErrors source) ↔ r.exitCode = 65) ∧
    (r.IsFailed ↔ r.exitCode = 70) ∧
    (r.errors ≠ [] → r.exitCode = Diagnostic.exitCodeOf r.errors) ∧
    (lexicalErrors source).Pairwise (·.stop ≤ ·.start) ∧
    (staticErrors source ≠ [] →
      Session.start.run clock steps source =
        (⟨"", .rejected (staticErrors source)⟩,
          { Session.start with offset := Session.start.offsetAfter source })) ∧
    (staticErrors source = [] →
      ∃ p t, (Program.ofText source 0).parsed = .ok p ∧ p.bind ∅ = .ok t ∧
        r = .ofConfig ((Config.ofProgram p .start).run ⟨t, clock⟩ steps)) := by
  intro r
  have hways : r.HasNoError ∨ r.IsRejected (staticErrors source) ∨ r.IsFailed :=
    runSource_ways clock steps source
  obtain ⟨hnone, hrejected, hfailed⟩ := Report.exitCode_iff hways
  refine ⟨fun hends => ?_, fun hruns => ⟨?_, staticErrors_of_running hruns⟩, hrejected, hfailed,
    Report.exitCode_of_errors, pairwise_lexicalErrors source,
    Session.run_of_staticErrors clock steps, exists_run_of_staticErrors clock steps⟩
  · have hfinished : r.HasNoError ↔ r.ending = .finished := or_iff_left hends
    refine ⟨hways.imp_left hfinished.1, hfinished.symm.trans hnone, fun herrors => ?_,
      fun hcode => (hnone.2 hcode).errors_eq⟩
    rcases hways with h | h | ⟨line, message, h⟩
    · exact h.exitCode
    · exact absurd (h.errors_eq.symm.trans herrors) h.ne_nil
    · exact absurd (h.symm.trans herrors) (List.cons_ne_nil _ _)
  · exact Report.HasNoError.errors_eq (.inr hruns)

/-- Errors of reading hide the scoping error. -/
example : (staticErrors "return 1; @ print (2;").map Diagnostic.line? =
    [some 1, some 1] := by
  decide +kernel

end Lox
