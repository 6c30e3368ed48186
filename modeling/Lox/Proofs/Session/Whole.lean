import Lox.Proofs.Binding.Bound
import Lox.Proofs.Machine.Program
import Lox.Proofs.Session.Joined

set_option autoImplicit false

/-! # Sessions and whole programs

The lines of a session, joined by line ends, are a program that prints what the session prints for
all its lines and ends as the last line does (`Session.runSource_intercalate`). It is enough to say
this of two sources (`Session.HoldsRead.run_joined`): the second of them may consist of lines again.
-/

namespace Lox

/-- What a program starts, a program that differs in lines starts too. -/
theorem Program.SameButLines.run {p q : Program} (h : p.SameButLines q) (s : Setting)
    (st : State) (steps : Nat) :
    ((Config.ofProgram p st).run s steps).renumber .lineless "" =
      ((Config.ofProgram q st).run s steps).renumber .lineless "" := by
  have hagrees : Setting.Agrees .lineless s s := ⟨fun _ => rfl, rfl⟩
  rw [Config.run_renumber hagrees, Config.run_renumber hagrees, Config.ofProgram_renumber,
    Config.ofProgram_renumber, h]

/-- An accepted source has run to its end. -/
def Ending.HasRun : Ending → Prop
  | .finished | .failed _ => True
  | .rejected _ | .running => False

@[simp] theorem Ending.hasRun_renumber (r : Renumbering) (ending : Ending) :
    (ending.renumber r).HasRun ↔ ending.HasRun := by
  cases ending <;> rfl

theorem Ending.eq_finished_of_renumber {r : Renumbering} {ending : Ending}
    (h : ending.renumber r = .finished) : ending = .finished := by
  cases ending <;> first | rfl | cases h

theorem Ending.exists_of_renumber_failed {r : Renumbering} {ending : Ending} {e : RuntimeError}
    (h : ending.renumber r = .failed (e.renumber r)) :
    ∃ e', ending = .failed e' ∧ e'.cause = e.cause := by
  cases ending with
  | failed e' =>
      rw [renumber, failed.injEq] at h
      have hcause := congrArg RuntimeError.cause h
      exact ⟨e', rfl, hcause⟩
  | _ => cases h

theorem Report.exists_of_finished {c : Config} (h : (ofConfig c).ending = .finished) :
    ∃ v, c.outcome? = some (.ok v) := by
  rw [ofConfig] at h
  split at h
  · exact ⟨_, ‹_›⟩
  · cases h
  · cases h

namespace Session

variable {session : Session} {clock : Nat → Float} {steps : Nat}

theorem exists_accept_of_hasRun {source : String}
    (h : (session.run clock steps source).1.ending.HasRun) :
    ∃ p t, session.accept source = .ok (p, t) := by
  rcases session.run_cases clock steps source with ⟨errors, -, hrun⟩ | ⟨p, t, haccept, -⟩
  · rw [hrun] at h
    exact h.elim
  · exact ⟨p, t, haccept⟩

/-- What was printed before a line is printed before what the line prints. -/
theorem HoldsRead.report_after_output (h : session.HoldsRead) {source : String} {p : Program}
    {t : BindingTable} (haccept : session.accept source = .ok (p, t)) (n : Nat) :
    Report.ofConfig ((Config.ofProgram p session.state).run ⟨t, clock⟩ n) =
      ⟨session.state.output ++ (session.run clock n source).1.output,
        (session.run clock n source).1.ending⟩ := by
  have hkeeps := Renumbering.keeps_beyond (session.offsetAfter source) 0
  have hstate := (h.state.mono (offset_le_offsetAfter source)).renumber_output _ hkeeps
    session.state.output
  have hshown : (Config.ofProgram p session.state).run ⟨t, clock⟩ n =
      (session.runProgram clock n p t).renumber
        (.beyond (session.offsetAfter source) 0) session.state.output := by
    rw [Session.runProgram, Config.run_renumber ((h.table haccept).agrees hkeeps clock),
      Config.ofProgram_renumber, hstate, below_of_accept haccept _ hkeeps]
  rw [hshown, Report.ofConfig_renumber, Ending.renumber_eq fun _ => rfl, Session.run, haccept]

/-- Two sources in one text show what they show one after the other. -/
theorem HoldsRead.run_joined (h : session.HoldsRead) {source more : String}
    (hfinished : (session.run clock steps source).1.ending = .finished) {q : Program}
    {u : BindingTable} (hmore : (session.run clock steps source).2.accept more = .ok (q, u)) :
    ∃ m, ∀ n,
      (session.run clock (m + n) (source ++ "\n" ++ more)).1.output =
          (session.run clock steps source).1.output ++
            ((session.run clock steps source).2.run clock n more).1.output ∧
        (session.run clock (m + n) (source ++ "\n" ++ more)).1.ending.renumber .lineless =
          ((session.run clock steps source).2.run clock n more).1.ending.renumber .lineless := by
  obtain ⟨p, t, haccept⟩ := exists_accept_of_hasRun (by rw [hfinished]; exact trivial)
  have hread := h.run clock steps source
  -- The state after the first source, and what the second one starts with.
  have hrun : session.run clock steps source =
      (.ofConfig (session.runProgram clock steps p t),
        ⟨t, (session.runProgram clock steps p t).state, session.offsetAfter source⟩) := by
    rw [Session.run, haccept]
  rw [hrun] at hfinished hmore hread ⊢
  obtain ⟨v, hv⟩ := Report.exists_of_finished hfinished
  obtain ⟨whole, hwhole, hsame⟩ := exists_accept_joined haccept rfl rfl hmore
  obtain ⟨-, hq, hbind⟩ := accept_eq_ok_iff.1 hmore
  obtain ⟨herrors, hu⟩ := Program.bind_eq_ok_iff.1 hbind
  have hfirst : (Config.ofProgram p { session.state with output := "" }).run ⟨u, clock⟩ steps =
      session.runProgram clock steps p t := by
    refine (h.ofProgram haccept).run_congr (h.table haccept) (hread.table hmore) (fun i hi => ?_)
      clock steps
    rw [← hu]
    exact BindingTable.getElem?_extend_of_lt (Program.le_of_mem_bindings hq herrors) hi
  rw [← hfirst] at hv
  obtain ⟨m, hm⟩ := Config.exists_run_append hv q
  rw [hfirst] at hm
  refine ⟨m, fun n => ?_⟩
  have hjoined := congrArg Report.ofConfig
    (hsame.run ⟨u, clock⟩ { session.state with output := "" } (m + n))
  rw [Config.run_add ⟨u, clock⟩ (Config.ofProgram (p ++ q) _), hm, Report.ofConfig_renumber,
    Report.ofConfig_renumber, Report.mk.injEq, String.empty_append, String.empty_append,
    hread.report_after_output hmore n] at hjoined
  rw [Session.run, hwhole]
  exact hjoined

theorem intercalate_cons_append_singleton (source line : String) (lines : List String) :
    "\n".intercalate (source :: (lines ++ [line])) =
      source ++ "\n" ++ "\n".intercalate (lines ++ [line]) := by
  cases lines with
  | nil => exact String.intercalate_cons_cons
  | cons more lines => exact String.intercalate_cons_cons

/-- Lines of which all but the last one finish show together what they show one by one. -/
theorem HoldsRead.run_intercalate (h : session.HoldsRead) {lines : List String} {line : String}
    (hfinished : ∀ r ∈ session.runAll clock steps lines, r.ending = .finished)
    (hline : ((session.afterAll clock steps lines).run clock steps line).1.ending.HasRun) :
    ∃ m, (session.run clock m ("\n".intercalate (lines ++ [line]))).1.output =
        String.join ((session.runAll clock steps (lines ++ [line])).map Report.output) ∧
      (session.run clock m ("\n".intercalate (lines ++ [line]))).1.ending.renumber .lineless =
        ((session.afterAll clock steps lines).run clock steps line).1.ending.renumber
          .lineless := by
  induction lines generalizing session with
  | nil =>
      refine ⟨steps, ?_, ?_⟩
      · rw [List.nil_append, String.intercalate_singleton, runAll_cons]
        simp [runAll, String.join]
      · rw [List.nil_append, String.intercalate_singleton]
        rfl
  | cons source lines ih =>
      rw [runAll_cons, List.forall_mem_cons] at hfinished
      obtain ⟨m, houtput, hending⟩ := ih (h.run clock steps source) hfinished.2 hline
      have hmoreRun := (Ending.hasRun_renumber .lineless _).2 hline
      rw [Session.afterAll, ← hending, Ending.hasRun_renumber] at hmoreRun
      obtain ⟨q, u, hmore⟩ := exists_accept_of_hasRun hmoreRun
      obtain ⟨m', hjoined⟩ := h.run_joined hfinished.1 hmore
      obtain ⟨hjoinedOutput, hjoinedEnding⟩ := hjoined m
      refine ⟨m' + m, ?_, ?_⟩
      · rw [List.cons_append, intercalate_cons_append_singleton, hjoinedOutput, houtput,
          runAll_cons]
        simp [String.join_cons]
      · rw [List.cons_append, intercalate_cons_append_singleton, hjoinedEnding, hending]
        rfl

theorem run_empty (n : Nat) : (start.run clock n "").1 = ⟨"", .finished⟩ := by
  obtain ⟨p, t, haccept, hempty⟩ := exists_of_accept start "" (fun accepted => accepted.1.isEmpty)
    (by decide +kernel)
  obtain rfl := List.isEmpty_iff.1 hempty
  have hrun : start.runProgram clock n [] t = Config.ofProgram [] .start :=
    Config.run_of_isFinished _ _ n rfl
  rw [run, haccept]
  simp only [hrun]
  rfl

end Session

/-- A session is the same as the whole program. If a session runs each of its lines without an
error, then the lines joined by line ends run without an error, given enough steps, and print what
the lines printed one after the other; and if only the last line fails, so do the joined lines
after they printed the same, with an error of the same cause. -/
theorem Session.runSource_intercalate (clock : Nat → Float) (steps : Nat) :
    (∀ lines, (∀ r ∈ Session.start.runAll clock steps lines, r.ending = .finished) →
      ∃ m, ∀ n ≥ m, runSource clock n ("\n".intercalate lines) =
        ⟨String.join ((Session.start.runAll clock steps lines).map Report.output), .finished⟩) ∧
    ∀ lines line e,
      (∀ r ∈ Session.start.runAll clock steps lines, r.ending = .finished) →
      ((Session.start.afterAll clock steps lines).run clock steps line).1.ending = .failed e →
      ∃ m e', e'.cause = e.cause ∧ ∀ n ≥ m,
        runSource clock n ("\n".intercalate (lines ++ [line])) =
          ⟨String.join ((Session.start.runAll clock steps (lines ++ [line])).map Report.output),
            .failed e'⟩ := by
  -- What has ended after `m` steps shows the same after more of them.
  have hstays : ∀ {source m output ending}, (runSource clock m source).output = output →
      (runSource clock m source).ending = ending → ending ≠ .running →
      ∀ n ≥ m, runSource clock n source = ⟨output, ending⟩ := by
    rintro source m _ _ rfl rfl hends n hn
    exact congrArg Prod.fst (run_of_le hends hn)
  constructor
  · intro lines hfinished
    rcases List.eq_nil_or_concat' lines with rfl | ⟨lines, line, rfl⟩
    · exact ⟨0, fun n _ => run_empty n⟩
    · rw [runAll_append, List.forall_mem_append] at hfinished
      have hline : ((Session.start.afterAll clock steps lines).run clock steps line).1.ending =
        .finished := hfinished.2 _ List.mem_cons_self
      have hhasRun : ((Session.start.afterAll clock steps lines).run clock steps
          line).1.ending.HasRun := by
        rw [hline]
        exact trivial
      obtain ⟨m, houtput, hending⟩ := holdsRead_start.run_intercalate hfinished.1 hhasRun
      rw [hline] at hending
      exact ⟨m, hstays houtput (Ending.eq_finished_of_renumber hending) (by simp)⟩
  · intro lines line e hfinished hline
    have hhasRun : ((Session.start.afterAll clock steps lines).run clock steps
        line).1.ending.HasRun := by
      rw [hline]
      exact trivial
    obtain ⟨m, houtput, hending⟩ := holdsRead_start.run_intercalate hfinished hhasRun
    rw [hline] at hending
    obtain ⟨e', he', hcause⟩ := Ending.exists_of_renumber_failed hending
    exact ⟨m, e', hcause, hstays houtput he' (by simp)⟩

namespace Session

/-- A function that reads a variable, and a line that declares the variable and calls it. -/
def readerLines : List String := ["fun f() \x7b return x; \x7d", "var x = \"one\"; print f();"]

/-- A line that assigns to the variable, calls the function again and then fails. -/
def readerCall : String := "x = \"two\"; print f(); x();"

theorem runAll_reader :
    start.runAll Float.ofNat 100 (readerLines ++ [readerCall]) =
      [⟨"", .finished⟩, ⟨"one\n", .finished⟩, ⟨"two\n", .failed ⟨.notCallable, 1⟩⟩] := by
  decide +kernel

/-- A closure of an early line, called by a later one that then fails. -/
theorem runSource_intercalate_closure :
    (∀ r ∈ start.runAll Float.ofNat 100 readerLines, r.ending = .finished) ∧
      ((start.afterAll Float.ofNat 100 readerLines).run Float.ofNat 100 readerCall).1.ending =
        .failed ⟨.notCallable, 1⟩ ∧
      (∃ m, ∀ n ≥ m, runSource Float.ofNat n ("\n".intercalate readerLines) =
        ⟨"one\n", .finished⟩) ∧
      ∃ m e', e'.cause = .notCallable ∧ ∀ n ≥ m,
        runSource Float.ofNat n ("\n".intercalate (readerLines ++ [readerCall])) =
          ⟨"one\ntwo\n", .failed e'⟩ := by
  have hall : start.runAll Float.ofNat 100 readerLines ++
      (start.afterAll Float.ofNat 100 readerLines).runAll Float.ofNat 100 [readerCall] =
        [⟨"", .finished⟩, ⟨"one\n", .finished⟩] ++ [⟨"two\n", .failed ⟨.notCallable, 1⟩⟩] := by
    rw [← runAll_append]
    exact runAll_reader
  obtain ⟨hbefore, hlast⟩ := List.append_inj hall (length_runAll ..)
  have hfinished : ∀ r ∈ start.runAll Float.ofNat 100 readerLines, r.ending = .finished := by
    rw [hbefore]
    decide
  have hline : ((start.afterAll Float.ofNat 100 readerLines).run Float.ofNat 100
      readerCall).1.ending = .failed ⟨.notCallable, 1⟩ :=
    congrArg Report.ending (List.cons.inj hlast).1
  have hjoined := (runSource_intercalate Float.ofNat 100).1 readerLines hfinished
  have hfails := (runSource_intercalate Float.ofNat 100).2 readerLines readerCall _ hfinished hline
  rw [hbefore] at hjoined
  rw [runAll_reader] at hfails
  exact ⟨hfinished, hline, hjoined, hfails⟩

end Session

end Lox
