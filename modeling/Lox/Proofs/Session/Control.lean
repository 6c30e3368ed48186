import Lox.Proofs.Binding.Bound
import Lox.Proofs.Machine.Progress
import Lox.Proofs.Session.Lines

set_option autoImplicit false

/-! # Control is restored

However something ends, the current environment and the number of calls are afterwards what they
were before. So each statement of a program, and each line of a session, starts at the top level
(`State.AtTop`), whatever the ones before it did.
-/

namespace Lox

/-- The current environment is the global one, and no call is in progress. -/
def State.AtTop (st : State) : Prop := st.env = globalEnv ∧ st.calls = 0

theorem State.atTop_iff {st : State} : st.AtTop ↔ st.place = (globalEnv, 0) := by
  rw [AtTop, place, Prod.mk.injEq]

namespace Config

variable {st : State}

/-- A program, or an expression by itself, starts with nothing waiting that keeps an
environment. -/
theorem home_ofProgram (p : Program) (st : State) : (ofProgram p st).home = st.place := by
  cases p <;> rfl

theorem callsInProgress_ofProgram (p : Program) (st : State) :
    (ofProgram p st).callsInProgress = 0 := by
  cases p <;> rfl

/-- Between two statements of a program, the top level is back. -/
theorem place_of_isBack_program {c : Config} {rest : Program}
    (h : c.IsBack [.program rest]) : c.state.place = c.home := by
  rw [home, h.1]
  rfl

/-- A run of a program that has ended is back at the top level. -/
theorem atTop_of_isFinished {s : Setting} {p : Program} {steps : Nat} (hst : st.AtTop)
    (h : ((ofProgram p st).run s steps).isFinished = true) :
    ((ofProgram p st).run s steps).state.AtTop := by
  have hhome := home_run s (ofProgram p st) steps
  rw [home_of_isBack (isFinished_iff.1 h), home_ofProgram] at hhome
  rw [State.atTop_iff] at hst ⊢
  rw [hhome, hst]

end Config

namespace Session

/-- A line that ends, in whatever way, leaves the session at the top level. -/
theorem atTop_run {session : Session} {clock : Nat → Float} {steps : Nat} {source : String}
    (h : session.state.AtTop) (hends : (session.run clock steps source).1.ending ≠ .running) :
    (session.run clock steps source).2.state.AtTop := by
  rcases session.run_cases clock steps source with ⟨errors, -, hrun⟩ | ⟨p, t, -, hrun⟩
  · rw [hrun]
    exact h
  · rw [hrun] at hends ⊢
    have htop : ({ session.state with output := "" } : State).AtTop := h
    exact Config.atTop_of_isFinished htop (Config.isFinished_of_ending hends)

theorem atTop_afterAll {session : Session} {clock : Nat → Float} {steps : Nat}
    {lines : List String} (h : session.state.AtTop)
    (hends : ∀ r ∈ session.runAll clock steps lines, r.ending ≠ .running) :
    (session.afterAll clock steps lines).state.AtTop := by
  induction lines generalizing session with
  | nil => exact h
  | cons line lines ih =>
      rw [runAll_cons] at hends
      obtain ⟨hline, hlines⟩ := List.forall_mem_cons.1 hends
      exact ih (atTop_run h hline) hlines

end Session

/-- Control is restored. Whatever is started in any state, everything that waits goes on waiting
until it has ended, and then the current environment and the number of calls are what they were.
So the top level is back after each line of a session that ends, and after each statement of a
program. At every moment of a run that starts there, the number of calls is that of the call
expressions that are being executed, and a call with the right number of arguments is refused
exactly if there are as many of these as there may be. -/
theorem Session.control_restored (clock : Nat → Float) (steps : Nat) :
    (∀ (s : Setting) (st : State) (frames : List (Frame EnvId)) (start : Control),
      ((∃ n ≤ steps, Config.EndsAt s ⟨start, frames, st⟩ n) ∨
        ∃ above, (Config.run s steps ⟨start, frames, st⟩).frames = above ++ frames) ∧
      (Config.EndsAt s ⟨start, frames, st⟩ steps →
        (Config.run s steps ⟨start, frames, st⟩).state.env = st.env ∧
          (Config.run s steps ⟨start, frames, st⟩).state.calls = st.calls)) ∧
    (∀ lines, (∀ r ∈ Session.start.runAll clock steps lines, r.ending ≠ .running) →
      (Session.start.afterAll clock steps lines).state.AtTop) ∧
    ∀ (s : Setting) (st : State) (c : Config), st.AtTop →
      ((∃ p, c = .ofProgram p st) ∨ ∃ e, c = .ofExpr e st) →
        (∀ rest, (c.run s steps).IsBack [.program rest] → (c.run s steps).state.AtTop) ∧
        (c.run s steps).state.calls = (c.openCalls s steps).ncard ∧
        (c.openCalls s steps).ncard ≤ maxCalls ∧
        ∀ callee arguments line, (c.run s steps).pendingCall? = some (callee, arguments, line) →
          (c.run s steps).state.store.arity? callee = some arguments.length →
            (((c.run s steps).step s).control = .failing ⟨.stackOverflow, line⟩ ↔
              (c.openCalls s steps).ncard = maxCalls) := by
  refine ⟨fun s st frames start => ⟨Config.endsAt_or_waits s _ steps, fun hends => ?_⟩,
    fun lines hends => Session.atTop_afterAll ⟨rfl, rfl⟩ hends, fun s st c hst hc => ?_⟩
  · have hplace := hends.place_eq
    rw [State.place, State.place, Prod.mk.injEq] at hplace
    exact hplace
  · have hstart : c.home = st.place ∧ c.callsInProgress = 0 ∧ c.state = st := by
      rcases hc with ⟨p, rfl⟩ | ⟨e, rfl⟩
      · exact ⟨Config.home_ofProgram p st, Config.callsInProgress_ofProgram p st,
          Config.state_ofProgram p st⟩
      · exact ⟨rfl, rfl, rfl⟩
    obtain ⟨hhome, hnone, hstate⟩ := hstart
    have hcounts : c.Counts 0 := by
      rw [Config.Counts, hstate, hnone]
      exact hst.2
    have hle : c.state.calls ≤ maxCalls := by
      rw [hstate, hst.2]
      exact Nat.zero_le _
    obtain ⟨hcounts, hle⟩ := Config.counts_run s hcounts hle steps
    rw [Config.Counts, Nat.zero_add, Config.callsInProgress_eq_ncard hnone] at hcounts
    refine ⟨fun rest hback => ?_, hcounts, hcounts ▸ hle,
      fun callee arguments line hcall harity => ?_⟩
    · rw [State.atTop_iff] at hst ⊢
      rw [Config.place_of_isBack_program hback, Config.home_run, hhome, hst]
    · rw [Config.step_eq_stackOverflow_iff s hcall harity, ← hcounts]
      exact ⟨fun h => Nat.le_antisymm hle h, Nat.le_of_eq ∘ Eq.symm⟩

/-- A block that fails in a call. -/
def Config.failingBlock : Config :=
  ⟨.exec (.block [.expression (.call (.literal .nil) [] 1)]), [.program []], .start⟩

theorem Config.endsAt_failingBlock : failingBlock.EndsAt ⟨∅, Float.ofNat⟩ 8 := by
  refine ⟨⟨rfl, rfl⟩, fun n hn hback => ?_⟩
  -- After the first step, and until the eighth, more than the program waits.
  have hshape := And.intro (congrArg List.length hback.1) hback.2
  clear hback
  revert n
  decide

/-- Two lines, the first of which fails in a nested call. -/
def Session.failingLines : List String :=
  ["fun f(x) \x7b \x7b if (x) f(nil); nil(); \x7d \x7d f(true);", "print nil;"]

theorem Session.runAll_failingLines :
    start.runAll Float.ofNat 100 failingLines =
      [⟨"", .failed ⟨.notCallable, 1⟩⟩, ⟨"nil\n", .finished⟩] := by
  decide +kernel

/-- A function that calls itself. -/
def Session.recursiveSource : String := "fun f() \x7b f(); \x7d f();"

/-- A block that fails in a call is left with the top level back; so is a line of a session that
fails in a nested call, and the next line runs; and the call that follows in a program is not
refused. -/
theorem Session.control_restored_failing :
    (Config.failingBlock.EndsAt ⟨∅, Float.ofNat⟩ 8 ∧
      (Config.failingBlock.run ⟨∅, Float.ofNat⟩ 8).state.env = State.start.env) ∧
    (start.runAll Float.ofNat 100 failingLines =
        [⟨"", .failed ⟨.notCallable, 1⟩⟩, ⟨"nil\n", .finished⟩] ∧
      (start.afterAll Float.ofNat 100 failingLines).state.AtTop) ∧
    ∃ p t callee arguments line,
      start.accept recursiveSource = .ok (p, t) ∧ State.start.AtTop ∧
      ((Config.ofProgram p .start).run ⟨t, Float.ofNat⟩ 10).pendingCall? =
        some (callee, arguments, line) ∧
      ((Config.ofProgram p .start).run ⟨t, Float.ofNat⟩ 10).state.store.arity? callee =
        some arguments.length ∧
      ((Config.ofProgram p .start).openCalls ⟨t, Float.ofNat⟩ 10).ncard = 1 ∧
      (((Config.ofProgram p .start).run ⟨t, Float.ofNat⟩ 10).step ⟨t, Float.ofNat⟩).control ≠
        .failing ⟨.stackOverflow, line⟩ := by
  refine ⟨⟨Config.endsAt_failingBlock, ?_⟩, ⟨runAll_failingLines, ?_⟩, ?_⟩
  · exact (((Session.control_restored Float.ofNat 8).1 _ _ _ _).2 Config.endsAt_failingBlock).1
  · refine (Session.control_restored Float.ofNat 100).2.1 failingLines ?_
    rw [runAll_failingLines]
    decide
  · obtain ⟨p, t, haccept, hcheck⟩ := exists_of_accept .start recursiveSource
      (fun accepted =>
        let c := (Config.ofProgram accepted.1 .start).run ⟨accepted.2, Float.ofNat⟩ 10
        c.state.calls == 1 && c.pendingCall?.any fun call =>
          c.state.store.arity? call.1 == some call.2.1.length)
      (by decide +kernel)
    obtain ⟨hcalls, hcheck⟩ := (Bool.and_eq_true _ _).mp hcheck
    obtain ⟨⟨callee, arguments, line⟩, hcall, harity⟩ := (Option.any_eq_true _ _).1 hcheck
    have htop : State.start.AtTop := ⟨rfl, rfl⟩
    have hrun := (Session.control_restored Float.ofNat 10).2.2 ⟨t, Float.ofNat⟩ .start _ htop
      (.inl ⟨p, rfl⟩)
    have hone : ((Config.ofProgram p .start).openCalls ⟨t, Float.ofNat⟩ 10).ncard = 1 :=
      hrun.2.1.symm.trans (eq_of_beq hcalls)
    refine ⟨p, t, callee, arguments, line, haccept, htop, hcall, eq_of_beq harity, hone, ?_⟩
    intro hrefused
    have hmost := (hrun.2.2.2 callee arguments line hcall (eq_of_beq harity)).1 hrefused
    rw [hone] at hmost
    exact absurd hmost (by decide)

end Lox
