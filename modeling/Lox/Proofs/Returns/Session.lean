import Lox.Proofs.Machine.Evaluation
import Lox.Proofs.Returns.Step
import Lox.Proofs.Session.Lines

set_option autoImplicit false

/-! # Returns stay inside functions

In every run of an accepted program, each statement of the top level ends normally or fails, and the
body of an initializer returns no value (`Session.returns_stay`).
-/

namespace Lox

/-- The method `init` whose body a call of this value runs: the value is that method, bound to an
instance, or a class that has it. -/
def Store.calledInitializer? (st : Store) : Value → Option (Closure EnvId)
  | .functionRef f => st.functions[f]?.filter Closure.isInitializer
  | .classRef cls => st.initializer? cls
  | _ => none

/-! ## What has ended -/

namespace Config

/-- No `return` is on its way out at the top level. -/
theorem Returns.ends_atTop {c : Config} {rest : Program} (h : c.Returns)
    (hback : c.IsBack [.program rest]) :
    (∃ v, c.control = .give v) ∨ ∃ e, c.control = .failing e := by
  obtain @⟨k, control, fs, st, ⟨-, hframes⟩, hcontrol⟩ := h
  obtain ⟨rfl, hresult⟩ := hback
  cases control with
  | give v => exact .inl ⟨v, rfl⟩
  | failing e => exact .inr ⟨e, rfl⟩
  | returning v =>
      cases hframes with
      | plain hf => exact absurd hf.1 hcontrol.1
  | eval | exec | execAll => cases hresult

/-- A `return` that goes to the call of an initializer has no value. -/
theorem Returns.ends_inInitializer {c : Config} {caller : EnvId} {yield : Yield EnvId}
    {fs : List (Frame EnvId)} (h : c.Returns) (hyield : yield.IsInitializer)
    (hback : c.IsBack (.call caller yield :: fs)) :
    (∃ v, c.control = .give v) ∨ c.control = .returning .nil ∨ ∃ e, c.control = .failing e := by
  obtain @⟨k, control, _, st, ⟨-, hframes⟩, hcontrol⟩ := h
  obtain ⟨rfl, hresult⟩ := hback
  cases control with
  | give v => exact .inl ⟨v, rfl⟩
  | failing e => exact .inr (.inr ⟨e, rfl⟩)
  | returning v =>
      cases hframes with
      | plain hf => exact hf.elim
      | call _ _ hinit =>
          obtain rfl := hcontrol.2 (hinit hyield)
          exact .inr (.inl rfl)
  | eval | exec | execAll => cases hresult

end Config

/-- A call of an initializer that enters a body enters its body, and waits for an instance. -/
theorem State.call_initializer {st : State} {s : Setting} {callee : Value}
    {arguments : List Value} {line : Nat} {fs : List (Frame EnvId)} {m : Closure EnvId}
    {body : List Stmt} (hm : st.store.calledInitializer? callee = some m)
    (hbody : (st.call s callee arguments line fs).control = .execAll body) :
    body = m.decl.body ∧ ∃ yield : Yield EnvId, yield.IsInitializer ∧
      (st.call s callee arguments line fs).frames = .call st.env yield :: fs := by
  have hcalls := st.calls_call s callee arguments line fs
  generalize st.call s callee arguments line fs = c at hcalls hbody ⊢
  cases hcalls with
  | @function f c hcallee hc =>
      subst hcallee
      rw [Store.calledInitializer?, hc] at hm
      obtain ⟨hsame, hmarked⟩ := Option.filter_eq_some_iff.1 hm
      cases hsame
      cases hbody
      exact ⟨rfl, .receiver m.env, trivial, by rw [if_pos hmarked]; rfl⟩
  | @initialized cls own hcallee hinit =>
      subst hcallee
      cases hinit.symm.trans hm
      cases hbody
      exact ⟨rfl, .made st.store.instances.size, trivial, rfl⟩
  | _ => cases hbody

/-! ## Sessions -/

/-- At the start there are no functions and no classes. -/
theorem Store.returns_start : State.start.store.Returns where
  functions _ _ hc := nomatch hc
  methods _ _ hc := nomatch hc

theorem Config.Returns.store {c : Config} (h : c.Returns) : c.state.store.Returns := by
  obtain ⟨hst, -⟩ := h
  exact hst.store

namespace Session

variable {session : Session} (clock : Nat → Float) (steps : Nat)

theorem returns_runProgram {source : String} {p : Program} {t : BindingTable}
    (h : session.state.store.Returns) (haccept : session.accept source = .ok (p, t)) :
    (session.runProgram clock steps p t).Returns := by
  have hst : State.Returns .none { session.state with output := "" } [] := ⟨h, .nil⟩
  exact (hst.continueProgram (returns_of_accept haccept)).run ⟨t, clock⟩ steps

theorem returns_run (h : session.state.store.Returns) (source : String) :
    (session.run clock steps source).2.state.store.Returns := by
  rcases session.run_cases clock steps source with ⟨_, -, hrun⟩ | ⟨p, t, haccept, hrun⟩
  · rw [hrun]
    exact h
  · rw [hrun]
    exact (returns_runProgram clock steps h haccept).store

theorem returns_afterAll (h : session.state.store.Returns) (lines : List String) :
    (session.afterAll clock steps lines).state.store.Returns := by
  induction lines generalizing session with
  | nil => exact h
  | cons line lines ih => exact ih (returns_run clock steps h line)

/-- A `return` stays inside its function, and carries no value out of an initializer. In every run
of a program that is accepted, whatever the session has run before: a statement of the top level,
however it ends, has ended normally or fails. The body of a method `init` that a call runs ends
normally, returns nothing but `nil`, or fails. Which functions these are can be told by their mark:
the method that a class has under this name is marked. -/
theorem returns_stay (clock : Nat → Float) (steps : Nat) (lines : List String) {source : String}
    {p : Program} {t : BindingTable}
    (haccept : (start.afterAll clock steps lines).accept source = .ok (p, t)) (more : Nat) :
    let s : Setting := ⟨t, clock⟩
    let c := (start.afterAll clock steps lines).runProgram clock more p t
    (∀ stmt rest st, c = ⟨.exec stmt, [.program rest], st⟩ → ∀ k, c.EndsAt s k →
      (∃ v, (c.run s k).control = .give v) ∨ ∃ e, (c.run s k).control = .failing e) ∧
    (∀ callee arguments line m body, c.pendingCall? = some (callee, arguments, line) →
      c.state.store.calledInitializer? callee = some m → (c.step s).control = .execAll body →
      body = m.decl.body ∧ ∀ k, (c.step s).EndsAt s k →
        (∃ v, ((c.step s).run s k).control = .give v) ∨
          ((c.step s).run s k).control = .returning .nil ∨
          ∃ e, ((c.step s).run s k).control = .failing e) ∧
    ∀ cls m, c.state.store.initializer? cls = some m →
      m.decl.name.text = Function.initializerName ∧ m.isInitializer = true := by
  intro s c
  have hc : c.Returns :=
    returns_runProgram clock more (returns_afterAll clock steps Store.returns_start lines) haccept
  refine ⟨fun stmt rest st heq k hends => ?_,
    fun callee arguments line m body hcall hm hbody => ?_, fun cls m hm => ?_⟩
  · have hback := hends.1
    rw [congrArg Config.frames heq] at hback
    exact (hc.run s k).ends_atTop hback
  · obtain ⟨frames, hstep⟩ := Config.step_of_pendingCall s hcall
    obtain ⟨rfl, yield, hyield, hframes⟩ := State.call_initializer hm (hstep ▸ hbody)
    refine ⟨rfl, fun k hends => ?_⟩
    have hback := hends.1
    rw [hstep, hframes, ← hstep] at hback
    exact ((hc.step s).run s k).ends_inInitializer hyield hback
  · have hmethod := (hc.store.method? hm).toIsMethod
    exact ⟨hmethod.name, hmethod.isInitializer_eq_true⟩

/-- A statement that makes an instance, with an initializer that returns inside a block. -/
theorem returns_stay_inBlock :
    ∃ session p t, session = start.afterAll Float.ofNat 100
        ["class A \x7b init() \x7b \x7b return; \x7d \x7d \x7d"] ∧
      session.accept "if (true) \x7b A(); \x7d" = .ok (p, t) ∧
      (∃ stmt rest st c, c = session.runProgram Float.ofNat 0 p t ∧
        c = ⟨.exec stmt, [.program rest], st⟩ ∧ c.EndsAt ⟨t, Float.ofNat⟩ 20 ∧
        ((∃ v, (c.run ⟨t, Float.ofNat⟩ 20).control = .give v) ∨
          ∃ e, (c.run ⟨t, Float.ofNat⟩ 20).control = .failing e)) ∧
      ∃ callee arguments line m body c, c = session.runProgram Float.ofNat 8 p t ∧
        c.pendingCall? = some (callee, arguments, line) ∧
        c.state.store.calledInitializer? callee = some m ∧
        (c.step ⟨t, Float.ofNat⟩).control = .execAll body ∧ body = m.decl.body ∧
        (c.step ⟨t, Float.ofNat⟩).EndsAt ⟨t, Float.ofNat⟩ 7 ∧
        ((c.step ⟨t, Float.ofNat⟩).run ⟨t, Float.ofNat⟩ 7).control = .returning .nil := by
  let session := start.afterAll Float.ofNat 100
    ["class A \x7b init() \x7b \x7b return; \x7d \x7d \x7d"]
  let callsInit : Config → Bool := fun c =>
    (c.pendingCall?.bind fun call => c.state.store.calledInitializer? call.1).isSome
  obtain ⟨p, t, haccept, hcheck⟩ := session.exists_of_accept "if (true) \x7b A(); \x7d"
    (fun pt =>
      let s : Setting := ⟨pt.2, Float.ofNat⟩
      let c := session.runProgram Float.ofNat 8 pt.1 pt.2
      (!pt.1.isEmpty && decide ((session.runProgram Float.ofNat 0 pt.1 pt.2).EndsAt s 20)) &&
        (callsInit c && decide ((c.step s).state.calls = c.state.calls + 1) &&
          decide ((c.step s).EndsAt s 7) && !((c.step s).run s 7).control.isEvaluation))
    (by decide +kernel)
  simp only [Bool.and_eq_true, decide_eq_true_eq, Bool.not_eq_true'] at hcheck
  obtain ⟨⟨hstatement, hends⟩, ⟨⟨hinit, hentered⟩, hbodyEnds⟩, hreturn⟩ := hcheck
  obtain ⟨hresult, -⟩ := returns_stay Float.ofNat 100 _ haccept 0
  obtain ⟨-, hinitializer, -⟩ := returns_stay Float.ofNat 100 _ haccept 8
  refine ⟨session, p, t, rfl, haccept, ?_, ?_⟩
  · cases p with
    | nil => cases hstatement
    | cons stmt rest =>
        exact ⟨stmt, rest, _, _, rfl, rfl, hends, hresult stmt rest _ rfl 20 hends⟩
  · obtain ⟨m, hm⟩ := Option.isSome_iff_exists.1 hinit
    obtain ⟨⟨callee, arguments, line⟩, hcall, hcallee⟩ := Option.bind_eq_some_iff.1 hm
    obtain ⟨body, hcontrol⟩ := (Config.step_turn _ _).exists_body hentered
    obtain ⟨hsame, hresults⟩ := hinitializer callee arguments line m body hcall hcallee hcontrol
    rcases hresults 7 hbodyEnds with ⟨v, hgive⟩ | hnil | ⟨e, hfail⟩
    · rw [hgive] at hreturn
      cases hreturn
    · exact ⟨callee, arguments, line, m, body, _, rfl, hcall, hcallee, hcontrol, hsame,
        hbodyEnds, hnil⟩
    · rw [hfail] at hreturn
      cases hreturn

end Session

end Lox
