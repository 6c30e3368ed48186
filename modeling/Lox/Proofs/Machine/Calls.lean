import Lox.Proofs.Machine.Call
import Lox.Proofs.Machine.Stack

set_option autoImplicit false

/-! # The current environment and the calls in progress

A step treats the current environment and the number of calls in one of four ways (`Config.Turn`).
It leaves both as they are; it enters a block, or the body of a function, and pushes a frame that
keeps what was there; or it leaves a frame, which puts back what the frame keeps. So what will be
there when everything that waits has been left never changes (`Config.home`), and the number of
calls is that of the frames of calls (`Config.callsInProgress`).
-/

namespace Lox

/-- A frame that keeps no environment. -/
def Frame.isPlain {ε : Type} : Frame ε → Bool
  | .scope _ | .call _ _ => false
  | _ => true

/-- The frame of a call whose callee is running. -/
def Frame.isCall {ε : Type} : Frame ε → Bool
  | .call _ _ => true
  | _ => false

/-- The current environment and the number of calls. -/
def State.place (st : State) : EnvId × Nat := (st.env, st.calls)

/-- The current environment and the number of calls after a frame is left. -/
def Frame.leavePlace (f : Frame EnvId) (place : EnvId × Nat) : EnvId × Nat :=
  match f with
  | .scope outer => (outer, place.2)
  | .call caller _ => (caller, place.2 - 1)
  | _ => place

theorem State.place_leave (st : State) (f : Frame EnvId) :
    (f.leave st).place = f.leavePlace st.place := by
  cases f <;> rfl

theorem Frame.leavePlace_of_isPlain {f : Frame EnvId} (h : f.isPlain = true)
    (place : EnvId × Nat) : f.leavePlace place = place := by
  cases f with
  | scope | call => cases h
  | _ => rfl

/-- Leaving a frame adds no call. -/
theorem Frame.leavePlace_calls_le (f : Frame EnvId) (place : EnvId × Nat) :
    (f.leavePlace place).2 ≤ place.2 := by
  cases f with
  | call caller yield => exact Nat.sub_le _ _
  | _ => exact Nat.le_refl _

theorem Frame.isCall_of_isPlain {ε : Type} {f : Frame ε} (h : f.isPlain = true) :
    f.isCall = false := by
  cases f with
  | call => cases h
  | _ => rfl

namespace Config

/-- The current environment and the number of calls when everything that waits has been left. -/
def home (c : Config) : EnvId × Nat :=
  c.frames.foldl (fun place f => f.leavePlace place) c.state.place

/-- How many calls there are whose callee is running. A class and its initializer are one. -/
def callsInProgress (c : Config) : Nat := c.frames.countP Frame.isCall

/-- The call that is made next: its callee, its arguments and its line. -/
def pendingCall? (c : Config) : Option (Value × List Value × Nat) :=
  match c with
  | ⟨.give v, .callee [] line :: _, _⟩ => some (v, [], line)
  | ⟨.give v, .argument callee before [] line :: _, _⟩ =>
    some (callee, (v :: before).reverse, line)
  | _ => none

/-- A call expression has its callee and its arguments, and the step starts the callee. -/
def StartsCallee (s : Setting) (c : Config) : Prop :=
  c.pendingCall?.isSome = true ∧ ∃ body, (c.step s).control = .execAll body

/-- What a step does to the frames, the current environment and the number of calls. -/
inductive Turn (c c' : Config) : Prop
  /-- Frames that keep no environment come and go. -/
  | plain (gone come rest : List (Frame EnvId)) (hgone : ∀ f ∈ gone, f.isPlain = true)
      (hcome : ∀ f ∈ come, f.isPlain = true) (hbefore : c.frames = gone ++ rest)
      (hafter : c'.frames = come ++ rest) (hplace : c'.state.place = c.state.place)
  /-- A block is entered. -/
  | block (hafter : c'.frames = .scope c.state.env :: c.frames)
      (hcalls : c'.state.calls = c.state.calls)
  /-- A call takes its last argument, finds room, and its callee starts. -/
  | body (f : Frame EnvId) (rest : List (Frame EnvId)) (yield : Yield EnvId)
      (hf : f.isPlain = true) (hbefore : c.frames = f :: rest)
      (hafter : c'.frames = .call c.state.env yield :: rest)
      (hpending : c.pendingCall?.isSome = true) (hbody : ∃ body, c'.control = .execAll body)
      (hroom : c.state.calls < maxCalls) (hcalls : c'.state.calls = c.state.calls + 1)
  /-- The top frame is left. -/
  | leave (f : Frame EnvId) (rest : List (Frame EnvId)) (hbefore : c.frames = f :: rest)
      (hafter : c'.frames = rest) (hresult : c'.control.isResult = true)
      (hplace : c'.state.place = f.leavePlace c.state.place)

/-! ## The ways of a step -/

namespace Turn

variable {s : Setting} {control control' : Control} {frames rest : List (Frame EnvId)}
  {st st' : State} {f : Frame EnvId}

/-- Nothing comes or goes. -/
theorem same (hplace : st'.place = st.place) :
    Turn ⟨control, frames, st⟩ ⟨control', frames, st'⟩ :=
  .plain [] [] frames (fun _ h => nomatch h) (fun _ h => nomatch h) rfl rfl hplace

/-- A frame comes. -/
theorem push (hf : f.isPlain = true) (hplace : st'.place = st.place) :
    Turn ⟨control, frames, st⟩ ⟨control', f :: frames, st'⟩ :=
  .plain [] [f] frames (fun _ h => nomatch h) (List.forall_mem_singleton.2 hf) rfl rfl hplace

/-- The top frame goes. -/
theorem pop (hf : f.isPlain = true) (hplace : st'.place = st.place) :
    Turn ⟨control, f :: rest, st⟩ ⟨control', rest, st'⟩ :=
  .plain [f] [] rest (List.forall_mem_singleton.2 hf) (fun _ h => nomatch h) rfl rfl hplace

/-- The top frame makes room for another one. -/
theorem swap {g : Frame EnvId} (hf : f.isPlain = true) (hg : g.isPlain = true)
    (hplace : st'.place = st.place) :
    Turn ⟨control, f :: rest, st⟩ ⟨control', g :: rest, st'⟩ :=
  .plain [f] [g] rest (List.forall_mem_singleton.2 hf) (List.forall_mem_singleton.2 hg) rfl rfl
    hplace

theorem giveOrFail (hf : f.isPlain = true) (line : Nat)
    (result : Except RuntimeError.Cause Value) :
    Turn ⟨control, f :: rest, st⟩ (st.giveOrFail line rest result) := by
  cases result <;> exact pop hf rfl

/-- The body of a function starts. -/
theorem enter (hf : f.isPlain = true)
    (hpending : (Config.mk control (f :: rest) st).pendingCall?.isSome = true)
    (hroom : st.calls < maxCalls) (hplace : st'.place = st.place) (c : Closure EnvId)
    (arguments : List Value) (yield : Yield EnvId) :
    Turn ⟨control, f :: rest, st⟩ (st'.enter c arguments yield rest) := by
  have henv : st'.env = st.env := congrArg Prod.fst hplace
  have hcalls : st'.calls = st.calls := congrArg Prod.snd hplace
  refine .body f rest yield hf rfl ?_ hpending ⟨_, rfl⟩ hroom ?_
  · rw [← henv]
    rfl
  · rw [← hcalls]
    rfl

theorem call (hf : f.isPlain = true)
    (hpending : (Config.mk control (f :: rest) st).pendingCall?.isSome = true) (callee : Value)
    (arguments : List Value) (line : Nat) :
    Turn ⟨control, f :: rest, st⟩ (st.call s callee arguments line rest) := by
  have hcalls := st.calls_call s callee arguments line rest
  generalize st.call s callee arguments line rest = c at hcalls ⊢
  cases hcalls with
  | function hcallee hc hlength hroom => exact enter hf hpending hroom rfl ..
  | initialized hcallee hinit hlength hroom =>
      refine enter hf hpending hroom ?_ ..
      rfl
  | _ => exact pop hf rfl

theorem evalArguments (hf : f.isPlain = true) {after : List Expr}
    (hpending : after = [] → (Config.mk control (f :: rest) st).pendingCall?.isSome = true)
    (callee : Value) (before : List Value) (line : Nat) :
    Turn ⟨control, f :: rest, st⟩ (st.evalArguments s callee before after line rest) := by
  cases after with
  | nil => exact call hf (hpending rfl) callee before.reverse line
  | cons e es => exact swap hf rfl rfl

theorem continueProgram (hf : f.isPlain = true) (p : Program) :
    Turn ⟨control, f :: rest, st⟩ (st.continueProgram rest p) := by
  cases p with
  | nil => exact pop hf rfl
  | cons stmt p => exact swap hf rfl rfl

theorem eval (e : Expr) : Turn ⟨.eval e, frames, st⟩ (st.eval s frames e) := by
  cases e with
  | literal | grouping => exact same rfl
  | «variable» name | this name =>
      rw [State.eval]
      split <;> exact same rfl
  | super keyword method =>
      rw [State.eval]
      split <;> exact same rfl
  | _ => exact push rfl rfl

theorem exec (stmt : Stmt) : Turn ⟨.exec stmt, frames, st⟩ (st.exec frames stmt) := by
  cases stmt with
  | expression e => exact same rfl
  | function f => exact same rfl
  | block body => exact .block rfl rfl
  | var name initial =>
      cases initial with
      | none => exact same rfl
      | some e => exact push rfl rfl
  | ret keyword value =>
      cases value with
      | none => exact same rfl
      | some e => exact push rfl rfl
  | classDecl name superclass methods =>
      cases superclass with
      | none => exact same rfl
      | some above => exact push rfl rfl
  | print | branch | loop => exact push rfl rfl

theorem execAll (body : List Stmt) :
    Turn ⟨.execAll body, frames, st⟩ (st.execAll frames body) := by
  cases body with
  | nil => exact same rfl
  | cons stmt body => exact push rfl rfl

theorem resume (v : Value) (f : Frame EnvId) :
    Turn ⟨.give v, f :: rest, st⟩ (st.resume s rest v f) := by
  cases f with
  | unary op line => exact giveOrFail rfl line _
  | binaryRight op line left => exact giveOrFail rfl line _
  | callee arguments line =>
      refine evalArguments rfl (fun h => ?_) ..
      subst h
      rfl
  | argument callee before after line =>
      refine evalArguments rfl (fun h => ?_) ..
      subst h
      rfl
  | program p => exact continueProgram rfl p
  | get property =>
      simp only [State.resume]
      cases v with
      | instanceRef i =>
          rw [State.giveProperty]
          split
          · rename_i p hp
            cases p <;> exact pop rfl rfl
          · exact pop rfl rfl
      | _ => exact pop rfl rfl
  | assign | logical =>
      rw [State.resume]
      split <;> exact pop rfl rfl
  | loopTest condition body =>
      rw [State.resume]
      split
      · exact swap rfl rfl rfl
      · exact pop rfl rfl
  | setObject property value =>
      cases v with
      | instanceRef i => exact swap rfl rfl rfl
      | _ => exact pop rfl rfl
  | superclass name superclass methods => cases v <;> exact pop rfl rfl
  | branch yes no =>
      simp only [State.resume]
      cases v.isTruthy with
      | true => exact pop rfl rfl
      | false => cases no <;> exact pop rfl rfl
  | binaryLeft | loopBody => exact swap rfl rfl rfl
  | scope outer => exact .leave _ _ rfl rfl rfl rfl
  | call caller yield => exact .leave _ _ rfl rfl rfl rfl
  | _ => exact pop rfl rfl

theorem unwindReturn (v : Value) (f : Frame EnvId) :
    Turn ⟨.returning v, f :: rest, st⟩ (st.unwindReturn rest v f) := by
  cases f with
  | program p => exact continueProgram rfl p
  | call caller yield => exact .leave _ _ rfl rfl rfl rfl
  | _ => exact .leave _ _ rfl rfl rfl (st.place_leave _)

end Turn

/-- Every step is of one of the four ways. -/
theorem step_turn (s : Setting) (c : Config) : Turn c (c.step s) := by
  obtain ⟨control, frames, st⟩ := c
  cases control with
  | eval e => exact .eval e
  | exec stmt => exact .exec stmt
  | execAll body => exact .execAll body
  | give v =>
      cases frames with
      | nil => exact .same rfl
      | cons f frames => exact .resume v f
  | returning v =>
      cases frames with
      | nil => exact .same rfl
      | cons f frames => exact .unwindReturn v f
  | failing e =>
      cases frames with
      | nil => exact .same rfl
      | cons f frames => exact .leave f frames rfl rfl rfl (st.place_leave f)

/-! ## Home -/

theorem foldl_leavePlace_of_isPlain {frames : List (Frame EnvId)}
    (h : ∀ f ∈ frames, f.isPlain = true) (place : EnvId × Nat) :
    frames.foldl (fun place f => f.leavePlace place) place = place := by
  induction frames with
  | nil => rfl
  | cons f frames ih =>
      obtain ⟨hf, hframes⟩ := List.forall_mem_cons.1 h
      rw [List.foldl_cons, Frame.leavePlace_of_isPlain hf, ih hframes]

theorem Turn.home_eq {c c' : Config} (h : Turn c c') : c'.home = c.home := by
  cases h with
  | plain gone come rest hgone hcome hbefore hafter hplace =>
      rw [home, home, hbefore, hafter, List.foldl_append, List.foldl_append, hplace,
        foldl_leavePlace_of_isPlain hgone, foldl_leavePlace_of_isPlain hcome]
  | block hafter hcalls =>
      rw [home, home, hafter, List.foldl_cons]
      show List.foldl _ (c.state.env, c'.state.calls) _ = _
      rw [hcalls]
      rfl
  | body f rest yield hf hbefore hafter _ _ hroom hcalls =>
      rw [home, home, hafter, hbefore, List.foldl_cons, List.foldl_cons,
        Frame.leavePlace_of_isPlain hf]
      show List.foldl _ (c.state.env, c'.state.calls - 1) _ = _
      rw [hcalls, Nat.add_sub_cancel]
      rfl
  | leave f rest hbefore hafter _ hplace =>
      rw [home, home, hbefore, hafter, List.foldl_cons, hplace]

/-- What will be there in the end is the same at every moment of a run. -/
theorem home_run (s : Setting) (c : Config) (steps : Nat) : (c.run s steps).home = c.home := by
  induction steps with
  | zero => rfl
  | succ steps ih =>
      rw [run_succ_eq_step, (step_turn s (c.run s steps)).home_eq, ih]

theorem home_of_isBack {c : Config} (h : c.IsBack []) : c.home = c.state.place := by
  rw [home, h.1]
  rfl

/-- What has ended, however it ended, leaves the current environment and the number of calls as
they were. -/
theorem EndsAt.place_eq {s : Setting} {c : Config} {steps : Nat} (h : c.EndsAt s steps) :
    (c.run s steps).state.place = c.state.place := by
  obtain ⟨control, below, st⟩ := c
  have hunder : (⟨control, [], st⟩ : Config).under below = ⟨control, below, st⟩ := rfl
  rw [← hunder] at h ⊢
  obtain ⟨hfinished, hgoes⟩ := (endsAt_under_iff rfl).1 h
  have hhome := home_run s ⟨control, [], st⟩ steps
  rw [home_of_isBack (isFinished_iff.1 hfinished)] at hhome
  rw [run_under hgoes below]
  exact hhome

/-! ## Calls in progress -/

/-- The calls counted are those in progress and `before` others. -/
def Counts (before : Nat) (c : Config) : Prop := c.state.calls = before + c.callsInProgress

theorem callsInProgress_append {c : Config} {gone rest : List (Frame EnvId)}
    (h : c.frames = gone ++ rest) (hgone : ∀ f ∈ gone, f.isPlain = true) :
    c.callsInProgress = rest.countP Frame.isCall := by
  have hnone : gone.countP Frame.isCall = 0 := by
    rw [List.countP_eq_zero]
    intro f hf
    rw [Frame.isCall_of_isPlain (hgone f hf)]
    exact Bool.false_ne_true
  rw [callsInProgress, h, List.countP_append, hnone, Nat.zero_add]

theorem Turn.counts {c c' : Config} {before : Nat} (h : Turn c c') (hc : c.Counts before) :
    c'.Counts before := by
  rw [Counts] at hc ⊢
  cases h with
  | plain gone come rest hgone hcome hbefore hafter hplace =>
      have hcalls : c'.state.calls = c.state.calls := congrArg Prod.snd hplace
      rw [hcalls, hc, callsInProgress_append hbefore hgone, callsInProgress_append hafter hcome]
  | block hafter hcalls =>
      have hsame : c'.callsInProgress = c.callsInProgress := by
        rw [callsInProgress, hafter]
        exact List.countP_cons_of_neg Bool.false_ne_true
      rw [hcalls, hc, hsame]
  | body f rest yield hf hbefore hafter _ _ hroom hcalls =>
      have hrest : c.callsInProgress = rest.countP Frame.isCall := by
        rw [callsInProgress, hbefore]
        refine List.countP_cons_of_neg ?_
        rw [Frame.isCall_of_isPlain hf]
        exact Bool.false_ne_true
      have hone : c'.callsInProgress = c.callsInProgress + 1 := by
        rw [hrest, callsInProgress, hafter]
        exact List.countP_cons_of_pos rfl
      rw [hcalls, hc, hone, Nat.add_assoc]
  | leave f rest hbefore hafter _ hplace =>
      have hcalls : c'.state.calls = (f.leavePlace c.state.place).2 := congrArg Prod.snd hplace
      rw [callsInProgress, hbefore] at hc
      rw [hcalls, callsInProgress, hafter]
      cases hf : f.isCall with
      | true =>
          -- The call that is left was one of those counted, so there is one to be subtracted.
          rw [List.countP_cons_of_pos hf] at hc
          cases f with
          | call caller yield =>
              show c.state.calls - 1 = _
              omega
          | _ => cases hf
      | false =>
          rw [List.countP_cons_of_neg (by rw [hf]; exact Bool.false_ne_true)] at hc
          cases f with
          | call => cases hf
          | _ => exact hc

/-- A step never takes the number of calls beyond the most that may be in progress. -/
theorem Turn.calls_le {c c' : Config} (h : Turn c c') (hc : c.state.calls ≤ maxCalls) :
    c'.state.calls ≤ maxCalls := by
  cases h with
  | plain gone come rest hgone hcome hbefore hafter hplace =>
      have hcalls : c'.state.calls = c.state.calls := congrArg Prod.snd hplace
      omega
  | block hafter hcalls => omega
  | body f rest yield hf hbefore hafter _ _ hroom hcalls => omega
  | leave f rest hbefore hafter _ hplace =>
      have hcalls : c'.state.calls = (f.leavePlace c.state.place).2 := congrArg Prod.snd hplace
      have hle : (f.leavePlace c.state.place).2 ≤ c.state.calls := f.leavePlace_calls_le _
      omega

/-- Only a callee that starts is one more call. -/
theorem Turn.exists_body {c c' : Config} (h : Turn c c')
    (hcalls : c'.state.calls = c.state.calls + 1) : ∃ body, c'.control = .execAll body := by
  cases h with
  | plain gone come rest hgone hcome hbefore hafter hplace =>
      have hsame : c'.state.calls = c.state.calls := congrArg Prod.snd hplace
      omega
  | block hafter hsame => omega
  | body f rest yield hf hbefore hafter hpending hbody hroom hmore => exact hbody
  | leave f rest hbefore hafter hresult hplace =>
      have hleft : c'.state.calls = (f.leavePlace c.state.place).2 := congrArg Prod.snd hplace
      have hle : (f.leavePlace c.state.place).2 ≤ c.state.calls := f.leavePlace_calls_le _
      omega

/-- A run that starts with nothing waiting and no call in progress counts its calls. -/
theorem counts_run {c : Config} (s : Setting) (hc : c.Counts 0) (hle : c.state.calls ≤ maxCalls)
    (steps : Nat) :
    (c.run s steps).Counts 0 ∧ (c.run s steps).state.calls ≤ maxCalls := by
  induction steps with
  | zero => exact ⟨hc, hle⟩
  | succ steps ih =>
      rw [run_succ_eq_step]
      have hturn := step_turn s (c.run s steps)
      exact ⟨hturn.counts ih.1, hturn.calls_le ih.2⟩

/-! ## Calls that are refused -/

/-- The step that makes the pending call takes its frame away. -/
theorem call_of_pendingCall {c : Config} {callee : Value} {arguments : List Value} {line : Nat}
    (s : Setting) (h : c.pendingCall? = some (callee, arguments, line)) :
    (∃ f, c.frames = f :: c.frames.tail) ∧
      c.step s = c.state.call s callee arguments line c.frames.tail := by
  obtain ⟨control, frames, st⟩ := c
  unfold pendingCall? at h
  split at h
  · rename_i heq
    cases heq
    cases h
    exact ⟨⟨_, rfl⟩, rfl⟩
  · rename_i heq
    cases heq
    cases h
    exact ⟨⟨_, rfl⟩, rfl⟩
  · cases h

/-- The step that makes the pending call. -/
theorem step_of_pendingCall {c : Config} {callee : Value} {arguments : List Value} {line : Nat}
    (s : Setting) (h : c.pendingCall? = some (callee, arguments, line)) :
    ∃ rest, c.step s = c.state.call s callee arguments line rest :=
  ⟨c.frames.tail, (call_of_pendingCall s h).2⟩

/-- A callee that can be called with these arguments does not refuse the call itself. -/
theorem invoke_ne_stackOverflow {st : State} {s : Setting} {callee : Value}
    {arguments : List Value} {line arity : Nat} {rest : List (Frame EnvId)}
    (h : st.store.arity? callee = some arity) :
    (st.invoke s callee arguments line rest).control ≠ .failing ⟨.stackOverflow, line⟩ := by
  cases callee with
  | nativeRef n =>
      rw [State.invoke]
      split <;> rintro ⟨⟩
  | functionRef f =>
      rw [State.invoke]
      split <;> rintro ⟨⟩
  | classRef cls =>
      rw [State.invoke, State.instantiate]
      cases st.store.initializer? cls <;> rintro ⟨⟩
  | _ => cases h

/-- A call with the right number of arguments is refused exactly if there is no room. -/
theorem step_eq_stackOverflow_iff {c : Config} {callee : Value} {arguments : List Value}
    {line : Nat} (s : Setting) (h : c.pendingCall? = some (callee, arguments, line))
    (harity : c.state.store.arity? callee = some arguments.length) :
    (c.step s).control = .failing ⟨.stackOverflow, line⟩ ↔ maxCalls ≤ c.state.calls := by
  obtain ⟨rest, hstep⟩ := step_of_pendingCall s h
  rw [hstep, State.call, harity]
  simp only [ne_eq, not_true_eq_false, if_false]
  by_cases hroom : maxCalls ≤ c.state.calls
  · rw [if_pos hroom]
    exact ⟨fun _ => hroom, fun _ => rfl⟩
  · rw [if_neg hroom]
    exact ⟨fun heq => absurd heq (invoke_ne_stackOverflow harity), fun hle => absurd hle hroom⟩

end Config

end Lox
