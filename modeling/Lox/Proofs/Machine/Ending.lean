import Lox.Proofs.Machine.Call
import Lox.Proofs.Machine.Evaluation

set_option autoImplicit false

/-! # How calls and expressions end

What waits on top of other frames ends in two parts: first what is above its top frame, and then,
after one more step, this frame and what is left above the others (`Config.backAt_above_iff`). So a
call ends one step after the body of its function, whichever way the body ends
(`Config.backAt_call_iff`). An expression has no statements of its own: those that run while it is
evaluated stand in the bodies of functions, and a `return` goes no further than the call. So an
expression ends with a value or with an error (`Config.EndsAt.expression`).
-/

namespace Lox

namespace Config

variable {s : Setting} {c : Config} {below : List (Frame EnvId)}

/-! ## Parts of what waits -/

theorem not_isBack_of_append (above : List (Frame EnvId)) (h : c.frames = above ++ below)
    (habove : above ≠ []) : ¬ c.IsBack below := by
  rintro ⟨hback, -⟩
  rw [h, List.append_left_eq_self] at hback
  exact habove hback

theorem backAt_of_isBack (h : c.IsBack below) {steps : Nat} :
    c.BackAt s below steps ↔ steps = 0 := by
  constructor
  · rintro ⟨-, hbefore⟩
    rcases Nat.eq_zero_or_pos steps with hzero | hpos
    · exact hzero
    · exact absurd h (hbefore 0 hpos)
  · rintro rfl
    exact ⟨h, fun n hn => absurd hn (Nat.not_lt_zero n)⟩

theorem backAt_step_iff (h : ¬ c.IsBack below) {steps : Nat} :
    c.BackAt s below steps ↔ ∃ more, steps = more + 1 ∧ (c.step s).BackAt s below more := by
  constructor
  · rintro ⟨hback, hbefore⟩
    cases steps with
    | zero => exact absurd hback h
    | succ more =>
        rw [run_succ] at hback
        refine ⟨more, rfl, hback, fun n hn => ?_⟩
        rw [← run_succ]
        exact hbefore (n + 1) (Nat.succ_lt_succ hn)
  · rintro ⟨more, rfl, hback, hbefore⟩
    refine ⟨by rwa [run_succ], fun n hn => ?_⟩
    cases n with
    | zero => exact h
    | succ n =>
        rw [run_succ]
        exact hbefore n (Nat.lt_of_succ_lt_succ hn)

/-- Until something has ended, everything that waited still waits. -/
theorem EndsAt.exists_above {steps : Nat} (h : c.EndsAt s steps) {n : Nat} (hn : n ≤ steps) :
    ∃ above, (c.run s n).frames = above ++ c.frames := by
  rcases endsAt_or_waits s c n with ⟨m, hm, hends⟩ | hwaits
  · -- Something ends only once, so it has not ended before.
    rcases Nat.lt_or_eq_of_le (Nat.le_trans hm hn) with hlt | rfl
    · exact absurd hends.1 (h.2 m hlt)
    · obtain rfl := Nat.le_antisymm hm hn
      exact ⟨[], h.1.1⟩
  · exact hwaits

/-- What waits ends with its top frame, and then with what is left. -/
theorem backAt_above_iff {f : Frame EnvId} (above : List (Frame EnvId))
    (hframes : c.frames = f :: (above ++ below)) {steps : Nat} :
    c.BackAt s below steps ↔
      ∃ n more, steps = n + 1 + more ∧ c.EndsAt s n ∧
        ((c.run s n).step s).BackAt s below more := by
  -- As long as the top frame is there, more is there than what is below.
  have hwaits : ∀ n, (∃ come, (c.run s n).frames = come ++ c.frames) →
      ¬ (c.run s n).IsBack below := by
    rintro n ⟨come, hcome⟩
    refine not_isBack_of_append (come ++ f :: above) ?_ (by simp)
    rw [hcome, hframes, List.append_assoc, List.cons_append]
  constructor
  · rintro ⟨hback, hbefore⟩
    rcases endsAt_or_waits s c steps with ⟨n, hn, hends⟩ | habove
    · rcases Nat.lt_or_eq_of_le hn with hlt | rfl
      · obtain ⟨more, rfl⟩ := Nat.exists_eq_add_of_le hlt
        refine ⟨n, more, rfl, hends, ?_, fun m hm => ?_⟩
        · rwa [run_add, run_succ_eq_step] at hback
        · rw [← run_succ_eq_step, ← run_add]
          exact hbefore _ (Nat.add_lt_add_left hm _)
      · exact absurd hback (hwaits n (hends.exists_above (Nat.le_refl n)))
    · exact absurd hback (hwaits steps habove)
  · rintro ⟨n, more, rfl, hends, hback, hbefore⟩
    refine ⟨by rwa [run_add, run_succ_eq_step], fun m hm => ?_⟩
    by_cases hle : m ≤ n
    · exact hwaits m (hends.exists_above hle)
    · obtain ⟨i, rfl⟩ := Nat.exists_eq_add_of_le (Nat.lt_of_not_le hle)
      rw [run_add, run_succ_eq_step]
      exact hbefore i (Nat.lt_of_add_lt_add_left hm)

/-! ## Calls -/

/-- What is there after a call, by what the body has come to. -/
def afterCall (st : State) (yield : Yield EnvId) : Control → Control
  | .give _ => .give (st.yielded yield .nil)
  | .returning v => .give (st.yielded yield v)
  | control => control

/-- When the body of a function has ended, the next step leaves the call. -/
theorem step_of_isBack_call {caller : EnvId} {yield : Yield EnvId}
    (h : c.IsBack (.call caller yield :: below)) :
    c.step s =
      ⟨afterCall c.state yield c.control, below, (Frame.call caller yield).leave c.state⟩ := by
  obtain ⟨control, frames, st⟩ := c
  obtain ⟨rfl, hresult⟩ := h
  cases control with
  | give | returning | failing => rfl
  | _ => cases hresult

theorem isEvaluation_afterCall (st : State) (yield : Yield EnvId) {control : Control}
    (h : control.isResult = true) : (afterCall st yield control).isEvaluation = true := by
  cases control with
  | give | returning | failing => rfl
  | _ => cases h

/-- A call ends one step after the body of its function. -/
theorem backAt_call_iff {caller : EnvId} {yield : Yield EnvId}
    (hframes : c.frames = .call caller yield :: below) {steps : Nat} :
    c.BackAt s below steps ↔ ∃ n, steps = n + 1 ∧ c.EndsAt s n := by
  have hleft : ∀ n, c.EndsAt s n → ((c.run s n).step s).IsBack below := by
    rintro n ⟨hback, -⟩
    rw [hframes] at hback
    rw [step_of_isBack_call hback]
    have hevaluation := isEvaluation_afterCall (c.run s n).state yield hback.2
    refine ⟨rfl, ?_⟩
    cases hcontrol : (c.run s n).control with
    | give | returning | failing => rfl
    | _ => cases hcontrol ▸ hback.2
  rw [backAt_above_iff [] hframes]
  constructor
  · rintro ⟨n, more, rfl, hends, hback⟩
    obtain rfl := (backAt_of_isBack (hleft n hends)).1 hback
    exact ⟨n, rfl, hends⟩
  · rintro ⟨n, rfl, hends⟩
    exact ⟨n, 0, rfl, hends, (backAt_of_isBack (hleft n hends)).2 rfl⟩

/-! ## Expressions -/

/-- An expression is being evaluated, or the body of a function starts for one. -/
inductive InExpression : Config → Prop
  | goesOn {control : Control} {frames : List (Frame EnvId)} {st : State}
      (hcontrol : control.isEvaluation = true) (hframes : ∀ f ∈ frames, f.isOperand = true) :
      InExpression ⟨control, frames, st⟩
  | called {body : List Stmt} {caller : EnvId} {yield : Yield EnvId} {rest : List (Frame EnvId)}
      {st : State} (hrest : ∀ f ∈ rest, f.isOperand = true) :
      InExpression ⟨.execAll body, .call caller yield :: rest, st⟩

end Config

namespace State

variable {frames : List (Frame EnvId)} (h : ∀ f ∈ frames, f.isOperand = true) (st : State)
  (s : Setting)

include h

theorem inExpression_push {f : Frame EnvId} (hf : f.isOperand = true) (e : Expr) :
    Config.InExpression ⟨.eval e, f :: frames, st⟩ :=
  .goesOn rfl (List.forall_mem_cons.2 ⟨hf, h⟩)

theorem inExpression_giveOrFail (line : Nat) (result : Except RuntimeError.Cause Value) :
    (st.giveOrFail line frames result).InExpression := by
  cases result <;> exact .goesOn rfl h

theorem inExpression_call (callee : Value) (arguments : List Value) (line : Nat) :
    (st.call s callee arguments line frames).InExpression := by
  have hcalls := st.calls_call s callee arguments line frames
  generalize st.call s callee arguments line frames = c at hcalls ⊢
  cases hcalls with
  | function | initialized => exact .called h
  | _ => exact .goesOn rfl h

theorem inExpression_evalArguments (callee : Value) (before : List Value) (after : List Expr)
    (line : Nat) : (st.evalArguments s callee before after line frames).InExpression := by
  cases after with
  | nil => exact inExpression_call h st s callee before.reverse line
  | cons e es => exact inExpression_push h st rfl e

theorem inExpression_giveProperty (object : Value) (property : Name) :
    (st.giveProperty object property frames).InExpression := by
  cases object with
  | instanceRef i =>
      rw [giveProperty]
      split <;> exact .goesOn rfl h
  | _ => exact .goesOn rfl h

theorem inExpression_eval (e : Expr) : (st.eval s frames e).InExpression := by
  cases e with
  | literal | grouping => exact .goesOn rfl h
  | «variable» name | this name =>
      rw [eval]
      split <;> exact .goesOn rfl h
  | super keyword method =>
      rw [eval]
      split <;> exact .goesOn rfl h
  | _ => exact inExpression_push h st rfl _

theorem inExpression_resume (v : Value) {f : Frame EnvId} (hf : f.isOperand = true) :
    (st.resume s frames v f).InExpression := by
  cases f with
  | unary op line | binaryRight op line left => exact inExpression_giveOrFail h st line _
  | binaryLeft op line right => exact inExpression_push h st rfl right
  | logical op right =>
      rw [resume]
      split <;> exact .goesOn rfl h
  | assign name =>
      rw [resume]
      split <;> exact .goesOn rfl h
  | callee arguments line => exact inExpression_evalArguments h st s v [] arguments line
  | argument callee before after line =>
      exact inExpression_evalArguments h st s callee (v :: before) after line
  | get property => exact inExpression_giveProperty h st v property
  | setObject property value =>
      cases v with
      | instanceRef i => exact inExpression_push h st rfl value
      | _ => exact .goesOn rfl h
  | setValue i property => exact .goesOn rfl h
  | _ => cases hf

end State

namespace Config

variable {s : Setting} {c : Config}

/-- A step of an expression goes on with it, or starts the body of a function. -/
theorem inExpression_step (hcontrol : c.control.isEvaluation = true)
    (hframes : ∀ f ∈ c.frames, f.isOperand = true) : (c.step s).InExpression := by
  obtain ⟨control, frames, st⟩ := c
  cases control with
  | eval e => exact State.inExpression_eval hframes st s e
  | give v =>
      cases frames with
      | nil => exact .goesOn rfl hframes
      | cons f frames =>
          obtain ⟨hf, hrest⟩ := List.forall_mem_cons.1 hframes
          exact State.inExpression_resume hrest st s v hf
  | failing e =>
      cases frames with
      | nil => exact .goesOn rfl hframes
      | cons f frames => exact .goesOn rfl (List.forall_mem_cons.1 hframes).2
  | exec | execAll | returning => cases hcontrol

/-- What has ended as an expression has a value or an error. -/
theorem BackAt.isEvaluation {steps : Nat} (h : c.BackAt s [] steps)
    (hcontrol : c.control.isEvaluation = true) (hframes : ∀ f ∈ c.frames, f.isOperand = true) :
    (c.run s steps).control.isEvaluation = true := by
  induction steps using Nat.strongRecOn generalizing c with
  | ind steps ih =>
      by_cases hback : c.IsBack []
      · obtain rfl := (backAt_of_isBack hback).1 h
        exact hcontrol
      · obtain ⟨more, rfl, hmore⟩ := (backAt_step_iff hback).1 h
        rw [run_succ]
        have hstep := inExpression_step (s := s) hcontrol hframes
        generalize c.step s = c' at *
        cases hstep with
        | goesOn hcontrol' hframes' =>
            exact ih more (Nat.lt_succ_self more) hmore hcontrol' hframes'
        | @called body caller yield rest st hrest =>
            -- The body ends first, and then its call is left, with a value or an error.
            have hframes' : (Config.mk (.execAll body) (.call caller yield :: rest) st).frames =
                .call caller yield :: (rest ++ []) := by rw [List.append_nil]
            obtain ⟨n, left, rfl, hends, hleft⟩ := (backAt_above_iff rest hframes').1 hmore
            have hleave := step_of_isBack_call (s := s) hends.1
            rw [run_add, run_succ_eq_step]
            rw [hleave] at hleft ⊢
            exact ih left (by omega) hleft (isEvaluation_afterCall _ yield hends.1.2) hrest

/-- An expression ends with a value or with an error. -/
theorem EndsAt.expression {e : Expr} {below : List (Frame EnvId)} {st : State} {steps : Nat}
    (h : EndsAt s ⟨.eval e, below, st⟩ steps) :
    (∃ v, (Config.run s steps ⟨.eval e, below, st⟩).control = .give v) ∨
      ∃ error, (Config.run s steps ⟨.eval e, below, st⟩).control = .failing error := by
  have hunder : (⟨.eval e, [], st⟩ : Config).under below = ⟨.eval e, below, st⟩ := rfl
  rw [← hunder] at h ⊢
  obtain ⟨hfinished, hgoes⟩ := (endsAt_under_iff rfl).1 h
  rw [run_under hgoes below]
  show (∃ v, (Config.run s steps ⟨.eval e, [], st⟩).control = .give v) ∨
    ∃ error, (Config.run s steps ⟨.eval e, [], st⟩).control = .failing error
  have hback : BackAt s ⟨.eval e, [], st⟩ [] steps := by
    refine ⟨isFinished_iff.1 hfinished, fun n hn hback => ?_⟩
    rw [← isFinished_iff, hgoes n hn] at hback
    cases hback
  have hevaluation := hback.isEvaluation rfl fun _ hf => nomatch hf
  cases hcontrol : (Config.run s steps ⟨.eval e, [], st⟩).control with
  | give v => exact .inl ⟨v, rfl⟩
  | failing error => exact .inr ⟨error, rfl⟩
  | returning => cases hcontrol ▸ hevaluation
  | eval | exec | execAll => cases hcontrol ▸ hback.1.2

end Config

end Lox
