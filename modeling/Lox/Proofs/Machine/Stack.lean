import Lox.Proofs.Machine.Run
import Mathlib.Data.Nat.Find

set_option autoImplicit false

/-! # What waits below

A step looks at the top frame only. So what an expression or a statement does is the same whatever
waits below it (`Config.under`), up to the moment in which it has ended: in which its result is
there and what waits is what waited before (`Config.IsBack`).
-/

namespace Lox

/-- A value, a `return` or an error is there. -/
def Control.isResult : Control → Bool
  | .give _ | .returning _ | .failing _ => true
  | .eval _ | .exec _ | .execAll _ => false

namespace Config

/-- The configuration with more frames below its own. -/
def under (c : Config) (below : List (Frame EnvId)) : Config :=
  { c with frames := c.frames ++ below }

/-- What was started on these frames has ended. -/
def IsBack (c : Config) (below : List (Frame EnvId)) : Prop :=
  c.frames = below ∧ c.control.isResult = true

/-- What a configuration starts has ended after this number of steps, and not before. -/
def EndsAt (s : Setting) (c : Config) (steps : Nat) : Prop :=
  (c.run s steps).IsBack c.frames ∧ ∀ n < steps, ¬ (c.run s n).IsBack c.frames

/-- What waits above these frames has ended after this number of steps, and not before. -/
def BackAt (s : Setting) (c : Config) (below : List (Frame EnvId)) (steps : Nat) : Prop :=
  (c.run s steps).IsBack below ∧ ∀ n < steps, ¬ (c.run s n).IsBack below

theorem isFinished_iff {c : Config} : c.isFinished = true ↔ c.IsBack [] := by
  obtain ⟨control, frames, st⟩ := c
  cases control <;> cases frames <;> simp [isFinished, IsBack, Control.isResult]

theorem isBack_under_iff {c : Config} {below : List (Frame EnvId)} :
    (c.under below).IsBack below ↔ c.isFinished = true := by
  rw [isFinished_iff, IsBack, IsBack, under, List.append_left_eq_self]

end Config

namespace State

variable (st : State) (s : Setting) (frames below : List (Frame EnvId))

/-! ## Parts of a step -/

theorem under_giveOrFail (line : Nat) (result : Except RuntimeError.Cause Value) :
    st.giveOrFail line (frames ++ below) result =
      (st.giveOrFail line frames result).under below := by
  cases result <;> rfl

theorem under_call (callee : Value) (arguments : List Value) (line : Nat) :
    st.call s callee arguments line (frames ++ below) =
      (st.call s callee arguments line frames).under below := by
  rw [call, call]
  split
  · rfl
  · split
    · rfl
    · split
      · rfl
      · cases callee with
        | nativeRef n =>
            rw [invoke, invoke]
            split <;> rfl
        | functionRef f =>
            rw [invoke, invoke]
            split <;> rfl
        | classRef cls =>
            rw [invoke, invoke, instantiate, instantiate]
            cases st.store.initializer? cls <;> rfl
        | _ => rfl

theorem under_evalArguments (callee : Value) (before : List Value) (after : List Expr)
    (line : Nat) :
    st.evalArguments s callee before after line (frames ++ below) =
      (st.evalArguments s callee before after line frames).under below := by
  cases after with
  | nil => exact under_call ..
  | cons e es => rfl

theorem under_giveProperty (object : Value) (property : Name) :
    st.giveProperty object property (frames ++ below) =
      (st.giveProperty object property frames).under below := by
  cases object with
  | instanceRef i =>
      rw [giveProperty, giveProperty]
      split <;> rfl
  | _ => rfl

theorem under_continueProgram (p : Program) :
    st.continueProgram (frames ++ below) p = (st.continueProgram frames p).under below := by
  cases p <;> rfl

theorem under_eval (e : Expr) :
    st.eval s (frames ++ below) e = (st.eval s frames e).under below := by
  cases e with
  | «variable» name | this name =>
      rw [eval, eval]
      split <;> rfl
  | super keyword method =>
      rw [eval, eval]
      split <;> rfl
  | _ => rfl

theorem under_exec (stmt : Stmt) :
    st.exec (frames ++ below) stmt = (st.exec frames stmt).under below := by
  cases stmt with
  | var name initial => cases initial <;> rfl
  | ret keyword value => cases value <;> rfl
  | classDecl name superclass methods => cases superclass <;> rfl
  | _ => rfl

theorem under_execAll (body : List Stmt) :
    st.execAll (frames ++ below) body = (st.execAll frames body).under below := by
  cases body <;> rfl

theorem under_resume (v : Value) (f : Frame EnvId) :
    st.resume s (frames ++ below) v f = (st.resume s frames v f).under below := by
  cases f with
  | unary op line => exact under_giveOrFail ..
  | binaryRight op line left => exact under_giveOrFail ..
  | callee arguments line => exact under_evalArguments ..
  | argument callee before after line => exact under_evalArguments ..
  | get property => exact under_giveProperty ..
  | program rest => exact under_continueProgram ..
  | assign | logical | loopTest =>
      rw [resume, resume]
      split <;> rfl
  | setObject | superclass => cases v <;> rfl
  | branch yes no =>
      simp only [resume]
      cases v.isTruthy <;> cases no <;> rfl
  | _ => rfl

theorem under_unwindReturn (v : Value) (f : Frame EnvId) :
    st.unwindReturn (frames ++ below) v f = (st.unwindReturn frames v f).under below := by
  cases f with
  | program rest => exact under_continueProgram ..
  | _ => rfl

end State

namespace Config

variable {s : Setting} {c : Config}

/-- Frames further down change no step of what has not ended. -/
theorem step_under (h : c.isFinished = false) (below : List (Frame EnvId)) :
    (c.under below).step s = (c.step s).under below := by
  obtain ⟨control, frames, st⟩ := c
  cases control with
  | eval e => exact st.under_eval s frames below e
  | exec stmt => exact st.under_exec frames below stmt
  | execAll body => exact st.under_execAll frames below body
  | give v =>
      cases frames with
      | nil => cases h
      | cons f frames => exact st.under_resume s frames below v f
  | returning v =>
      cases frames with
      | nil => cases h
      | cons f frames => exact st.under_unwindReturn frames below v f
  | failing e =>
      cases frames with
      | nil => cases h
      | cons f frames => rfl

theorem run_under {steps : Nat} (h : ∀ n < steps, (c.run s n).isFinished = false)
    (below : List (Frame EnvId)) : (c.under below).run s steps = (c.run s steps).under below := by
  induction steps with
  | zero => rfl
  | succ steps ih =>
      rw [run_succ_eq_step, run_succ_eq_step, ih fun n hn => h n (Nat.lt_succ_of_lt hn)]
      exact step_under (h steps (Nat.lt_succ_self steps)) below

/-- What has ended above some frames has ended in the same way by itself. -/
theorem backAt_under_iff {below : List (Frame EnvId)} {steps : Nat} :
    (c.under below).BackAt s below steps ↔
      (c.run s steps).isFinished = true ∧ ∀ n < steps, (c.run s n).isFinished = false := by
  constructor
  · rintro ⟨hback, hbefore⟩
    have hgoes : ∀ n < steps, (c.run s n).isFinished = false := by
      intro n hn
      induction n using Nat.strongRecOn with
      | ind n ih =>
          -- Nothing has ended earlier, so the steps up to here are the same.
          have hrun := run_under (fun m hm => ih m hm (Nat.lt_trans hm hn)) below
          rw [Bool.eq_false_iff]
          intro hfinished
          refine hbefore n hn ?_
          rw [hrun]
          exact isBack_under_iff.2 hfinished
    rw [run_under hgoes below] at hback
    exact ⟨isBack_under_iff.1 hback, hgoes⟩
  · rintro ⟨hfinished, hgoes⟩
    refine ⟨?_, fun n hn hback => ?_⟩
    · rw [run_under hgoes below]
      exact isBack_under_iff.2 hfinished
    · rw [run_under (fun m hm => hgoes m (Nat.lt_trans hm hn)) below] at hback
      have hfinished := isBack_under_iff.1 hback
      rw [hgoes n hn] at hfinished
      cases hfinished

/-- What has ended above the frames further down can be seen from the frames further up. -/
theorem backAt_drop_iff {above steps : Nat} :
    c.BackAt s (c.frames.drop above) steps ↔
      (Config.run s steps ⟨c.control, c.frames.take above, c.state⟩).isFinished = true ∧
        ∀ n < steps,
          (Config.run s n ⟨c.control, c.frames.take above, c.state⟩).isFinished = false := by
  rw [← backAt_under_iff, under, List.take_append_drop]

instance (above steps : Nat) : Decidable (c.BackAt s (c.frames.drop above) steps) :=
  decidable_of_iff _ backAt_drop_iff.symm

instance (steps : Nat) : Decidable (c.EndsAt s steps) :=
  inferInstanceAs (Decidable (c.BackAt s (c.frames.drop 0) steps))

/-- What has ended on some frames has ended in the same way, by itself, on none. -/
theorem endsAt_under_iff {below : List (Frame EnvId)} {steps : Nat} (hframes : c.frames = []) :
    (c.under below).EndsAt s steps ↔
      (c.run s steps).isFinished = true ∧ ∀ n < steps, (c.run s n).isFinished = false := by
  have hbelow : (c.under below).frames = below := by rw [under, hframes, List.nil_append]
  rw [EndsAt, hbelow]
  exact backAt_under_iff

/-- As long as something has not ended, everything that waited still waits. -/
theorem endsAt_or_waits (s : Setting) (c : Config) (steps : Nat) :
    (∃ n ≤ steps, c.EndsAt s n) ∨ ∃ above, (c.run s steps).frames = above ++ c.frames := by
  obtain ⟨control, below, st⟩ := c
  have hunder : (⟨control, [], st⟩ : Config).under below = ⟨control, below, st⟩ := rfl
  rw [← hunder]
  by_cases h : ∃ n ≤ steps, (Config.run s n ⟨control, [], st⟩).isFinished = true
  · -- The first such number of steps is the one after which it has ended.
    have hex : ∃ n, (Config.run s n ⟨control, [], st⟩).isFinished = true :=
      h.imp fun n hn => hn.2
    obtain ⟨n, hn, hfinished⟩ := h
    refine .inl ⟨Nat.find hex, Nat.le_trans (Nat.find_min' hex hfinished) hn,
      (endsAt_under_iff rfl).2 ⟨Nat.find_spec hex, fun m hm => ?_⟩⟩
    rw [Bool.eq_false_iff]
    exact Nat.find_min hex hm
  · refine .inr ⟨(Config.run s steps ⟨control, [], st⟩).frames, ?_⟩
    have hgoes : ∀ n < steps, (Config.run s n ⟨control, [], st⟩).isFinished = false := by
      intro n hn
      rw [Bool.eq_false_iff]
      exact fun hfinished => h ⟨n, Nat.le_of_lt hn, hfinished⟩
    rw [run_under hgoes below]
    rfl

end Config

end Lox
