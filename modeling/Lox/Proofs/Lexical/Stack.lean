import Lox.Proofs.Lexical.Semantics

set_option autoImplicit false

/-! # Runs of the reference machine

In an accepted program an assignment to a local variable in its own initializer finds no variable
(`Program.ownAssignments`); in the reference semantics it would find one further out. The machine
below fails at such assignments (`Config.stepOwn`), so that it keeps step with every accepted
program.

As in the machine with environments, a step looks at the top frame only.
-/

namespace Lox.Lexical

/-- The step in which a frame takes the value that it waits for, where the assignments `own` find
no variable. -/
def State.resumeOwn (st : State) (own : List Name) (clock : Nat → Float)
    (frames : List (Frame View)) (v : Value) (f : Frame View) : Config :=
  match f with
  | .assign name =>
    if name ∈ own then ⟨.failing ⟨.unbound name.text, name.line⟩, frames, st⟩
    else st.resume clock frames v (.assign name)
  | f => st.resume clock frames v f

namespace Config

/-- The next configuration, where the assignments `own` find no variable. -/
def stepOwn (own : List Name) (clock : Nat → Float) (c : Config) : Config :=
  match c with
  | ⟨.give v, f :: frames, st⟩ => st.resumeOwn own clock frames v f
  | c => c.step clock

/-- The configuration after a number of steps. -/
def runOwn (own : List Name) (clock : Nat → Float) : Nat → Config → Config
  | 0, c => c
  | steps + 1, c => runOwn own clock steps (c.stepOwn own clock)

/-- Nothing is left to be done. -/
def isFinished (c : Config) : Bool :=
  match c.control, c.frames with
  | .give _, [] | .returning _, [] | .failing _, [] => true
  | _, _ => false

/-- The configuration with more frames below its own. -/
def under (c : Config) (below : List (Frame View)) : Config :=
  { c with frames := c.frames ++ below }

variable {own : List Name} {clock : Nat → Float} {c : Config}

theorem runOwn_succ (steps : Nat) (c : Config) :
    c.runOwn own clock (steps + 1) = (c.stepOwn own clock).runOwn own clock steps := rfl

theorem runOwn_add (steps more : Nat) (c : Config) :
    c.runOwn own clock (steps + more) = (c.runOwn own clock steps).runOwn own clock more := by
  induction steps generalizing c with
  | zero => rw [Nat.zero_add]; rfl
  | succ steps ih => rw [Nat.add_right_comm, runOwn_succ, runOwn_succ, ih]

theorem frames_eq_nil (h : c.isFinished = true) : c.frames = [] := by
  obtain ⟨control, frames, st⟩ := c
  cases control <;> cases frames <;> first | rfl | cases h

theorem stepOwn_of_isFinished (h : c.isFinished = true) : c.stepOwn own clock = c := by
  obtain ⟨control, frames, st⟩ := c
  cases control <;> cases frames <;> first | rfl | cases h

theorem runOwn_of_isFinished (h : c.isFinished = true) (steps : Nat) :
    c.runOwn own clock steps = c := by
  induction steps with
  | zero => rfl
  | succ steps ih => rw [runOwn_succ, stepOwn_of_isFinished h, ih]

end Config

namespace State

variable (st : State) (clock : Nat → Float) (frames below : List (Frame View))

/-! ## Parts of a step -/

theorem under_giveOrFail (line : Nat) (result : Except RuntimeError.Cause Value) :
    st.giveOrFail line (frames ++ below) result =
      (st.giveOrFail line frames result).under below := by
  cases result <;> rfl

theorem under_call (callee : Value) (arguments : List Value) (line : Nat) :
    st.call clock callee arguments line (frames ++ below) =
      (st.call clock callee arguments line frames).under below := by
  rw [call, call]
  split
  · rfl
  · split
    · rfl
    · split
      · rfl
      · cases callee with
        | nativeRef n =>
            rw [invoke, invoke]
            split <;> rfl
        | functionRef f =>
            rw [invoke, invoke]
            split <;> rfl
        | classRef cls =>
            rw [invoke, invoke, instantiate, instantiate]
            cases st.store.initializer? cls <;> rfl
        | _ => rfl

theorem under_evalArguments (callee : Value) (before : List Value) (after : List Expr)
    (line : Nat) :
    st.evalArguments clock callee before after line (frames ++ below) =
      (st.evalArguments clock callee before after line frames).under below := by
  cases after with
  | nil => exact under_call ..
  | cons e es => rfl

theorem under_giveProperty (object : Value) (property : Name) :
    st.giveProperty object property (frames ++ below) =
      (st.giveProperty object property frames).under below := by
  cases object with
  | instanceRef i =>
      rw [giveProperty, giveProperty]
      split <;> rfl
  | _ => rfl

theorem under_continueProgram (p : Program) :
    st.continueProgram (frames ++ below) p = (st.continueProgram frames p).under below := by
  cases p <;> rfl

theorem under_eval (e : Expr) : st.eval (frames ++ below) e = (st.eval frames e).under below := by
  cases e with
  | «variable» name | this name =>
      rw [eval, eval]
      split <;> rfl
  | super keyword method =>
      rw [eval, eval]
      split <;> rfl
  | _ => rfl

theorem under_exec (stmt : Stmt) :
    st.exec (frames ++ below) stmt = (st.exec frames stmt).under below := by
  cases stmt with
  | var name initial => cases initial <;> rfl
  | ret keyword value => cases value <;> rfl
  | classDecl name superclass methods => cases superclass <;> rfl
  | _ => rfl

theorem under_execAll (body : List Stmt) :
    st.execAll (frames ++ below) body = (st.execAll frames body).under below := by
  cases body <;> rfl

theorem under_resume (v : Value) (f : Frame View) :
    st.resume clock (frames ++ below) v f = (st.resume clock frames v f).under below := by
  cases f with
  | unary op line => exact under_giveOrFail ..
  | binaryRight op line left => exact under_giveOrFail ..
  | callee arguments line => exact under_evalArguments ..
  | argument callee before after line => exact under_evalArguments ..
  | get property => exact under_giveProperty ..
  | program rest => exact under_continueProgram ..
  | assign | logical | loopTest =>
      rw [resume, resume]
      split <;> rfl
  | setObject | superclass => cases v <;> rfl
  | branch yes no =>
      simp only [resume]
      cases v.isTruthy <;> cases no <;> rfl
  | _ => rfl

theorem resumeOwn_eq {own : List Name} {f : Frame View} (h : ∀ name, f = .assign name → name ∉ own)
    (v : Value) : st.resumeOwn own clock frames v f = st.resume clock frames v f := by
  unfold resumeOwn
  split
  · exact if_neg (h _ rfl)
  · rfl

theorem under_resumeOwn (own : List Name) (v : Value) (f : Frame View) :
    st.resumeOwn own clock (frames ++ below) v f =
      (st.resumeOwn own clock frames v f).under below := by
  by_cases h : ∃ name, f = .assign name ∧ name ∈ own
  · obtain ⟨name, rfl, hown⟩ := h
    simp only [resumeOwn, if_pos hown]
    rfl
  · have hfound : ∀ name, f = .assign name → name ∉ own := fun name hf hown => h ⟨name, hf, hown⟩
    rw [resumeOwn_eq _ _ _ hfound, resumeOwn_eq _ _ _ hfound]
    exact under_resume ..

theorem under_unwindReturn (v : Value) (f : Frame View) :
    st.unwindReturn (frames ++ below) v f = (st.unwindReturn frames v f).under below := by
  cases f with
  | program rest => exact under_continueProgram ..
  | _ => rfl

end State

namespace Config

variable {own : List Name} {clock : Nat → Float} {c : Config}

/-- Frames further down change no step of what has not ended. -/
theorem stepOwn_under (h : c.isFinished = false) (below : List (Frame View)) :
    (c.under below).stepOwn own clock = (c.stepOwn own clock).under below := by
  obtain ⟨control, frames, st⟩ := c
  cases control with
  | eval e => exact st.under_eval frames below e
  | exec stmt => exact st.under_exec frames below stmt
  | execAll body => exact st.under_execAll frames below body
  | give v =>
      cases frames with
      | nil => cases h
      | cons f frames => exact st.under_resumeOwn clock frames below own v f
  | returning v =>
      cases frames with
      | nil => cases h
      | cons f frames => exact st.under_unwindReturn frames below v f
  | failing e =>
      cases frames with
      | nil => cases h
      | cons f frames => rfl

theorem runOwn_under {steps : Nat} (h : ∀ n < steps, (c.runOwn own clock n).isFinished = false)
    (below : List (Frame View)) :
    (c.under below).runOwn own clock steps = (c.runOwn own clock steps).under below := by
  induction steps with
  | zero => rfl
  | succ steps ih =>
      rw [runOwn_add, runOwn_add, ih fun n hn => h n (Nat.lt_succ_of_lt hn)]
      exact stepOwn_under (h steps (Nat.lt_succ_self steps)) below

/-- What a run has come to, it has come to without having ended before. -/
theorem exists_first (own : List Name) (clock : Nat → Float) (c : Config) (steps : Nat) :
    ∃ first ≤ steps, c.runOwn own clock first = c.runOwn own clock steps ∧
      ∀ n < first, (c.runOwn own clock n).isFinished = false := by
  induction steps with
  | zero => exact ⟨0, Nat.le_refl 0, rfl, fun n hn => absurd hn (Nat.not_lt_zero n)⟩
  | succ steps ih =>
      obtain ⟨first, hfirst, hrun, hgoes⟩ := ih
      cases hfinished : (c.runOwn own clock steps).isFinished with
      | true =>
          refine ⟨first, Nat.le_succ_of_le hfirst, hrun.trans ?_, hgoes⟩
          rw [runOwn_add, runOwn_of_isFinished hfinished]
      | false =>
          refine ⟨steps + 1, Nat.le_refl _, rfl, fun n hn => ?_⟩
          rw [Bool.eq_false_iff]
          intro hended
          -- What has ended stays as it is.
          obtain ⟨more, rfl⟩ := Nat.exists_eq_add_of_le (Nat.le_of_lt_succ hn)
          rw [runOwn_add, runOwn_of_isFinished hended, hended] at hfinished
          cases hfinished

end Config

end Lox.Lexical
