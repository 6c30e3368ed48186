import Lox.Machine.Step

set_option autoImplicit false

/-! # Runs as repeated steps

A run stops early when it is finished, but a finished configuration does not change any more, so a
run of so many steps is that many steps.
-/

namespace Lox.Config

variable (s : Setting) (c : Config)

theorem run_of_isFinished (steps : Nat) (h : c.isFinished = true) : run s steps c = c := by
  cases steps with
  | zero => rfl
  | succ steps => rw [run, if_pos h]

theorem run_succ (steps : Nat) : run s (steps + 1) c = run s steps (c.step s) := by
  rw [run]
  split
  · rename_i h
    rw [step_of_isFinished s h, run_of_isFinished s c steps h]
  · rfl

/-- A longer run goes on from where a shorter one has come to. -/
theorem run_succ_eq_step (steps : Nat) : run s (steps + 1) c = (run s steps c).step s := by
  induction steps generalizing c with
  | zero => exact run_succ s c 0
  | succ steps ih => rw [run_succ, ih, run_succ]

theorem run_add (steps more : Nat) : c.run s (steps + more) = (c.run s steps).run s more := by
  induction more with
  | zero => rfl
  | succ more ih => rw [← Nat.add_assoc, run_succ_eq_step, run_succ_eq_step, ih]

variable {s c}

theorem state_ofProgram (p : Program) (st : State) : (ofProgram p st).state = st := by
  cases p <;> rfl

/-- A longer run ends where a shorter one has ended. -/
theorem run_of_le {steps steps' : Nat} (h : (c.run s steps).isFinished = true)
    (hle : steps ≤ steps') : c.run s steps' = c.run s steps := by
  obtain ⟨more, rfl⟩ := Nat.exists_eq_add_of_le hle
  rw [run_add, run_of_isFinished s _ more h]

end Lox.Config
