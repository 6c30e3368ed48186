import Lox.Proofs.Lexical.Found
import Lox.Proofs.Lexical.Stack
import Lox.Proofs.Machine.Stack

set_option autoImplicit false

/-! # Whole runs in lockstep

Every accepted program keeps step with the reference machine in which the assignments to variables
in their own initializers find no variable (`ConfigFits.runOwn`). So what a statement does by itself
in one machine it does in the other, whatever waits for it, and it ends in both at the same time.
-/

namespace Lox.Lexical.World

variable {t : BindingTable} {own : List Name} {clock : Nat → Float} {w : World} {scopes : Scopes}
  {st : Lox.State} {st' : State} {fs : List (Frame EnvId)} {fs' : List (Frame View)} {s : Stmt}

/-! ## Steps and runs -/

/-- A frame takes the value that it waits for. -/
theorem resumeOwn_fits {f : Frame EnvId} {f' : Frame View} (h : w.StateFits t own scopes st st')
    (hfs : w.FramesFit t own scopes st.env (f :: fs) (f' :: fs')) (v : Value) :
    ConfigFits t own (st.resume ⟨t, clock⟩ fs v f) (st'.resumeOwn own clock fs' v f') := by
  by_cases hown : ∃ name, f' = .assign name ∧ name ∈ own
  · obtain ⟨name, rfl, hown⟩ := hown
    cases hfs with
    | plain hf hfs =>
        cases hf with
        | assign hr =>
            simp only [Lox.State.resume, h.binder_of_own hr hown, State.resumeOwn, if_pos hown]
            exact .mk h (.failing _ hfs)
  · rw [State.resumeOwn_eq _ _ _ fun name hf hname => hown ⟨name, hf, hname⟩]
    refine resume_fits h hfs v fun name hf hname => hown ⟨name, ?_, hname⟩
    subst hf
    cases hfs with
    | plain hf => cases hf; rfl

/-- One step of one machine is one step of the other. -/
theorem ConfigFits.stepOwn {c : Lox.Config} {c' : Config} (h : ConfigFits t own c c')
    (clock : Nat → Float) : ConfigFits t own (c.step ⟨t, clock⟩) (c'.stepOwn own clock) := by
  have hplain : _ → ConfigFits t own (c.step ⟨t, clock⟩) (c'.step clock) := h.step
  obtain ⟨hstate, hcontrol⟩ := h
  cases hcontrol with
  | eval he hfs => exact eval_fits hstate hfs he
  | give v hfs =>
      rcases hfs.nil_or_cons with ⟨rfl, rfl⟩ | ⟨f, fs, f', fs', rfl, rfl⟩
      · exact hstate.give hfs v
      · exact resumeOwn_fits hstate hfs v
  | exec | execAll | returning | failing => exact hplain fun r hr => nomatch hr

/-- Whole runs fit. -/
theorem ConfigFits.runOwn {c : Lox.Config} {c' : Config} (h : ConfigFits t own c c')
    (clock : Nat → Float) (steps : Nat) :
    ConfigFits t own (c.run ⟨t, clock⟩ steps) (c'.runOwn own clock steps) := by
  induction steps generalizing c c' with
  | zero => exact h
  | succ steps ih =>
      rw [Lox.Config.run_succ, Config.runOwn_succ]
      exact ih (h.stepOwn clock)

theorem ConfigFits.output_eq {c : Lox.Config} {c' : Config} (h : ConfigFits t own c c') :
    c'.state.output = c.state.output := by
  obtain ⟨hstate, -⟩ := h
  exact hstate.output

/-- A run has ended in both machines, or in neither. -/
theorem ConfigFits.isFinished_eq {c : Lox.Config} {c' : Config} (h : ConfigFits t own c c') :
    c'.isFinished = c.isFinished := by
  obtain ⟨hstate, hcontrol⟩ := h
  cases hcontrol with
  | give _ hfs | returning _ hfs | failing _ hfs =>
      rcases hfs.nil_or_cons with ⟨rfl, rfl⟩ | ⟨f, fs, f', fs', rfl, rfl⟩ <;> rfl
  | eval | exec | execAll => rfl

/-! ## A statement by itself -/

section

variable (h : ConfigFits t own ⟨.exec s, fs, st⟩ ⟨.exec s, fs', st'⟩)

include h

/-- What waits for a statement may be left out. -/
theorem ConfigFits.alone : ConfigFits t own ⟨.exec s, [], st⟩ ⟨.exec s, [], st'⟩ := by
  obtain ⟨hstate, hcontrol⟩ := h
  cases hcontrol with
  | exec hsettled hs hfs => exact .mk hstate (.exec hsettled hs (.nil _ _))

/-- A statement has ended when the reference run of it alone has. -/
theorem ConfigFits.endsAt_iff {m : Nat} :
    Lox.Config.EndsAt ⟨t, clock⟩ ⟨.exec s, fs, st⟩ m ↔
      (Config.runOwn own clock m ⟨.exec s, [], st'⟩).isFinished = true ∧
        ∀ k < m, (Config.runOwn own clock k ⟨.exec s, [], st'⟩).isFinished = false := by
  have halone := fun k => (h.alone.runOwn clock k).isFinished_eq
  have hunder : (⟨.exec s, fs, st⟩ : Lox.Config) = Lox.Config.under ⟨.exec s, [], st⟩ fs := rfl
  rw [hunder, Lox.Config.endsAt_under_iff rfl]
  simp only [halone]

/-- Until a statement has ended, its run is at the point of the reference run of it alone. -/
theorem ConfigFits.run_under {m : Nat}
    (hgoes : ∀ k < m, (Config.runOwn own clock k ⟨.exec s, [], st'⟩).isFinished = false) :
    ConfigFits t own (Lox.Config.run ⟨t, clock⟩ m ⟨.exec s, fs, st⟩)
      ((Config.runOwn own clock m ⟨.exec s, [], st'⟩).under fs') := by
  rw [← Config.runOwn_under hgoes fs']
  exact h.runOwn clock m

/-- A statement that has not ended has not ended by itself. -/
theorem ConfigFits.goes_of_not_endsAt {m : Nat}
    (hgoes : ∀ k < m, ¬ Lox.Config.EndsAt ⟨t, clock⟩ ⟨.exec s, fs, st⟩ k) :
    ∀ k < m, (Config.runOwn own clock k ⟨.exec s, [], st'⟩).isFinished = false := by
  intro k hk
  rw [Bool.eq_false_iff]
  intro hfinished
  obtain ⟨first, hfirst, hrun, hbefore⟩ := Config.exists_first own clock ⟨.exec s, [], st'⟩ k
  rw [← hrun] at hfinished
  exact hgoes first (Nat.lt_of_le_of_lt hfirst hk) (h.endsAt_iff.2 ⟨hfinished, hbefore⟩)

end

end Lox.Lexical.World
