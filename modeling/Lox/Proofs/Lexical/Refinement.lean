import Lox.Proofs.Lexical.Simulation
import Lox.Proofs.Machine.Run
import Lox.Session

set_option autoImplicit false

/-! # Resolved references are lexically scoped

A program that was accepted runs as the reference semantics says: environments and distances come to
the same as cells and names. The exception are variables that are assigned to in their own
initializers (`Program.ownAssignments`).
-/

namespace Lox

namespace Lexical.World

variable {t : BindingTable} {own : List Name}

/-- Before a run there are no local variables. -/
def start : World := ⟨fun _ => none, fun _ _ => none⟩

theorem start_variablesFit : start.VariablesFit Lox.State.start.store State.start.store where
  enclosing e := by
    cases e with
    | zero => rfl
    | succ e => exact (Lox.Store.enclosing?_eq_none _ _ (Nat.succ_le_succ (Nat.zero_le e))).symm
  root := rfl
  global_lt := Nat.one_pos
  no_global_cell _ := rfl
  globals _ := rfl
  locals e name he := by
    rw [Lox.Store.lookupIn?_eq_none]
    · rfl
    · exact Nat.one_le_iff_ne_zero.2 he
  env_lt _ _ _ h := nomatch h
  cell_lt _ _ _ h := nomatch h
  injective _ _ _ _ _ h := nomatch h
  self _ _ _ h := nomatch h

/-- Every run starts in states that fit. -/
theorem start_fits : start.StateFits t own [] Lox.State.start State.start where
  store :=
    ⟨start_variablesFit, ⟨rfl, fun _ _ _ h => (nomatch h)⟩, ⟨rfl, fun _ _ _ h => (nomatch h)⟩,
      rfl, rfl⟩
  place := ⟨.top, fun _ _ h => (nomatch h), Nat.one_pos⟩
  calls := rfl
  output := rfl
  ticks := rfl

/-- A program whose statements are bound starts in configurations that fit. -/
theorem ofProgram_fits {p : Program} (hp : Stmt.BoundAll t own [] p) :
    ConfigFits t own (Lox.Config.ofProgram p .start) (Config.ofProgram p) :=
  continueProgram_fits start_fits (.nil [] _) hp

/-- Configurations that fit show the same. -/
theorem ConfigFits.report_eq {c : Lox.Config} {c' : Config} (h : ConfigFits t own c c') :
    c'.report = Report.ofConfig c := by
  obtain ⟨hstate, hcontrol⟩ := h
  rename_i w scopes control fs fs' st st'
  have hframes : (fs = [] ∧ fs' = []) ∨ ∃ f rest f' rest', fs = f :: rest ∧ fs' = f' :: rest' := by
    cases hcontrol with
    | eval _ hfs | exec _ _ hfs | execAll _ _ hfs | give _ hfs | returning _ hfs | failing _ hfs =>
        exact hfs.nil_or_cons
  have houtput : ∀ ending, (⟨st'.output, ending⟩ : Report) = ⟨st.output, ending⟩ := by
    rw [hstate.output]
    exact fun _ => rfl
  -- A run has ended if nothing waits, and then the control says how.
  rcases hframes with ⟨rfl, rfl⟩ | ⟨f, fs, f', fs', rfl, rfl⟩
  · cases control <;> exact houtput _
  · cases control <;> exact houtput _

/-- If no variable is assigned to in its own initializer, whole runs fit. -/
theorem ConfigFits.run {c : Lox.Config} {c' : Config} (h : ConfigFits t [] c c')
    (clock : Nat → Float) (steps : Nat) :
    ConfigFits t [] (c.run ⟨t, clock⟩ steps) (c'.run clock steps) := by
  induction steps generalizing c c' with
  | zero => exact h
  | succ steps ih =>
      rw [Lox.Config.run_succ, Config.run]
      exact ih (h.step fun r _ _ hmem => nomatch hmem)

end Lexical.World

/-- Distances implement lexical scoping: an accepted program without assignments to variables in
their own initializers shows in every number of steps what it shows under lexical scoping. -/
theorem runSource_eq_lexical {source : String} {p : Program} {t : BindingTable}
    (haccept : Session.start.accept source = .ok (p, t)) (hown : p.ownAssignments = [])
    (clock : Nat → Float) (steps : Nat) :
    runSource clock steps source = ((Lexical.Config.ofProgram p).run clock steps).report := by
  have hbound := Program.bound_of_accept haccept
  rw [hown] at hbound
  have hfits := (Lexical.World.ofProgram_fits hbound).run clock steps
  calc runSource clock steps source
      = Report.ofConfig ((Config.ofProgram p .start).run ⟨t, clock⟩ steps) := by
        rw [runSource, Session.run, haccept]
        rfl
    _ = ((Lexical.Config.ofProgram p).run clock steps).report := hfits.report_eq.symm

/-- A function that returns a closure over its parameter is accepted and lexically scoped. -/
theorem runSource_closure :
    ∃ source p t,
      source = "fun f(x) \x7b fun g() \x7b return x; \x7d return g; \x7d print f(nil)();" ∧
      Session.start.accept source = .ok (p, t) ∧ p.ownAssignments = [] ∧
      runSource Float.ofNat 100 source =
        ((Lexical.Config.ofProgram p).run Float.ofNat 100).report := by
  obtain ⟨p, t, haccept, hcheck⟩ := Session.exists_of_accept .start
    "fun f(x) \x7b fun g() \x7b return x; \x7d return g; \x7d print f(nil)();"
    (fun accepted => decide (accepted.1.ownAssignments = [])) (by decide +kernel)
  have hown : p.ownAssignments = [] := of_decide_eq_true hcheck
  exact ⟨_, p, t, rfl, haccept, hown, runSource_eq_lexical haccept hown Float.ofNat 100⟩

end Lox
