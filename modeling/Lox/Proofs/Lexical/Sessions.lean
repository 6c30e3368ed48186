import Lox.Proofs.Binding.Congruence
import Lox.Proofs.Lexical.Lockstep
import Lox.Proofs.Lexical.Refinement
import Lox.Proofs.Session.Control
import Lox.Proofs.Session.Read

set_option autoImplicit false

/-! # Sessions in lockstep

The reference machine can hold a session too (`Session.lexicalAll`): after lines that ended it holds
a state that fits that of the session, so the next line that is accepted runs in lockstep
(`Session.FitsHeld.runProgram`). Code that a session holds goes on being bound: its references were
read before the new line, which adds nothing for them to the table or to the assignments that find
no variable (`Reference.Alike`).
-/

namespace Lox

/-! ## References that were read before -/

/-- References that a renumbering beyond a bound leaves as they are lie below the bound. -/
theorem Renumbering.start_lt_of_map {rs : List Reference} {bound : Nat}
    (h : rs.map (Reference.renumber (beyond bound 1)) = rs) : ∀ r ∈ rs, r.name.start < bound := by
  intro r hr
  have hfixed := List.map_inj_left.1 (h.trans (List.map_id _).symm) r hr
  have hstart : (beyond bound 1).start r.name.start = r.name.start :=
    congrArg (fun r : Reference => r.name.start) hfixed
  by_contra hle
  rw [beyond_start_of_le bound 1 (Nat.le_of_not_lt hle)] at hstart
  omega

theorem Closure.start_lt_of_renumber {c : Closure EnvId} {bound : Nat}
    (h : c.renumber (.beyond bound 1) = c) : ∀ r ∈ c.decl.references, r.name.start < bound := by
  have hdecl : c.decl.renumber (.beyond bound 1) = c.decl := congrArg Closure.decl h
  refine Renumbering.start_lt_of_map ?_
  rw [← Function.references_renumber, hdecl]

/-- A program that lies below a bound has its references there. -/
theorem Program.Below.start_lt {p : Program} {bound : Nat} (h : p.Below bound) :
    ∀ r ∈ p.references, r.name.start < bound := by
  have hp := h _ (Renumbering.keeps_beyond bound 1)
  refine Renumbering.start_lt_of_map ?_
  rw [← Program.references_renumber, hp]

namespace State.Below

variable {st : State} {bound : Nat}

theorem start_lt_of_function (h : st.Below bound) {c : Closure EnvId}
    (hc : c ∈ st.store.functions) : ∀ r ∈ c.decl.references, r.name.start < bound := by
  have hfunctions : st.store.functions.map (Closure.renumber (.beyond bound 1)) =
      st.store.functions :=
    congrArg (fun st : State => st.store.functions) (h _ (Renumbering.keeps_beyond bound 1))
  exact Closure.start_lt_of_renumber
    (Array.map_inj_left.1 (hfunctions.trans (Array.map_id _).symm) c hc)

theorem start_lt_of_method (h : st.Below bound) {c : ClassObject EnvId}
    (hc : c ∈ st.store.classes) {m : String × Closure EnvId} (hm : m ∈ c.methods) :
    ∀ r ∈ m.2.decl.references, r.name.start < bound := by
  have hclasses : st.store.classes.map (ClassObject.renumber (.beyond bound 1)) =
      st.store.classes :=
    congrArg (fun st : State => st.store.classes) (h _ (Renumbering.keeps_beyond bound 1))
  have hmethods : c.methods.map (fun m => (m.1, m.2.renumber (.beyond bound 1))) = c.methods :=
    congrArg ClassObject.methods
      (Array.map_inj_left.1 (hclasses.trans (Array.map_id _).symm) c hc)
  exact Closure.start_lt_of_renumber (congrArg Prod.snd
    (List.map_inj_left.1 (hmethods.trans (List.map_id _).symm) m hm))

end State.Below

/-! ## States that fit go on fitting -/

namespace Lexical.World

variable {t u : BindingTable} {own own' : List Name} {w : World}

theorem FunctionFits.congr {c : Closure EnvId} {c' : Closure View} (h : w.FunctionFits t own c c')
    (halike : ∀ r ∈ c.decl.references, r.Alike t u own own') : w.FunctionFits u own' c c' := by
  obtain ⟨scopes, hsees, hsettled, hbound⟩ := h.place
  exact ⟨h.decl, h.isInitializer, ⟨scopes, hsees, hsettled, hbound.congr halike⟩, h.this⟩

theorem MethodFits.congr {m : Closure EnvId} {m' : Closure View} (h : w.MethodFits t own m m')
    (halike : ∀ r ∈ m.decl.references, r.Alike t u own own') : w.MethodFits u own' m m' := by
  obtain ⟨scopes, hsees, hsettled, hbound⟩ := h.place
  exact ⟨h.decl, h.isInitializer, scopes, hsees, hsettled, hbound.congr halike⟩

theorem ClassFits.congr {c : ClassObject EnvId} {c' : ClassObject View} (h : w.ClassFits t own c c')
    (halike : ∀ m ∈ c.methods, ∀ r ∈ m.2.decl.references, r.Alike t u own own') :
    w.ClassFits u own' c c' := by
  refine ⟨h.name, h.superclass, ?_⟩
  exact ((List.forall₂_and_left _ _).2 ⟨halike, h.methods⟩).imp
    fun _ _ hm => ⟨hm.2.1, hm.2.2.congr hm.1⟩

/-- A state fits as before by what says the same of the references that it holds. -/
theorem StateFits.congr {bound : Nat} {st : Lox.State} {st' : State} {scopes : Scopes}
    (h : w.StateFits t own scopes st st') (hbelow : st.Below bound)
    (halike : ∀ r : Reference, r.name.start < bound → r.Alike t u own own') :
    w.StateFits u own' scopes st st' := by
  have hheap := h.store.heap
  refine ⟨⟨h.store.vars, ?_, ?_, hheap.instances, hheap.natives⟩, h.place, h.calls, h.output,
    h.ticks⟩
  · refine ⟨hheap.functions.size_eq, fun i c c' hc hc' => ?_⟩
    have hmem := hbelow.start_lt_of_function (Array.mem_of_getElem? hc)
    exact (hheap.functions.related i c c' hc hc').congr fun r hr => halike r (hmem r hr)
  · refine ⟨hheap.classes.size_eq, fun i c c' hc hc' => ?_⟩
    have hmem := fun m => hbelow.start_lt_of_method (Array.mem_of_getElem? hc) (m := m)
    exact (hheap.classes.related i c c' hc hc').congr
      fun m hm r hr => halike r (hmem m hm r hr)

/-- At the top level nothing is printed twice. -/
theorem StateFits.clear {st : Lox.State} {st' : State} {scopes : Scopes}
    (h : w.StateFits t own scopes st st') :
    w.StateFits t own scopes { st with output := "" } { st' with output := "" } :=
  ⟨h.store, h.place, h.calls, rfl, h.ticks⟩

/-- A run that has ended at the top level has left a state that fits there. -/
theorem ConfigFits.atTop {c : Lox.Config} {c' : Config} (h : ConfigFits t own c c')
    (htop : c.state.AtTop) : ∃ w : World, w.StateFits t own [] c.state c'.state := by
  obtain ⟨hstate, -⟩ := h
  rename_i w scopes control fs fs' st st'
  have hscopes : scopes = [] := by
    rw [← List.isEmpty_iff]
    cases hempty : scopes.isEmpty with
    | true => rfl
    | false => exact absurd htop.1 (hstate.store.ne_global hstate.place hempty)
  subst hscopes
  exact ⟨w, hstate⟩

end Lexical.World

/-! ## Lines -/

namespace Lexical

/-- What the reference machine holds between the lines of a session: the assignments to variables in
their own initializers that were read, and a state. -/
structure Held where
  own : List Name
  state : State

namespace Held

/-- What is held before the first line. -/
def start : Held := ⟨[], .start⟩

/-- Runs the program of a line for a number of steps. -/
def runProgram (held : Held) (clock : Nat → Float) (steps : Nat) (p : Program) : Config :=
  let state := { held.state with output := "" }
  (state.continueProgram [] p).runOwn (held.own ++ p.ownAssignments) clock steps

end Held

end Lexical

namespace Session

variable (session : Session) (clock : Nat → Float) (steps : Nat)

/-- What the reference machine holds after a line. -/
def lexical (held : Lexical.Held) (source : String) : Lexical.Held :=
  match session.accept source with
  | .error _ => held
  | .ok (p, _) => ⟨held.own ++ p.ownAssignments, (held.runProgram clock steps p).state⟩

/-- What the reference machine holds after lines. -/
def lexicalAll (session : Session) (held : Lexical.Held) : List String → Lexical.Held
  | [] => held
  | source :: sources =>
    (session.run clock steps source).2.lexicalAll (session.lexical clock steps held source) sources

/-- The reference machine holds what fits the session, at the top level. -/
structure FitsHeld (held : Lexical.Held) : Prop where
  own_lt : ∀ n ∈ held.own, n.start < session.offset
  state : ∃ w : Lexical.World, w.StateFits session.bindings held.own [] session.state held.state

theorem fitsHeld_start : start.FitsHeld .start where
  own_lt _ hn := by cases hn
  state := ⟨_, Lexical.World.start_fits⟩

variable {session} {held : Lexical.Held} {source : String} {p : Program} {t : BindingTable}

/-- For what was read before a line, the line changes neither the table nor the assignments. -/
theorem alike_of_lt (haccept : session.accept source = .ok (p, t)) {own : List Name} {r : Reference}
    (hr : r.name.start < session.offset) :
    r.Alike session.bindings t own (own ++ p.ownAssignments) := by
  obtain ⟨hparsed, hbind⟩ := of_accept haccept
  obtain ⟨herrors, rfl⟩ := Program.bind_eq_ok_iff.1 hbind
  refine ⟨BindingTable.getElem?_extend_of_lt (Program.le_of_mem_bindings hparsed herrors) hr, ?_⟩
  rw [List.mem_append, or_iff_left]
  intro hown
  obtain ⟨q, hq, hname⟩ := Program.exists_reference_of_own herrors hown
  have hle := Program.le_start_of_ofText hparsed hq
  rw [hname] at hle
  exact Nat.not_le_of_lt hr hle

namespace FitsHeld

section Accepted

variable (h : session.FitsHeld held) (hread : session.HoldsRead)
  (haccept : session.accept source = .ok (p, t))

include h haccept

/-- For the references of a line, the assignments that were read before it are none. -/
theorem alike_of_mem {r : Reference} (hr : r ∈ p.references) :
    r.Alike t t p.ownAssignments (held.own ++ p.ownAssignments) := by
  obtain ⟨hparsed, -⟩ := of_accept haccept
  refine ⟨rfl, ?_⟩
  rw [List.mem_append, or_iff_right]
  intro hown
  exact Nat.not_le_of_lt (h.own_lt _ hown) (Program.le_start_of_ofText hparsed hr)

include hread

/-- An accepted line runs in lockstep. -/
theorem runProgram (clock : Nat → Float) (steps : Nat) :
    Lexical.World.ConfigFits t (held.own ++ p.ownAssignments)
      (session.runProgram clock steps p t) (held.runProgram clock steps p) := by
  obtain ⟨hparsed, hbind⟩ := of_accept haccept
  obtain ⟨w, hstate⟩ := h.state
  have hbound : Stmt.BoundAll t (held.own ++ p.ownAssignments) [] p :=
    (Program.bound_of_bind hparsed hread.bindings hbind).congr fun r hr => h.alike_of_mem haccept hr
  have hstate := (hstate.congr hread.state fun r hr => alike_of_lt haccept hr).clear
  exact (Lexical.World.continueProgram_fits hstate (.nil [] _) hbound).runOwn clock steps

end Accepted

variable {clock : Nat → Float} {steps : Nat}

/-- After a line that ended, what is held fits again. -/
theorem run (h : session.FitsHeld held) (hread : session.HoldsRead) (htop : session.state.AtTop)
    (hends : (session.run clock steps source).1.ending ≠ .running) :
    (session.run clock steps source).2.FitsHeld (session.lexical clock steps held source) := by
  have hafter := atTop_run htop hends
  have hle : session.offset ≤ session.offsetAfter source := offset_le_offsetAfter source
  have hown : ∀ n ∈ held.own, n.start < session.offsetAfter source :=
    fun n hn => (h.own_lt n hn).trans_le hle
  rcases session.run_cases clock steps source with ⟨errors, haccept, hrun⟩ | ⟨p, t, haccept, hrun⟩
  · rw [hrun, lexical, haccept]
    exact ⟨hown, h.state⟩
  · rw [hrun] at hafter ⊢
    rw [lexical, haccept]
    obtain ⟨hparsed, hbind⟩ := of_accept haccept
    obtain ⟨herrors, -⟩ := Program.bind_eq_ok_iff.1 hbind
    constructor
    · intro n hn
      rcases List.mem_append.1 hn with hn | hn
      · exact hown n hn
      · obtain ⟨r, hr, rfl⟩ := Program.exists_reference_of_own herrors hn
        exact (below_of_accept haccept).start_lt r hr
    · exact (h.runProgram hread haccept clock steps).atTop hafter

/-- After lines that ended, what is held fits. -/
theorem afterAll (h : session.FitsHeld held) (hread : session.HoldsRead)
    (htop : session.state.AtTop) {lines : List String}
    (hends : ∀ r ∈ session.runAll clock steps lines, r.ending ≠ .running) :
    (session.afterAll clock steps lines).FitsHeld (session.lexicalAll clock steps held lines) := by
  induction lines generalizing session held with
  | nil => exact h
  | cons line lines ih =>
      rw [runAll_cons] at hends
      obtain ⟨hline, hlines⟩ := List.forall_mem_cons.1 hends
      exact ih (h.run hread htop hline) (hread.run clock steps line) (atTop_run htop hline) hlines

end FitsHeld

end Session

end Lox
