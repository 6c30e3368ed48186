import Lox.Proofs.Parsing.Names
import Lox.Proofs.Renumbering.Session

set_option autoImplicit false

/-! # What a session has read

All code that a session holds, in its functions and in its table, comes from the text that it has
read, so its references are below the session's offset (`Session.HoldsRead`). What is below a
bound is said through renumberings: those that move nothing below the bound leave it as it is.
-/

namespace Lox

/-- The renumbering moves no reference below the bound, and none to below the bound. -/
structure Renumbering.Keeps (r : Renumbering) (bound : Nat) : Prop where
  line : ∀ i, r.line i = i
  below : ∀ i < bound, r.start i = i
  above : ∀ i, bound ≤ i → bound ≤ r.start i

namespace Renumbering

variable {r : Renumbering} {bound bound' : Nat}

theorem Keeps.mono (h : r.Keeps bound') (hle : bound ≤ bound') : r.Keeps bound where
  line := h.line
  below i hi := h.below i (Nat.lt_of_lt_of_le hi hle)
  above i hi := by
    by_cases hi' : i < bound'
    · rwa [h.below i hi']
    · exact Nat.le_trans hle (h.above i (Nat.le_of_not_lt hi'))

/-- Moves what is not below a bound. -/
def beyond (bound characters : Nat) : Renumbering :=
  ⟨id, fun i => if i < bound then i else i + characters⟩

variable (bound) (characters : Nat)

theorem beyond_start_of_lt {i : Nat} (h : i < bound) : (beyond bound characters).start i = i :=
  if_pos h

theorem beyond_start_of_le {i : Nat} (h : bound ≤ i) :
    (beyond bound characters).start i = i + characters :=
  if_neg (Nat.not_lt_of_le h)

theorem keeps_beyond : (beyond bound characters).Keeps bound where
  line _ := rfl
  below _ h := beyond_start_of_lt bound characters h
  above i h := by
    rw [beyond_start_of_le bound characters h]
    exact Nat.le_trans h (Nat.le_add_right i characters)

theorem injective_beyond : Function.Injective (beyond bound characters).start := by
  intro i j h
  simp only [beyond] at h
  split at h <;> split at h <;> omega

end Renumbering

/-- All references that the state holds are below the bound. -/
def State.Below (bound : Nat) (st : State) : Prop :=
  ∀ r : Renumbering, r.Keeps bound → st.renumber r "" = st

/-- All references of the configuration are below the bound. -/
def Config.Below (bound : Nat) (c : Config) : Prop :=
  ∀ r : Renumbering, r.Keeps bound → c.renumber r "" = c

/-- All references of the program are below the bound. -/
def Program.Below (bound : Nat) (p : Program) : Prop :=
  ∀ r : Renumbering, r.Keeps bound → p.map (Stmt.renumber r) = p

variable {bound bound' : Nat}

theorem State.Below.mono {st : State} (h : st.Below bound) (hle : bound ≤ bound') :
    st.Below bound' := fun r hr => h r (hr.mono hle)

/-- What was printed refers to nothing. -/
theorem State.Below.renumber_output {st : State} (h : st.Below bound) (r : Renumbering)
    (hr : r.Keeps bound) (shown : String) :
    ({ st with output := "" } : State).renumber r shown = { st with output := shown } := by
  have hstore : st.store.renumber r = st.store := congrArg State.store (h r hr)
  simp only [renumber, hstore, String.append_empty]

/-- A store without functions and classes refers to nothing. -/
theorem State.renumber_start (r : Renumbering) : State.start.renumber r "" = State.start := by
  have hfunctions : State.start.store.functions = #[] := rfl
  have hclasses : State.start.store.classes = #[] := rfl
  rw [renumber, Store.renumber, hfunctions, hclasses, Array.map_empty, Array.map_empty]
  rfl

theorem State.below_start : State.start.Below 0 := fun r _ => State.renumber_start r

theorem Config.Below.state {c : Config} (h : c.Below bound) : c.state.Below bound :=
  fun r hr => congrArg Config.state (h r hr)

/-- A program whose references are below the bound starts in a configuration of this kind. -/
theorem Config.below_ofProgram {p : Program} {st : State} (hp : p.Below bound)
    (hst : st.Below bound) : (ofProgram p st).Below bound := fun r hr => by
  rw [ofProgram_renumber, hp r hr, hst r hr]

namespace BindingTable

variable {t : BindingTable}

theorem Below.agrees (h : t.Below bound) {r : Renumbering} (hr : r.Keeps bound)
    (clock : Nat → Float) : Setting.Agrees r ⟨t, clock⟩ ⟨t, clock⟩ := by
  refine ⟨fun i => ?_, rfl⟩
  by_cases hi : i < bound
  · rw [hr.below i hi]
  · have hi := Nat.le_of_not_lt hi
    exact (h _ (hr.above i hi)).trans (h i hi).symm

end BindingTable

/-- A run refers only to what it refers to at its start. -/
theorem Config.Below.run {c : Config} {t : BindingTable} (hc : c.Below bound) (ht : t.Below bound)
    (clock : Nat → Float) (steps : Nat) : (c.run ⟨t, clock⟩ steps).Below bound := fun r hr => by
  rw [Config.run_renumber (ht.agrees hr clock), hc r hr]

/-- A run does not depend on what a table says of references from the bound on. -/
theorem Config.Below.run_congr {c : Config} {t u : BindingTable} (hc : c.Below bound)
    (ht : t.Below bound) (hu : u.Below bound') (h : ∀ i : Nat, i < bound → u[i]? = t[i]?)
    (clock : Nat → Float) (steps : Nat) : c.run ⟨u, clock⟩ steps = c.run ⟨t, clock⟩ steps := by
  have hkeeps := Renumbering.keeps_beyond bound bound'
  have hagrees : Setting.Agrees (.beyond bound bound') ⟨t, clock⟩ ⟨u, clock⟩ := by
    refine ⟨fun i => ?_, rfl⟩
    by_cases hi : i < bound
    · rw [hkeeps.below i hi]
      exact h i hi
    · have hi := Nat.le_of_not_lt hi
      rw [Renumbering.beyond_start_of_le bound bound' hi]
      exact (hu _ (Nat.le_add_left bound' i)).trans (ht i hi).symm
  rw [← hc.run ht clock steps _ hkeeps, Config.run_renumber hagrees, hc _ hkeeps]

namespace Program

/-- The references of a program are places in its text. -/
theorem below_of_ofText {source : String} {offset : Nat} {p : Program}
    (h : (ofText source offset).parsed = .ok p) : p.Below (offset + source.length + 1) := by
  intro r hr
  have hfixed : ∀ i, offset ≤ i → i ≤ offset + source.length → r.start i = i + 0 :=
    fun i _ hi => hr.below i (Nat.lt_succ_of_le hi)
  have hmoved := (ofText_moved hr.line hfixed).2
  rw [Nat.add_zero, h] at hmoved
  exact (Except.ok.inj hmoved).symm

/-- A renumbering that leaves a program as it is leaves its references as they are. -/
theorem start_of_mem_bindings {r : Renumbering} {p : Program} (h : p.map (Stmt.renumber r) = p) :
    ∀ entry ∈ p.findings.bindings, r.start entry.1 = entry.1 := by
  intro entry hentry
  have hfixed := congrArg (fun p => (findings p).bindings) h
  simp only [findings_renumber, Findings.renumber] at hfixed
  have hmem := (List.map_inj_left.1 (hfixed.trans (List.map_id _).symm)) entry hentry
  exact congrArg Prod.fst hmem

theorem Below.entries {p : Program} (h : p.Below bound) :
    ∀ entry ∈ p.findings.bindings, entry.1 < bound := by
  intro entry hentry
  by_contra hle
  have hstart := start_of_mem_bindings (h _ (Renumbering.keeps_beyond bound 1)) entry hentry
  rw [Renumbering.beyond_start_of_le bound 1 (Nat.le_of_not_lt hle)] at hstart
  omega

/-- The references of a program do not come before its text. -/
theorem le_of_mem_bindings {source : String} {offset : Nat} {p : Program}
    (h : (ofText source offset).parsed = .ok p) (herrors : p.findings.errors = []) :
    ∀ entry ∈ p.findings.bindings, offset ≤ entry.1 := by
  intro entry hentry
  have hsite := (Stmt.bindingsAll_perm p herrors).mem_iff.1 hentry
  obtain ⟨site, hsite, hstart, -⟩ := mem_entries.1 hsite
  rw [← hstart]
  exact le_start_of_ofText h (reference_of_mem_sites hsite)

theorem Below.bind {p : Program} {t t' : BindingTable} (h : p.Below bound) (ht : t.Below bound)
    (hbind : p.bind t = .ok t') : t'.Below bound := by
  obtain ⟨-, rfl⟩ := bind_eq_ok_iff.1 hbind
  exact ht.extend h.entries

end Program

namespace Session

/-- All references that the session holds are places in the text that it has read. -/
structure HoldsRead (session : Session) : Prop where
  state : session.state.Below session.offset
  bindings : session.bindings.Below session.offset

theorem holdsRead_start : start.HoldsRead where
  state := State.below_start
  bindings := BindingTable.below_empty 0

variable {session : Session}

theorem offset_le_offsetAfter (source : String) :
    session.offset ≤ session.offsetAfter source := by
  rw [offsetAfter, Nat.add_assoc]
  exact Nat.le_add_right _ _

section Accepted

variable {source : String} {p : Program} {t : BindingTable} (h : session.HoldsRead)
  (haccept : session.accept source = .ok (p, t))

include haccept

theorem below_of_accept : p.Below (session.offsetAfter source) :=
  Program.below_of_ofText (accept_eq_ok_iff.1 haccept).2.1

include h

theorem HoldsRead.table : t.Below (session.offsetAfter source) :=
  (below_of_accept haccept).bind (h.bindings.mono (offset_le_offsetAfter source))
    (accept_eq_ok_iff.1 haccept).2.2

/-- A line refers only to what was read up to its end. -/
theorem HoldsRead.ofProgram :
    (Config.ofProgram p { session.state with output := "" }).Below
      (session.offsetAfter source) := by
  refine Config.below_ofProgram (below_of_accept haccept) fun r hr => ?_
  exact (h.state.mono (offset_le_offsetAfter source)).renumber_output r hr ""

theorem HoldsRead.runProgram (clock : Nat → Float) (steps : Nat) :
    (session.runProgram clock steps p t).Below (session.offsetAfter source) :=
  (h.ofProgram haccept).run (h.table haccept) clock steps

end Accepted

theorem HoldsRead.run (h : session.HoldsRead) (clock : Nat → Float) (steps : Nat)
    (source : String) : (session.run clock steps source).2.HoldsRead := by
  rcases session.run_cases clock steps source with ⟨errors, -, hrun⟩ | ⟨p, t, haccept, hrun⟩
  · rw [hrun]
    exact ⟨h.state.mono (offset_le_offsetAfter source),
      h.bindings.mono (offset_le_offsetAfter source)⟩
  · rw [hrun]
    exact ⟨(h.runProgram haccept clock steps).state, h.table haccept⟩

theorem HoldsRead.afterAll (h : session.HoldsRead) (clock : Nat → Float) (steps : Nat)
    (lines : List String) : (session.afterAll clock steps lines).HoldsRead := by
  induction lines generalizing session with
  | nil => exact h
  | cons line lines ih => exact ih (h.run clock steps line)

end Session

end Lox
