import Lox.Proofs.Lexical.Heap

set_option autoImplicit false

/-! # States that fit

A state with a current environment fits one with a view if their stores fit and the current scopes
lead to the same cells from both. One lemma for each way in which a step changes a state says that
the states fit afterwards, and which environments the world may have got variables in.
-/

namespace Lox.Lexical

namespace World

variable (t : BindingTable) (own : List Name)

/-- The stores fit. -/
structure StoreFits (w : World) (st : Lox.Store) (st' : Store) : Prop where
  vars : w.VariablesFit st st'
  heap : w.HeapFits t own st.toHeap st'.toHeap

/-- The scopes are those of an environment and of a view. -/
structure At (w : World) (scopes : Scopes) (e : EnvId) (view : View) (st : Lox.Store) : Prop where
  sees : w.Sees scopes e view
  exact : w.Exact scopes e
  lt : e < st.environments.size

/-- The states fit among scopes. -/
structure StateFits (w : World) (scopes : Scopes) (st : Lox.State) (st' : State) : Prop where
  store : w.StoreFits t own st.store st'.store
  place : w.At scopes st.env st'.view st.store
  calls : st'.calls = st.calls
  output : st'.output = st.output
  ticks : st'.ticks = st.ticks

variable {t own} {w w' : World} {scopes : Scopes} {e k : EnvId} {name : String} {v : Value}

theorem At.grow {view : View} {st st₂ : Lox.Store} (h : w.At scopes e view st)
    (hgrows : w.Grows w' st.environments.size)
    (hle : st.environments.size ≤ st₂.environments.size) : w'.At scopes e view st₂ :=
  ⟨h.sees.grow hgrows, h.exact.grow hgrows h.lt, Nat.lt_of_lt_of_le h.lt hle⟩

theorem At.declare {view : View} {st : Lox.Store} (h : w.At scopes e view st) (name : String) :
    w.At (scopes.declare name) e view st :=
  ⟨h.sees.declare name, h.exact.declare name, h.lt⟩

/-! ## Stores -/

namespace StoreFits

variable {st : Lox.Store} {st' : Store}

theorem ne_global {view : View} (h : w.StoreFits t own st st') (hplace : w.At scopes e view st)
    (hlocal : scopes.isEmpty = false) : e ≠ globalEnv := by
  rintro rfl
  obtain ⟨hsees, -, -⟩ := hplace
  cases hsees with
  | top => cases hlocal
  | scope hlink =>
      rw [h.vars.enclosing, h.vars.root] at hlink
      cases hlink

/-- A new environment in which nothing is declared. -/
theorem newScope {view : View} (h : w.StoreFits t own st st') (hsees : w.Sees scopes e view)
    (hsettled : scopes.Settled) :
    ∃ w', w.Grows w' st.environments.size ∧
      w'.StoreFits t own (st.newEnvironment (some e)).2 st' ∧
        w'.At ([] :: scopes) st.environments.size view.enter (st.newEnvironment (some e)).2 := by
  have hnone : w.enclosing st.environments.size = none := by
    rw [h.vars.enclosing, Lox.Store.enclosing?_eq_none st _ (Nat.le_refl _)]
  have hgrows := grows_link hnone e st.environments.size
  refine ⟨_, hgrows, ⟨h.vars.link e, h.heap.grow hgrows⟩, ?_, fun name c hc => ?_, ?_⟩
  · exact (hsees.grow hgrows).enter hsettled (if_pos rfl)
  · exact absurd (h.vars.env_lt _ name c hc) (Nat.lt_irrefl _)
  · rw [Lox.Store.size_newEnvironment]
    exact Nat.lt_succ_self _

/-- A new local variable. -/
theorem newVariable {view : View} (h : w.StoreFits t own st st') (hplace : w.At scopes e view st)
    (hlocal : scopes.isEmpty = false) (hnew : scopes.isReady name = false)
    (hv : SelfValue name v) :
    ∃ w', w.Grows w' e ∧ w'.StoreFits t own (st.define e name v) (st'.newCell v).2 ∧
      w'.At (scopes.define name) e (view.bind name st'.cells.size) (st.define e name v) := by
  -- An environment has only what is ready, so it does not have the new name.
  have hcell : w.cell e name = none := by
    cases hc : w.cell e name with
    | none => rfl
    | some c =>
        rw [hplace.exact name c hc] at hnew
        cases hnew
  have hgrows := grows_bind (c := st'.cells.size) hcell
  refine ⟨_, hgrows, ⟨?_, h.heap.grow hgrows⟩, ?_, ?_, ?_⟩
  · exact h.vars.bind (h.ne_global hplace hlocal) hplace.lt hv
  · exact hplace.sees.bind hlocal hcell
  · exact hplace.exact.bind hlocal
  · rw [Lox.Store.size_define]
    exact hplace.lt

theorem newFunction {c : Closure EnvId} {c' : Closure View} (h : w.StoreFits t own st st')
    (hc : w.FunctionFits t own c c') :
    w.StoreFits t own (st.newFunction c).2 (st'.newFunction c').2 :=
  ⟨h.vars.withHeap _ _, h.heap.functions.push hc, h.heap.classes, h.heap.instances, h.heap.natives⟩

theorem newClass {c : ClassObject EnvId} {c' : ClassObject View} (h : w.StoreFits t own st st')
    (hc : w.ClassFits t own c c') : w.StoreFits t own (st.newClass c).2 (st'.newClass c').2 :=
  ⟨h.vars.withHeap _ _, h.heap.functions, h.heap.classes.push hc, h.heap.instances, h.heap.natives⟩

theorem newInstance (h : w.StoreFits t own st st') (cls : ClassId) :
    w.StoreFits t own (st.newInstance cls).2 (st'.newInstance cls).2 :=
  ⟨h.vars.withHeap _ _, h.heap.functions, h.heap.classes,
    congrArg (Array.push · _) h.heap.instances, h.heap.natives⟩

theorem setField (h : w.StoreFits t own st st') (object : InstanceId) (name : String)
    (v : Value) :
    w.StoreFits t own (st.setField object name v) (st'.setField object name v) := by
  refine ⟨h.vars.withHeap _ _, h.heap.functions, h.heap.classes, ?_, h.heap.natives⟩
  rw [Store.setField, Lox.Store.setField, h.heap.instances]

/-- A method is bound to an instance: a new environment holds `this`. -/
theorem bind {m : Closure EnvId} {m' : Closure View} (h : w.StoreFits t own st st')
    (hm : w.MethodFits t own m m') (object : InstanceId) :
    ∃ w', w.Grows w' st.environments.size ∧
      w'.StoreFits t own (st.bind m object).2 (st'.bind m' object).2 ∧
        w'.FunctionFits t own (st.bind m object).1 (st'.bind m' object).1 := by
  obtain ⟨scopes, hsees, hsettled, hbound⟩ := hm.place
  obtain ⟨w₁, hgrows₁, h₁, hplace₁⟩ := h.newScope hsees hsettled
  have hv : SelfValue "this" (.instanceRef object) :=
    ⟨fun _ => ⟨object, rfl⟩, fun heq => absurd heq (by decide)⟩
  obtain ⟨w₂, hgrows₂, h₂, hplace₂⟩ := h₁.newVariable hplace₁ rfl rfl hv
  refine ⟨w₂, hgrows₁.trans hgrows₂, h₂, hm.decl, hm.isInitializer,
    ⟨_, hplace₂.sees, fun name => ?_, hbound⟩, fun _ => ?_⟩
  · exact (Scopes.settled_block scopes).define "this" name
  · have hhops : Scopes.hops? (Scopes.define ([] :: scopes) "this") "this" = some 0 := rfl
    obtain ⟨a, c, ha, hc, hview⟩ := hplace₂.sees.exists_cell rfl hhops
    cases ha
    exact ⟨c, hc, hview⟩

@[inherit_doc bind]
theorem bindValue {m : Closure EnvId} {m' : Closure View} (h : w.StoreFits t own st st')
    (hm : w.MethodFits t own m m') (object : InstanceId) :
    (st'.bindValue m' object).1 = (st.bindValue m object).1 ∧
      ∃ w', w.Grows w' st.environments.size ∧
        w'.StoreFits t own (st.bindValue m object).2 (st'.bindValue m' object).2 := by
  obtain ⟨w', hgrows, h', hc⟩ := h.bind hm object
  exact ⟨congrArg Value.functionRef h.heap.functions.size_eq.symm, w', hgrows, h'.newFunction hc⟩

end StoreFits

/-! ## States -/

namespace StateFits

variable {st : Lox.State} {st' : State}

theorem isLocal_eq (h : w.StateFits t own scopes st st') :
    st'.view.isLocal = !scopes.isEmpty := h.place.sees.isLocal_eq

/-- The stores are changed, but nothing in environments that were there. -/
theorem withStore {R : Lox.Store} {R' : Store} (h : w.StateFits t own scopes st st')
    (hgrows : w.Grows w' st.store.environments.size) (hstore : w'.StoreFits t own R R')
    (hle : st.store.environments.size ≤ R.environments.size) :
    w'.StateFits t own scopes { st with store := R } { st' with store := R' } :=
  ⟨hstore, h.place.grow hgrows hle, h.calls, h.output, h.ticks⟩

/-- Among no scopes, the current environment is the global one. -/
theorem top (h : w.StateFits t own [] st st') : st.env = globalEnv ∧ st'.view = .top := by
  obtain ⟨hsees, -, -⟩ := h.place
  generalize st.env = e at hsees
  generalize st'.view = view at hsees
  cases hsees
  exact ⟨rfl, rfl⟩

/-- A variable is declared. -/
theorem declare (h : w.StateFits t own scopes st st') (hnew : scopes.isReady name = false)
    (hv : SelfValue name v) :
    ∃ w', w.Grows w' st.env ∧
      w'.StateFits t own (scopes.define name) (st.define name v) (st'.declare name v) := by
  cases hlocal : scopes.isEmpty with
  | true =>
      -- At the top level a declaration is an assignment in the table of global variables.
      rw [List.isEmpty_iff] at hlocal
      subst hlocal
      obtain ⟨henv, hview⟩ := h.top
      have hdeclare : st'.declare name v =
          { st' with store := st'.store.setGlobal name v } := by
        rw [State.declare, h.isLocal_eq]
        rfl
      refine ⟨w, .refl w _, ?_⟩
      rw [hdeclare, Lox.State.define]
      have hvars := h.store.vars.setGlobal name v
      rw [← henv] at hvars
      exact ⟨⟨hvars, h.store.heap⟩, ⟨h.place.sees, h.place.exact, by
        rw [Lox.Store.size_define]
        exact h.place.lt⟩, h.calls, h.output, h.ticks⟩
  | false =>
      obtain ⟨w', hgrows, hstore, hplace⟩ := h.store.newVariable h.place hlocal hnew hv
      have hdeclare : st'.declare name v =
          { st' with
            store := (st'.store.newCell v).2
            view := st'.view.bind name st'.store.cells.size } := by
        rw [State.declare, h.isLocal_eq, hlocal]
        rfl
      rw [hdeclare]
      exact ⟨w', hgrows, hstore, hplace, h.calls, h.output, h.ticks⟩

/-- The variable that the current environment holds is overwritten. -/
theorem put (h : w.StateFits t own scopes st st')
    (hready : scopes.isEmpty = true ∨ scopes.isReady name = true) (hv : SelfValue name v) :
    w.StateFits t own scopes (st.define name v) (st'.put name v) := by
  have hlt : st.env < (st.store.define st.env name v).environments.size := by
    rw [Lox.Store.size_define]
    exact h.place.lt
  cases scopes with
  | nil =>
      obtain ⟨henv, hview⟩ := h.top
      have hput : st'.put name v = { st' with store := st'.store.setGlobal name v } := by
        rw [State.put, hview]
        rfl
      rw [hput]
      have hvars := h.store.vars.setGlobal name v
      rw [← henv] at hvars
      exact ⟨⟨hvars, h.store.heap⟩, ⟨h.place.sees, h.place.exact, hlt⟩, h.calls, h.output,
        h.ticks⟩
  | cons s outer =>
      -- The name is no links out, so its cell is one of the current environment.
      have hname : s.isReady name = true := hready.resolve_left Bool.false_ne_true
      have hpending : Scopes.isPending (s :: outer) name = false := by
        rw [Scope.isReady, beq_iff_eq] at hname
        rw [Scopes.isPending, Scope.isPending, hname]
        rfl
      have hhops : Scopes.hops? (s :: outer) name = some 0 := by
        rw [Scopes.hops?_cons, Scope.declares_eq, hname]
        rfl
      obtain ⟨a, c, ha, hc, hview⟩ := h.place.sees.exists_cell hpending hhops
      cases ha
      have hput : st'.put name v = { st' with store := st'.store.setCell c v } := by
        rw [State.put, hview]
      rw [hput]
      exact ⟨⟨h.store.vars.overwrite hc hv, h.store.heap⟩,
        ⟨h.place.sees, h.place.exact, hlt⟩, h.calls, h.output, h.ticks⟩

end StateFits

end World

end Lox.Lexical
