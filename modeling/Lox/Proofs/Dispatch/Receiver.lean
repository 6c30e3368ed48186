import Lox.Proofs.Dispatch.Observer
import Lox.Proofs.Dispatch.Place
import Lox.Proofs.Store.Aligned
import Lox.Proofs.Store.Environment

set_option autoImplicit false

/-! # Where receivers are kept

The machine keeps the instance that code acts for in an environment that holds `this`, and the class
of a superclass clause in one that holds `super`. A receiver fits an environment if these are where
the place of the code says (`Receiver.Fits`). No step changes such a variable, a link between
environments or a class that was declared (`Store.Keeps`), so what fits goes on fitting.
-/

namespace Lox

/-! ## What no step changes -/

/-- Links between environments, variables for `this` and `super`, and classes are all kept. -/
structure Store.Keeps (st st' : Store) : Prop where
  enclosing : ∀ e o, st.enclosing? e = some o → st'.enclosing? e = some o
  lookup : ∀ e name v, name = "this" ∨ name = "super" → st.lookupIn? e name = some v →
    st'.lookupIn? e name = some v
  classes : ∀ (cls : ClassId) (c : ClassObject EnvId), st.classes[cls]? = some c →
    st'.classes[cls]? = some c

namespace Store

variable {st st' st'' : Store}

theorem Keeps.refl (st : Store) : st.Keeps st :=
  ⟨fun _ _ h => h, fun _ _ _ _ h => h, fun _ _ h => h⟩

theorem Keeps.trans (h : st.Keeps st') (h' : st'.Keeps st'') : st.Keeps st'' where
  enclosing e o ho := h'.enclosing e o (h.enclosing e o ho)
  lookup e name v hname hv := h'.lookup e name v hname (h.lookup e name v hname hv)
  classes cls c hc := h'.classes cls c (h.classes cls c hc)

/-- Nothing but functions, instances and classes is new. -/
theorem Keeps.of_heap {heap : Heap EnvId}
    (h : ∀ (cls : ClassId) (c : ClassObject EnvId), st.classes[cls]? = some c →
      heap.classes[cls]? = some c) : st.Keeps { st with toHeap := heap } :=
  ⟨fun _ _ h => h, fun _ _ _ _ h => h, h⟩

theorem Keeps.newFunction (st : Store) (c : Closure EnvId) : st.Keeps (st.newFunction c).2 :=
  .of_heap fun _ _ h => h

theorem Keeps.newClass (st : Store) (c : ClassObject EnvId) : st.Keeps (st.newClass c).2 := by
  refine .of_heap fun cls d hd => ?_
  obtain ⟨hlt, rfl⟩ := Array.getElem?_eq_some_iff.1 hd
  exact Array.getElem?_push_lt hlt

theorem Keeps.newEnvironment (st : Store) (enclosing : Option EnvId) :
    st.Keeps (st.newEnvironment enclosing).2 where
  enclosing e o ho := by
    rw [enclosing?_newEnvironment, if_neg, ho]
    rintro rfl
    rw [enclosing?_eq_none st _ (Nat.le_refl _)] at ho
    cases ho
  lookup e name v _ hv := by rw [lookupIn?_newEnvironment, hv]
  classes _ _ h := h

/-- A definition of another name, or in an environment that does not have the name, keeps all. -/
theorem Keeps.define {e : EnvId} {name : String} (v : Value)
    (h : name = "this" ∨ name = "super" → st.lookupIn? e name = none) :
    st.Keeps (st.define e name v) where
  enclosing a o ho := by rw [enclosing?_define, ho]
  lookup a n v' hn hv' := by
    have hlt : a < st.environments.size := by
      by_contra hle
      rw [lookupIn?_eq_none st a n (Nat.le_of_not_lt hle)] at hv'
      cases hv'
    by_cases he : e < st.environments.size
    · rw [lookupIn?_define st e a name n v he, if_neg, hv']
      rintro ⟨rfl, rfl⟩
      rw [h hn] at hv'
      cases hv'
    · rw [lookupIn?, Store.define, Array.getElem?_modify, if_neg, ← lookupIn?, hv']
      rintro rfl
      exact he hlt
  classes _ _ h := h

theorem Keeps.define_ordinary {n : Name} (hn : n.Ordinary) (e : EnvId) (v : Value) :
    st.Keeps (st.define e n.text v) :=
  .define v fun h => (h.elim hn.ne_this hn.ne_super).elim

theorem Keeps.defineAll {ns : List Name} (hns : ∀ n ∈ ns, n.Ordinary) (e : EnvId)
    (vs : List Value) : st.Keeps (st.defineAll e ((ns.map Name.text).zip vs)) := by
  induction ns generalizing st vs with
  | nil => exact .refl st
  | cons n ns ih =>
      rw [List.forall_mem_cons] at hns
      cases vs with
      | nil => exact .refl st
      | cons v vs => exact (Keeps.define_ordinary hns.1 e v).trans (ih hns.2 vs)

/-- An environment of its own for one variable. -/
theorem Keeps.newVariable (st : Store) (o : EnvId) (name : String) (v : Value) :
    st.Keeps ((st.newEnvironment (some o)).2.define st.environments.size name v) := by
  refine (Keeps.newEnvironment st (some o)).trans (.define v fun _ => ?_)
  rw [lookupIn?_newEnvironment, lookupIn?_eq_none st _ name (Nat.le_refl _)]

theorem Keeps.bind (st : Store) (m : Closure EnvId) (object : InstanceId) :
    st.Keeps (st.bind m object).2 :=
  .newVariable st m.env "this" (.instanceRef object)

theorem lookupIn?_newVariable (st : Store) (o : EnvId) (own name : String) (v : Value) :
    ((st.newEnvironment (some o)).2.define st.environments.size own v).lookupIn?
      st.environments.size name = if name = own then some v else none := by
  refine (lookupIn?_define _ _ _ own name v (st.lt_size_newEnvironment (some o))).trans ?_
  rw [lookupIn?_newEnvironment, lookupIn?_eq_none st _ name (Nat.le_refl _)]
  simp only [true_and]

theorem getAt?_newVariable (st : Store) (o : EnvId) (name : String) (v : Value) :
    ((st.newEnvironment (some o)).2.define st.environments.size name v).getAt?
      st.environments.size 0 name = some v :=
  (lookupIn?_newVariable st o name name v).trans (if_pos rfl)

theorem enclosing?_newVariable (st : Store) (o : EnvId) (name : String) (v : Value) :
    ((st.newEnvironment (some o)).2.define st.environments.size name v).enclosing?
      st.environments.size = some o := by
  rw [enclosing?_define, enclosing?_newEnvironment, if_pos rfl]

/-! ## Variables some environments out -/

theorem getAt?_succ {e o : EnvId} (h : st.enclosing? e = some o) (hops : Nat) (name : String) :
    st.getAt? e (hops + 1) name = st.getAt? o hops name := by
  rw [getAt?, getAt?, ancestor?, h]

theorem Keeps.getAt? (h : st.Keeps st') {e : EnvId} {hops : Nat} {name : String} {v : Value}
    (hname : name = "this" ∨ name = "super") (hv : st.getAt? e hops name = some v) :
    st'.getAt? e hops name = some v := by
  induction hops generalizing e with
  | zero => exact h.lookup e name v hname hv
  | succ hops ih =>
      cases ho : st.enclosing? e with
      | none =>
          rw [Store.getAt?, ancestor?, ho] at hv
          cases hv
      | some o =>
          rw [getAt?_succ ho] at hv
          rw [getAt?_succ (h.enclosing e o ho)]
          exact ih hv

end Store

/-! ## Receivers -/

/-- The receiver is one of code in a method of its class, and the reference stands in this method
and in no class in it. -/
structure Receiver.Encloses (st : Store) (r : Receiver) (reference : Reference) : Prop where
  reference : reference ∈ r.method.ownReferences
  holder : ∃ c, st.classes[r.holder]? = some c ∧ r.method ∈ c.methods.map (·.2.decl)

/-- From an environment, the place leads to what the receiver says. -/
structure Receiver.Fits (st : Store) (clauses : Array (Option ClassId)) (e : EnvId)
    (p : MethodPlace) (r : Receiver) : Prop where
  method : r.method = p.method
  holder : ∃ c, st.classes[r.holder]? = some c ∧ r.method ∈ c.methods.map (·.2.decl)
  this : st.getAt? e p.depth "this" = some (.instanceRef r.object)
  super : p.subclass = true → ∃ above, clauses[r.holder]? = some (some above) ∧
    st.getAt? e (p.depth + 1) "super" = some (.classRef above)

/-- Code in a method has a receiver, which fits the environment. -/
def Receiver.FitsAt (st : Store) (clauses : Array (Option ClassId)) (e : EnvId)
    (place : Option MethodPlace) (receiver : Option Receiver) : Prop :=
  ∀ p, place = some p → ∃ r, receiver = some r ∧ r.Fits st clauses e p

namespace Receiver

variable {st st' : Store} {clauses clauses' : Array (Option ClassId)} {e : EnvId}
  {place : Option MethodPlace} {receiver : Option Receiver}

/-- Clauses that are recorded stay recorded. -/
def ClausesGrow (clauses clauses' : Array (Option ClassId)) : Prop :=
  ∀ (cls : ClassId) (clause : Option ClassId), clauses[cls]? = some clause →
    clauses'[cls]? = some clause

theorem FitsAt.none : FitsAt st clauses e none receiver := fun _ h => nomatch h

theorem FitsAt.keep (h : FitsAt st clauses e place receiver) (hkeeps : st.Keeps st')
    (hgrow : ClausesGrow clauses clauses') : FitsAt st' clauses' e place receiver := by
  intro p hp
  obtain ⟨r, hr, hfits⟩ := h p hp
  obtain ⟨c, hc, hmethod⟩ := hfits.holder
  refine ⟨r, hr, hfits.method, ⟨c, hkeeps.classes _ c hc, hmethod⟩,
    hkeeps.getAt? (.inl rfl) hfits.this, fun hsubclass => ?_⟩
  obtain ⟨above, habove, hsuper⟩ := hfits.super hsubclass
  exact ⟨above, hgrow _ _ habove, hkeeps.getAt? (.inr rfl) hsuper⟩

/-- Code in a block, or in a function, that stands in a method. -/
theorem FitsAt.inner {a : EnvId} (h : FitsAt st clauses e place receiver)
    (henclosing : st.enclosing? a = some e) :
    FitsAt st clauses a (place.map .inner) receiver := by
  intro p hp
  obtain ⟨q, hq, rfl⟩ := Option.map_eq_some_iff.1 hp
  obtain ⟨r, hr, hfits⟩ := h q hq
  refine ⟨r, hr, hfits.method, hfits.holder, ?_, fun hsubclass => ?_⟩
  · exact (Store.getAt?_succ henclosing _ _).trans hfits.this
  · obtain ⟨above, habove, hsuper⟩ := hfits.super hsubclass
    exact ⟨above, habove, (Store.getAt?_succ henclosing _ _).trans hsuper⟩

end Receiver

/-! ## Functions and classes -/

/-- A method of a class, to be bound to an instance. -/
structure Closure.FitsMethod (t : BindingTable) (st : Store) (clause : Option ClassId)
    (m : Closure EnvId) : Prop where
  placed : m.decl.Placed t (some ⟨0, m.decl, clause.isSome⟩)
  super : ∀ above, clause = some above → st.getAt? m.env 0 "super" = some (.classRef above)

/-- A function is placed, and its receiver fits the environment that it is closed over. -/
def Receiver.FitsFunction (t : BindingTable) (st : Store) (clauses : Array (Option ClassId))
    (receiver : Option Receiver) (c : Closure EnvId) : Prop :=
  ∃ place, c.decl.Placed t place ∧ FitsAt st clauses c.env place receiver

/-- The methods of a class whose superclass clause gave this, if it has one. -/
def ClassObject.FitsClause (t : BindingTable) (st : Store) (clause : Option ClassId)
    (c : ClassObject EnvId) : Prop :=
  ∀ m ∈ c.methods, m.2.FitsMethod t st clause

/-- What is recorded of functions and classes fits them. -/
structure Dispatch.FitsStore (t : BindingTable) (d : Dispatch) (st : Store) : Prop where
  functions : Aligned (Receiver.FitsFunction t st d.clauses) d.functions st.functions
  classes : Aligned (ClassObject.FitsClause t st) d.clauses st.classes

namespace Receiver.ClausesGrow

theorem refl (clauses : Array (Option ClassId)) : ClausesGrow clauses clauses :=
  fun _ _ h => h

theorem push (clauses : Array (Option ClassId)) (clause : Option ClassId) :
    ClausesGrow clauses (clauses.push clause) := by
  intro cls old hold
  obtain ⟨hlt, rfl⟩ := Array.getElem?_eq_some_iff.1 hold
  exact Array.getElem?_push_lt hlt

end Receiver.ClausesGrow

/-- A method that is found on an instance, and the receiver that says so. -/
structure Receiver.FitsMethod (t : BindingTable) (st : Store) (clauses : Array (Option ClassId))
    (m : Closure EnvId) (r : Receiver) : Prop where
  method : r.method = m.decl
  holder : ∃ c, st.classes[r.holder]? = some c ∧ r.method ∈ c.methods.map (·.2.decl)
  clause : ∃ clause, clauses[r.holder]? = some clause ∧ m.FitsMethod t st clause

section Kept

variable {t : BindingTable} {st st' : Store} {clauses clauses' : Array (Option ClassId)}
  {clause : Option ClassId} {m : Closure EnvId}

theorem Closure.FitsMethod.keep (h : m.FitsMethod t st clause) (hkeeps : st.Keeps st') :
    m.FitsMethod t st' clause :=
  ⟨h.placed, fun above habove => hkeeps.getAt? (.inr rfl) (h.super above habove)⟩

theorem ClassObject.FitsClause.keep {c : ClassObject EnvId} (h : c.FitsClause t st clause)
    (hkeeps : st.Keeps st') : c.FitsClause t st' clause :=
  fun m hm => (h m hm).keep hkeeps

theorem Receiver.FitsFunction.keep {receiver : Option Receiver} {c : Closure EnvId}
    (h : FitsFunction t st clauses receiver c) (hkeeps : st.Keeps st')
    (hgrow : ClausesGrow clauses clauses') : FitsFunction t st' clauses' receiver c := by
  obtain ⟨place, hplaced, hfits⟩ := h
  exact ⟨place, hplaced, hfits.keep hkeeps hgrow⟩

theorem Receiver.FitsMethod.keep {r : Receiver} (h : r.FitsMethod t st clauses m)
    (hkeeps : st.Keeps st') : r.FitsMethod t st' clauses m := by
  obtain ⟨c, hc, hmem⟩ := h.holder
  obtain ⟨clause, hclause, hmethod⟩ := h.clause
  exact ⟨h.method, ⟨c, hkeeps.classes _ c hc, hmem⟩, clause, hclause, hmethod.keep hkeeps⟩

/-- A method that is bound to the instance of its receiver is at the place of the method. -/
theorem Receiver.FitsMethod.bind {r : Receiver} (h : r.FitsMethod t st clauses m) :
    FitsFunction t (st.bind m r.object).2 clauses (some r) (st.bind m r.object).1 := by
  have hkeeps := Store.Keeps.bind st m r.object
  obtain ⟨c, hc, hmem⟩ := h.holder
  obtain ⟨clause, hclause, hmethod⟩ := h.clause
  refine ⟨_, hmethod.placed, fun p hp => ?_⟩
  cases hp
  refine ⟨r, rfl, h.method, ⟨c, hkeeps.classes _ c hc, hmem⟩,
    Store.getAt?_newVariable st m.env "this" (.instanceRef r.object), fun hsubclass => ?_⟩
  obtain ⟨above, rfl⟩ := Option.isSome_iff_exists.1 hsubclass
  refine ⟨above, hclause, ?_⟩
  -- `super` is where the method was declared, which is around the new environment.
  exact (Store.getAt?_succ (Store.enclosing?_newVariable st m.env "this" _) 0 "super").trans
    (hkeeps.getAt? (.inr rfl) (hmethod.super above rfl))

end Kept

namespace Dispatch.FitsStore

variable {t : BindingTable} {d : Dispatch} {st st' : Store}

/-- Variables, environments and instances change, and nothing that the observer records. -/
theorem keep (h : d.FitsStore t st) (hkeeps : st.Keeps st')
    (hfunctions : st'.functions = st.functions) (hclasses : st'.classes = st.classes) :
    d.FitsStore t st' where
  functions := by
    rw [hfunctions]
    exact h.functions.mono fun _ _ hc => hc.keep hkeeps (.refl _)
  classes := by
    rw [hclasses]
    exact h.classes.mono fun _ _ hc => hc.keep hkeeps

theorem addFunction {c : Closure EnvId} {receiver : Option Receiver} (h : d.FitsStore t st)
    (hc : Receiver.FitsFunction t st d.clauses receiver c) :
    (d.addFunction receiver).FitsStore t (st.newFunction c).2 := by
  have hkeeps := Store.Keeps.newFunction st c
  have hold := h.functions.mono fun _ _ hc => hc.keep hkeeps (.refl _)
  exact ⟨hold.push (hc.keep hkeeps (.refl _)), h.classes.mono fun _ _ hc => hc.keep hkeeps⟩

theorem addClass {c : ClassObject EnvId} {clause : Option ClassId} (h : d.FitsStore t st)
    (hc : c.FitsClause t st clause) : (d.addClass clause).FitsStore t (st.newClass c).2 := by
  have hkeeps := Store.Keeps.newClass st c
  have hold := h.classes.mono fun _ _ hc => hc.keep hkeeps
  exact ⟨h.functions.mono fun _ _ hc => hc.keep hkeeps (.push d.clauses clause),
    hold.push (hc.keep hkeeps)⟩

/-- Which code is running says nothing about functions and classes. -/
theorem turn (h : d.FitsStore t st) (current : Option Receiver)
    (callers : List (Option Receiver)) : { d with current, callers }.FitsStore t st :=
  ⟨h.functions, h.classes⟩

/-- A method that is found on an instance fits the receiver that says so. -/
theorem exists_receiver {cls : ClassId} {name : String} {m : Closure EnvId} (h : d.FitsStore t st)
    (hm : st.method? cls name = some m) (object : InstanceId) :
    ∃ r, Receiver.of? st.toHeap object cls name = some r ∧ r.object = object ∧
      r.FitsMethod t st d.clauses m := by
  rw [← Heap.map_locate?, Option.map_eq_some_iff] at hm
  obtain ⟨⟨holder, m⟩, hlocate, rfl⟩ := hm
  obtain ⟨c, hc, hmem⟩ := Heap.mem_methods_of_locate? hlocate
  obtain ⟨clause, hclause, hmethods⟩ := h.classes.exists_left hc
  exact ⟨⟨object, holder, m.decl⟩, by rw [Receiver.of?, hlocate]; rfl, rfl, rfl,
    ⟨c, hc, List.mem_map_of_mem hmem⟩, clause, hclause, hmethods _ hmem⟩

end Dispatch.FitsStore

end Lox
