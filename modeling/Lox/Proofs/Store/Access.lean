import Lox.Machine.Step
import Lox.Proofs.Store.Environment
import Mathlib.Data.Nat.Find

set_option autoImplicit false

/-! # One variable at a time

Environments form a tree: each is made inside one that is already there, and many may be made inside
the same one (`Store.Built`). The search for a name goes outward and stops at the nearest
environment that binds it (`Store.Nearest`), so it finds what the walk to the distance of that
environment finds. Writing changes this one variable, and nothing else in the store
(`Store.Overwrites`).

Main statement: `Store.Built.accesses_one`.
-/

namespace Lox

namespace Store

/-- The environments were made, and their variables changed, one operation after another. What else
the store holds does not matter. -/
inductive Built : Store → Prop
  | empty : Built .empty
  | root {st : Store} (h : st.Built) : (st.newEnvironment none).2.Built
  | inside {st : Store} {outer : EnvId} (h : st.Built) (houter : outer < st.environments.size) :
      (st.newEnvironment (some outer)).2.Built
  | define {st : Store} {e : EnvId} (h : st.Built) (he : e < st.environments.size)
      (name : String) (v : Value) : (st.define e name v).Built
  | assign {st st' : Store} {e : EnvId} {name : String} {v : Value} (h : st.Built)
      (he : e < st.environments.size) (hassign : st.assign? e name v = some st') : st'.Built
  | assignAt {st st' : Store} {e : EnvId} {hops : Nat} {name : String} {v : Value} (h : st.Built)
      (he : e < st.environments.size) (hassign : st.assignAt? e hops name v = some st') : st'.Built
  | heap {st : Store} (h : st.Built) (heap : Heap EnvId) : Built { st with toHeap := heap }

/-- The environment so many links out is the nearest one that binds the name. -/
structure Nearest (st : Store) (e : EnvId) (name : String) (hops : Nat) (a : EnvId) : Prop where
  ancestor : st.ancestor? e hops = some a
  binds : (st.lookupIn? a name).isSome = true
  nearer : ∀ n < hops, st.getAt? e n name = none

/-- One variable has a value now, and nothing else is different: no other variable, no link, no
other object, and there are no more environments than before. -/
structure Overwrites (st : Store) (a : EnvId) (name : String) (v : Value) (st' : Store) :
    Prop where
  lookup : ∀ (e : EnvId) (other : String),
    st'.lookupIn? e other = if e = a ∧ other = name then some v else st.lookupIn? e other
  enclosing : ∀ e : EnvId, st'.enclosing? e = st.enclosing? e
  size : st'.environments.size = st.environments.size
  heap : st'.toHeap = st.toHeap

variable {st st' : Store} {e a outer : EnvId} {name : String} {hops : Nat} {v : Value}

/-! ## Links -/

theorem lt_size_of_lookupIn? (h : (st.lookupIn? e name).isSome = true) :
    e < st.environments.size := by
  by_contra hle
  rw [lookupIn?_eq_none st e name (Nat.le_of_not_lt hle)] at h
  cases h

theorem overwrites_define (h : e < st.environments.size) (name : String) (v : Value) :
    st.Overwrites e name v (st.define e name v) where
  lookup a other := lookupIn?_define st e a name other v h
  enclosing a := enclosing?_define st e a name v
  size := size_define st e name v
  heap := rfl

theorem exists_of_assign? (h : st.assign? e name v = some st') :
    ∃ a, st.binder? e name = some a ∧ st' = st.define a name v := by
  rw [assign?] at h
  split at h
  · exact ⟨_, ‹_›, (Option.some.inj h).symm⟩
  · cases h

theorem exists_of_assignAt? (h : st.assignAt? e hops name v = some st') :
    ∃ a, st.binderAt? e hops name = some a ∧ st' = st.define a name v := by
  rw [assignAt?] at h
  split at h
  · exact ⟨_, ‹_›, (Option.some.inj h).symm⟩
  · cases h

/-- A link leads to an environment that was there before. -/
theorem Built.enclosing_lt (h : st.Built) (houter : st.enclosing? e = some outer) :
    outer < e := by
  induction h with
  | empty =>
      rw [enclosing?_eq_none _ _ (Nat.zero_le e)] at houter
      cases houter
  | @root st h ih =>
      rw [enclosing?_newEnvironment] at houter
      split at houter
      · cases houter
      · exact ih houter
  | @inside st o h ho ih =>
      rw [enclosing?_newEnvironment] at houter
      split at houter
      · cases houter
        subst e
        exact ho
      · exact ih houter
  | define h he name v ih => exact ih (by rwa [enclosing?_define] at houter)
  | assign h he hassign ih =>
      obtain ⟨a, -, rfl⟩ := exists_of_assign? hassign
      exact ih (by rwa [enclosing?_define] at houter)
  | assignAt h he hassign ih =>
      obtain ⟨a, -, rfl⟩ := exists_of_assignAt? hassign
      exact ih (by rwa [enclosing?_define] at houter)
  | heap h heap ih => exact ih houter

/-! ## Distances -/

/-- A walk may be made in two parts. -/
theorem ancestor?_add (st : Store) (e : EnvId) (m n : Nat) :
    st.ancestor? e (m + n) = (st.ancestor? e m).bind (st.ancestor? · n) := by
  induction m generalizing e with
  | zero => simp [ancestor?]
  | succ m ih =>
      rw [Nat.succ_add, ancestor?, ancestor?]
      cases st.enclosing? e with
      | none => rfl
      | some outer => exact ih outer

theorem getAt?_eq_bind (st : Store) (e : EnvId) (hops : Nat) (name : String) :
    st.getAt? e hops name = (st.ancestor? e hops).bind (st.lookupIn? · name) := by
  unfold getAt?
  cases st.ancestor? e hops <;> rfl

theorem isSome_getAt?_iff :
    (st.getAt? e hops name).isSome = true ↔
      ∃ a, st.ancestor? e hops = some a ∧ (st.lookupIn? a name).isSome = true := by
  rw [getAt?_eq_bind]
  cases st.ancestor? e hops <;> simp

theorem binderAt?_eq_some_iff :
    st.binderAt? e hops name = some a ↔
      st.ancestor? e hops = some a ∧ (st.lookupIn? a name).isSome = true := by
  unfold binderAt?
  cases h : st.ancestor? e hops with
  | none => simp
  | some b =>
      by_cases hb : (st.lookupIn? b name).isSome = true
      · simp only [hb, if_true, Option.some.injEq]
        constructor
        · rintro rfl
          exact ⟨rfl, hb⟩
        · exact fun h => h.1
      · simp only [hb, Option.some.injEq]
        constructor
        · intro h
          cases h
        · rintro ⟨rfl, hb'⟩
          exact absurd hb' hb

namespace Nearest

theorem getAt?_eq (h : st.Nearest e name hops a) :
    st.getAt? e hops name = st.lookupIn? a name := by
  rw [getAt?_eq_bind, h.ancestor, Option.bind_some]

theorem zero (h : (st.lookupIn? e name).isSome = true) : st.Nearest e name 0 e :=
  ⟨rfl, h, fun n hn => absurd hn (Nat.not_lt_zero n)⟩

/-- One link further out, if the environment itself does not bind the name. -/
theorem succ (h : st.Nearest outer name hops a) (houter : st.enclosing? e = some outer)
    (hnone : st.lookupIn? e name = none) : st.Nearest e name (hops + 1) a := by
  have hstep : ∀ n, st.getAt? e (n + 1) name = st.getAt? outer n name := by
    intro n
    rw [getAt?, getAt?, ancestor?, houter]
  refine ⟨by rw [ancestor?, houter]; exact h.ancestor, h.binds, fun n hn => ?_⟩
  cases n with
  | zero => exact hnone
  | succ n =>
      rw [hstep]
      exact h.nearer n (by omega)

/-- The nearest environment is at the least distance at which the name is bound. -/
theorem of_getAt? (h : (st.getAt? e hops name).isSome = true)
    (hleast : ∀ n < hops, ¬ (st.getAt? e n name).isSome = true) :
    ∃ a, st.Nearest e name hops a := by
  obtain ⟨a, ha, hbinds⟩ := isSome_getAt?_iff.1 h
  exact ⟨a, ha, hbinds, fun n hn => Option.not_isSome_iff_eq_none.1 (hleast n hn)⟩

/-- There is at most one nearest environment. -/
theorem unique {hops' : Nat} {a' : EnvId} (h : st.Nearest e name hops a)
    (h' : st.Nearest e name hops' a') : hops = hops' ∧ a = a' := by
  have hbound : (st.getAt? e hops name).isSome = true := by rw [h.getAt?_eq, h.binds]
  have hbound' : (st.getAt? e hops' name).isSome = true := by rw [h'.getAt?_eq, h'.binds]
  have hle : hops' ≤ hops := by
    by_contra hlt
    rw [h'.nearer hops (by omega)] at hbound
    cases hbound
  have hge : hops ≤ hops' := by
    by_contra hlt
    rw [h.nearer hops' (by omega)] at hbound'
    cases hbound'
  obtain rfl : hops = hops' := by omega
  exact ⟨rfl, Option.some.inj (h.ancestor.symm.trans h'.ancestor)⟩

end Nearest

/-! ## Searching -/

/-- A name that some environment further out binds has a nearest environment that does. -/
theorem exists_nearest (h : (st.getAt? e hops name).isSome = true) :
    ∃ n a, st.Nearest e name n a := by
  have hex : ∃ n, (st.getAt? e n name).isSome = true := ⟨hops, h⟩
  obtain ⟨a, ha⟩ := Nearest.of_getAt? (Nat.find_spec hex) fun n hn => Nat.find_min hex hn
  exact ⟨Nat.find hex, a, ha⟩

/-- The search finds the nearest environment that binds the name. -/
theorem Built.binder?_eq_some_iff (h : st.Built) :
    st.binder? e name = some a ↔ ∃ hops, st.Nearest e name hops a := by
  induction e using Nat.strongRecOn generalizing a with
  | ind e ih =>
      rw [binder?]
      by_cases hown : (st.lookupIn? e name).isSome = true
      · rw [if_pos hown, Option.some.injEq]
        constructor
        · rintro rfl
          exact ⟨0, .zero hown⟩
        · rintro ⟨hops, hnearest⟩
          exact (Nearest.unique (.zero hown) hnearest).2
      · rw [if_neg hown]
        have hnone : st.lookupIn? e name = none := Option.not_isSome_iff_eq_none.1 hown
        cases houter : st.enclosing? e with
        | none =>
            simp only [reduceCtorEq, false_iff, not_exists]
            intro hops hnearest
            -- Nothing encloses this environment, so the search can end only in itself.
            cases hops with
            | zero =>
                cases hnearest.ancestor
                exact hown hnearest.binds
            | succ hops =>
                have hancestor := hnearest.ancestor
                rw [ancestor?, houter] at hancestor
                cases hancestor
        | some outer =>
            have hlt : outer < e := h.enclosing_lt houter
            simp only [if_pos hlt]
            rw [ih outer hlt]
            constructor
            · rintro ⟨hops, hnearest⟩
              exact ⟨hops + 1, hnearest.succ houter hnone⟩
            · rintro ⟨hops, hnearest⟩
              obtain ⟨n, b, hb⟩ : ∃ n b, st.Nearest outer name n b := by
                cases hops with
                | zero =>
                    cases hnearest.ancestor
                    exact absurd hnearest.binds hown
                | succ hops =>
                    have hbound : (st.getAt? outer hops name).isSome = true := by
                      have hbinds := hnearest.binds
                      rw [← hnearest.getAt?_eq, getAt?, ancestor?, houter] at hbinds
                      exact hbinds
                    exact exists_nearest hbound
              obtain ⟨-, rfl⟩ := hnearest.unique (hb.succ houter hnone)
              exact ⟨n, hb⟩

theorem Built.get?_eq (h : st.Built) (hnearest : st.Nearest e name hops a) :
    st.get? e name = st.getAt? e hops name := by
  unfold get?
  rw [h.binder?_eq_some_iff.2 ⟨hops, hnearest⟩, hnearest.getAt?_eq]

theorem Built.isSome_get?_iff (h : st.Built) :
    (st.get? e name).isSome = true ↔ ∃ a, st.binder? e name = some a := by
  unfold get?
  cases ha : st.binder? e name with
  | none => simp
  | some a =>
      obtain ⟨hops, hnearest⟩ := h.binder?_eq_some_iff.1 ha
      simp [hnearest.binds]

theorem isSome_assign?_iff :
    (st.assign? e name v).isSome = true ↔ ∃ a, st.binder? e name = some a := by
  unfold assign?
  cases st.binder? e name <;> simp

theorem isSome_assignAt?_iff :
    (st.assignAt? e hops name v).isSome = true ↔ (st.getAt? e hops name).isSome = true := by
  have hbinder : (st.assignAt? e hops name v).isSome = true ↔
      ∃ a, st.binderAt? e hops name = some a := by
    unfold assignAt?
    cases st.binderAt? e hops name <;> simp
  rw [hbinder, isSome_getAt?_iff]
  exact exists_congr fun a => binderAt?_eq_some_iff

end Store

/-! ## Assignments in a run -/

/-- What an assignment makes of the store: a local variable is so many links out, any other is found
from the global environment outward. -/
def State.assigned? (st : State) (s : Setting) (name : Name) (v : Value) : Option Store :=
  match s.bindings.hops? name with
  | some hops => st.store.assignAt? st.env hops name.text v
  | none => st.store.assign? globalEnv name.text v

theorem State.resume_assign (st : State) (s : Setting) (frames : List (Frame EnvId)) (v : Value)
    (name : Name) :
    (∀ store, st.assigned? s name v = some store →
      st.resume s frames v (.assign name) = { st with store }.give v frames) ∧
    (st.assigned? s name v = none →
      ∃ e : RuntimeError, e.cause.message = "Undefined variable '" ++ name.text ++ "'." ∧
        st.resume s frames v (.assign name) = ⟨.failing e, frames, st⟩) := by
  rw [assigned?]
  cases hhops : s.bindings.hops? name with
  | none =>
      simp only
      cases ha : st.store.binder? globalEnv name.text with
      | none =>
          refine ⟨fun store h => ?_, fun _ => ⟨⟨.undefined name.text, name.line⟩, rfl, ?_⟩⟩
          · rw [Store.assign?, ha] at h
            cases h
          · simp only [resume, binder, hhops, ha]
      | some a =>
          rw [Store.assign?, ha]
          refine ⟨fun store h => ?_, fun h => by cases h⟩
          cases h
          simp only [resume, binder, hhops, ha]
  | some hops =>
      simp only
      cases ha : st.store.binderAt? st.env hops name.text with
      | none =>
          refine ⟨fun store h => ?_, fun _ => ⟨⟨.unbound name.text, name.line⟩, rfl, ?_⟩⟩
          · rw [Store.assignAt?, ha] at h
            cases h
          · simp only [resume, binder, hhops, ha]
      | some a =>
          rw [Store.assignAt?, ha]
          refine ⟨fun store h => ?_, fun h => by cases h⟩
          cases h
          simp only [resume, binder, hhops, ha]

/-- The assignment that ends the declaration of a class finds the name in the environment in which
it was declared, which is the current one again. -/
theorem State.declareClass_assigns (st : State) (name : Name) (superclass : Option ClassId)
    (methods : List Function) (he : st.env < st.store.environments.size) :
    let inner := (st.define name.text .nil).enterSuper superclass
    let made := inner.store.newClass ⟨name.text, superclass, methodTable inner.env methods⟩
    (st.declareClass name superclass methods).env = st.env ∧
      made.2.assign st.env name (.classRef made.1) =
        .ok (st.declareClass name superclass methods).store := by
  intro inner made
  have hdeclared : ((st.define name.text .nil).store.lookupIn? st.env name.text).isSome = true := by
    rw [define, Store.lookupIn?_define _ _ _ _ _ _ he, if_pos ⟨rfl, rfl⟩]
    rfl
  have hfound : (made.2.lookupIn? st.env name.text).isSome = true := by
    cases superclass with
    | none => exact hdeclared
    | some above =>
        have hinside := (st.define name.text .nil).store.lt_size_newEnvironment (some st.env)
        have hne : st.env ≠ (st.define name.text .nil).store.environments.size := by
          rw [define, Store.size_define]
          exact Nat.ne_of_lt he
        show ((((st.define name.text .nil).store.newEnvironment (some st.env)).2.define
          (st.define name.text .nil).store.environments.size "super" (.classRef above)).lookupIn?
            st.env name.text).isSome = true
        rw [Store.lookupIn?_define _ _ _ _ _ _ hinside, if_neg fun h => hne h.1,
          Store.lookupIn?_newEnvironment]
        exact hdeclared
  refine ⟨by cases superclass <;> rfl, ?_⟩
  rw [Store.assign, Store.assign?, Store.binder?, if_pos hfound]
  rfl

/-- Reads and writes of variables reach one binding. The search outward finds a name if some
environment further out binds it, and then it reads what is read at the least such distance, and
writes there. Reading and writing at a distance look nowhere else. What is written changes, and
nothing else does; what is not bound is not made, and an assignment in a run that does not find its
variable leaves the state as it is. A walk outward may be made in two parts. -/
theorem Store.Built.accesses_one {st : Store} (h : st.Built) {e : EnvId}
    (he : e < st.environments.size) (name : String) (v : Value) :
    ((st.get? e name).isSome = true ↔
      ∃ hops a, st.ancestor? e hops = some a ∧ (st.lookupIn? a name).isSome = true) ∧
    (∀ hops a, st.Nearest e name hops a → st.get? e name = st.getAt? e hops name) ∧
    ((st.assign? e name v).isSome = true ↔ (st.get? e name).isSome = true) ∧
    (∀ st', st.assign? e name v = some st' →
      ∃ hops a, st.Nearest e name hops a ∧ st.Overwrites a name v st') ∧
    (∀ hops, ((st.assignAt? e hops name v).isSome = true ↔
        (st.getAt? e hops name).isSome = true) ∧
      ∀ st', st.assignAt? e hops name v = some st' →
        ∃ a, st.ancestor? e hops = some a ∧ st.Overwrites a name v st') ∧
    st.Overwrites e name v (st.define e name v) ∧
    (∀ m n, st.ancestor? e (m + n) = (st.ancestor? e m).bind (st.ancestor? · n)) ∧
    ∀ (state : State) (s : Setting) (x : Name) (frames : List (Frame EnvId)), state.store = st →
      (∀ st', state.assigned? s x v = some st' →
        (∃ a, st.Overwrites a x.text v st') ∧
          state.resume s frames v (.assign x) = { state with store := st' }.give v frames) ∧
      (state.assigned? s x v = none →
        ∃ error, state.resume s frames v (.assign x) = ⟨.failing error, frames, state⟩) := by
  have hassign : ∀ (e : EnvId) (x : String) (st' : Store), st.assign? e x v = some st' →
      ∃ hops a, st.Nearest e x hops a ∧ st.Overwrites a x v st' := by
    intro e x st' hst'
    obtain ⟨a, ha, rfl⟩ := exists_of_assign? hst'
    obtain ⟨hops, hnearest⟩ := h.binder?_eq_some_iff.1 ha
    exact ⟨hops, a, hnearest, overwrites_define (lt_size_of_lookupIn? hnearest.binds) x v⟩
  have hassignAt : ∀ (e : EnvId) (hops : Nat) (x : String) (st' : Store),
      st.assignAt? e hops x v = some st' →
        ∃ a, st.ancestor? e hops = some a ∧ st.Overwrites a x v st' := by
    intro e hops x st' hst'
    obtain ⟨a, ha, rfl⟩ := exists_of_assignAt? hst'
    obtain ⟨hancestor, hbinds⟩ := binderAt?_eq_some_iff.1 ha
    exact ⟨a, hancestor, overwrites_define (lt_size_of_lookupIn? hbinds) x v⟩
  refine ⟨?_, fun hops a hnearest => h.get?_eq hnearest,
    isSome_assign?_iff.trans h.isSome_get?_iff.symm, hassign e name,
    fun hops => ⟨isSome_assignAt?_iff, hassignAt e hops name⟩, overwrites_define he name v,
    st.ancestor?_add e, ?_⟩
  · rw [h.isSome_get?_iff]
    constructor
    · rintro ⟨a, ha⟩
      obtain ⟨hops, hnearest⟩ := h.binder?_eq_some_iff.1 ha
      exact ⟨hops, a, hnearest.ancestor, hnearest.binds⟩
    · rintro ⟨hops, a, hancestor, hbinds⟩
      obtain ⟨n, b, hnearest⟩ := exists_nearest (isSome_getAt?_iff.2 ⟨a, hancestor, hbinds⟩)
      exact ⟨b, h.binder?_eq_some_iff.2 ⟨n, hnearest⟩⟩
  · rintro state s x frames rfl
    obtain ⟨hfound, hmissing⟩ := state.resume_assign s frames v x
    refine ⟨fun st' hst' => ⟨?_, hfound st' hst'⟩, fun hnone => ?_⟩
    · unfold State.assigned? at hst'
      split at hst'
      · obtain ⟨a, -, hwrites⟩ := hassignAt _ _ _ _ hst'
        exact ⟨a, hwrites⟩
      · obtain ⟨hops, a, -, hwrites⟩ := hassign _ _ _ hst'
        exact ⟨a, hwrites⟩
    · obtain ⟨error, -, hfails⟩ := hmissing hnone
      exact ⟨error, hfails⟩

/-- Of two environments inside one that has the variable, the second one has a variable of this name
too: an assignment from the first one does not reach that. -/
theorem Store.Built.accesses_one_shared :
    ∃ st st' : Store,
      st = ((((Store.empty.newEnvironment none).2.define 0 "x" .nil).newEnvironment
        (some 0)).2.newEnvironment (some 0)).2.define 2 "x" .nil ∧
      st.Built ∧ 1 < st.environments.size ∧ st.assign? 1 "x" (.bool true) = some st' ∧
      st.Nearest 1 "x" 1 0 ∧ st.Overwrites 0 "x" (.bool true) st' := by
  have hglobal : ((Store.empty.newEnvironment none).2.define 0 "x" .nil).Built :=
    (Built.root .empty).define (by decide) "x" .nil
  have hbuilt : (((((Store.empty.newEnvironment none).2.define 0 "x" .nil).newEnvironment
      (some 0)).2.newEnvironment (some 0)).2.define 2 "x" .nil).Built :=
    ((hglobal.inside (by decide)).inside (by decide)).define (by decide) "x" .nil
  generalize hst : ((((Store.empty.newEnvironment none).2.define 0 "x" .nil).newEnvironment
    (some 0)).2.newEnvironment (some 0)).2.define 2 "x" .nil = st at hbuilt
  have hsize : 1 < st.environments.size := by
    rw [← hst]
    decide
  have hnearest : st.Nearest 1 "x" 1 0 := by
    subst hst
    refine ⟨rfl, rfl, fun n hn => ?_⟩
    obtain rfl : n = 0 := by omega
    rfl
  obtain ⟨hfound, -, hassigned, hwrite, -⟩ := hbuilt.accesses_one hsize "x" (.bool true)
  have hget : (st.get? 1 "x").isSome = true :=
    hfound.2 ⟨1, 0, hnearest.ancestor, hnearest.binds⟩
  obtain ⟨st', hst'⟩ := Option.isSome_iff_exists.1 (hassigned.2 hget)
  obtain ⟨hops, a, hnearest', hoverwrites⟩ := hwrite st' hst'
  obtain ⟨-, rfl⟩ := hnearest.unique hnearest'
  exact ⟨st, st', rfl, hbuilt, hsize, hst', hnearest, hoverwrites⟩

end Lox
