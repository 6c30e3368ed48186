import Lox.Proofs.Dispatch.Receiver
import Lox.Proofs.Objects.Code
import Lox.Proofs.Store.Object

set_option autoImplicit false

/-! # What a store refers to

A store is sound if everything that it refers to is in it, and its links lead to older things
(`Store.Sound`). It grows if what is in it stays there and goes on being what it is: environments
keep their links and their `this` and `super`, functions and classes do not change, and instances
keep their class (`Store.Grows`). Each way of changing a store does both (`Store.SoundFrom`).
-/

namespace Lox

/-! ## Growing stores -/

/-- The identity that a value is was given out. -/
def Value.Made {ε : Type} (h : Heap ε) : Value → Prop
  | .nativeRef n => ∃ native, h.natives[n]? = some native
  | .functionRef f => ∃ c, h.functions[f]? = some c
  | .classRef cls => ∃ c, h.classes[cls]? = some c
  | .instanceRef i => ∃ cls, h.classOf? i = some cls
  | .nil | .bool _ | .number _ | .string _ => True

/-- What is in the first store is in the second one too, and is the same there. -/
structure Store.Grows (st st' : Store) : Prop extends st.Keeps st' where
  environments : st.environments.size ≤ st'.environments.size
  functions : ∀ (f : FunctionId) (c : Closure EnvId), st.functions[f]? = some c →
    st'.functions[f]? = some c
  natives : st'.natives = st.natives
  classOf : ∀ (i : InstanceId) (cls : ClassId), st.classOf? i = some cls →
    st'.classOf? i = some cls

namespace Store.Grows

variable {st st' st'' : Store}

theorem refl (st : Store) : st.Grows st :=
  ⟨.refl st, Nat.le_refl _, fun _ _ h => h, rfl, fun _ _ h => h⟩

theorem trans (h : st.Grows st') (h' : st'.Grows st'') : st.Grows st'' where
  toKeeps := h.toKeeps.trans h'.toKeeps
  environments := Nat.le_trans h.environments h'.environments
  functions f c hc := h'.functions f c (h.functions f c hc)
  natives := h'.natives.trans h.natives
  classOf i cls hcls := h'.classOf i cls (h.classOf i cls hcls)

/-- Nothing but environments changes. -/
theorem of_keeps (h : st.Keeps st') (hheap : st'.toHeap = st.toHeap)
    (hsize : st.environments.size ≤ st'.environments.size) : st.Grows st' := by
  refine ⟨h, hsize, fun f c hc => ?_, congrArg Heap.natives hheap, fun i cls hcls => ?_⟩
  · rw [hheap, hc]
  · rw [hheap, hcls]

theorem newFunction (st : Store) (c : Closure EnvId) : st.Grows (st.newFunction c).2 := by
  refine ⟨.newFunction st c, Nat.le_refl _, fun f d hd => ?_, rfl, fun _ _ h => h⟩
  obtain ⟨hlt, rfl⟩ := Array.getElem?_eq_some_iff.1 hd
  exact Array.getElem?_push_lt hlt

theorem newClass (st : Store) (c : ClassObject EnvId) : st.Grows (st.newClass c).2 :=
  ⟨.newClass st c, Nat.le_refl _, fun _ _ h => h, rfl, fun _ _ h => h⟩

theorem newInstance (st : Store) (cls : ClassId) : st.Grows (st.newInstance cls).2 := by
  refine ⟨.of_heap fun _ _ h => h, Nat.le_refl _, fun _ _ h => h, rfl, fun i own hown => ?_⟩
  rw [classOf?_newInstance, if_neg (Nat.ne_of_lt (Heap.lt_size_of_classOf? _ i hown)), hown]

theorem setField (st : Store) (object : InstanceId) (name : String) (v : Value) :
    st.Grows (st.setField object name v) := by
  refine ⟨.of_heap fun _ _ h => h, Nat.le_refl _, fun _ _ h => h, rfl, fun i own hown => ?_⟩
  rw [classOf?_setField, hown]

end Store.Grows

/-- What was made stays. -/
theorem Value.Made.grow {st st' : Store} {v : Value} (h : v.Made st.toHeap)
    (hgrows : st.Grows st') : v.Made st'.toHeap := by
  cases v with
  | nativeRef n =>
      obtain ⟨native, hnative⟩ := h
      exact ⟨native, by rw [hgrows.natives, hnative]⟩
  | functionRef f => exact h.imp (hgrows.functions f)
  | classRef cls => exact h.imp (hgrows.classes cls)
  | instanceRef i => exact h.imp (hgrows.classOf i)
  | _ => trivial

/-- What was not made is equal to nothing that was. -/
theorem Value.Made.equals_eq_false {ε : Type} {h : Heap ε} {v w : Value} (hw : w.Made h)
    (hv : ¬ v.Made h) : v.equals w = false := by
  have hne : v ≠ w := fun heq => hv (heq ▸ hw)
  cases v with
  | nil | bool | number | string => exact absurd trivial hv
  | nativeRef n =>
      cases w with
      | nativeRef m => exact beq_false_of_ne fun heq => hne (congrArg _ heq)
      | _ => rfl
  | functionRef f =>
      cases w with
      | functionRef g => exact beq_false_of_ne fun heq => hne (congrArg _ heq)
      | _ => rfl
  | classRef cls =>
      cases w with
      | classRef other => exact beq_false_of_ne fun heq => hne (congrArg _ heq)
      | _ => rfl
  | instanceRef i =>
      cases w with
      | instanceRef j => exact beq_false_of_ne fun heq => hne (congrArg _ heq)
      | _ => rfl

/-! ## Sound stores -/

/-- A function whose environment is there, and whose code binds identifiers only. -/
structure Closure.Sound (st : Store) (c : Closure EnvId) : Prop where
  env : c.env < st.environments.size
  decl : c.decl.Ordinary

/-- A class that stands at a place in the store: its superclass is an older one, and each method
is under its name. -/
structure ClassObject.Sound (st : Store) (cls : ClassId) (c : ClassObject EnvId) : Prop where
  superclass : ∀ above, c.superclass = some above → above < cls
  methods : ∀ m ∈ c.methods, m.2.Sound st ∧ m.2.IsMethod m.1

/-- All that the store refers to is in it. Links lead to older things, and only the global
environment has none. -/
structure Store.Sound (st : Store) : Prop where
  global : globalEnv < st.environments.size
  enclosing : ∀ e outer : EnvId, st.enclosing? e = some outer → outer < e
  outermost : ∀ e : EnvId, e < st.environments.size → st.enclosing? e = none → e = globalEnv
  lookup : ∀ (e : EnvId) (name : String) (v : Value), st.lookupIn? e name = some v →
    v.Made st.toHeap
  functions : ∀ (f : FunctionId) (c : Closure EnvId), st.functions[f]? = some c → c.Sound st
  classes : ∀ (cls : ClassId) (c : ClassObject EnvId), st.classes[cls]? = some c → c.Sound st cls
  instances : ∀ (i : InstanceId) (cls : ClassId), st.classOf? i = some cls →
    ∃ c, st.classes[cls]? = some c
  fields : ∀ (i : InstanceId) (name : String) (v : Value), st.field? i name = some v →
    v.Made st.toHeap

theorem Closure.Sound.grow {st st' : Store} {c : Closure EnvId} (h : c.Sound st)
    (hgrows : st.Grows st') : c.Sound st' :=
  ⟨Nat.lt_of_lt_of_le h.env hgrows.environments, h.decl⟩

theorem ClassObject.Sound.grow {st st' : Store} {cls : ClassId} {c : ClassObject EnvId}
    (h : c.Sound st cls) (hgrows : st.Grows st') : c.Sound st' cls :=
  ⟨h.superclass, fun m hm => ⟨(h.methods m hm).1.grow hgrows, (h.methods m hm).2⟩⟩

namespace Store.Sound

variable {st st' : Store}

/-- A method that is found is one of a class. -/
theorem method? (h : st.Sound) {cls : ClassId} {name : String} {m : Closure EnvId}
    (hm : st.method? cls name = some m) : m.Sound st ∧ m.IsMethod name := by
  obtain ⟨holder, c, hc, hmem⟩ := Heap.mem_methods_of_method? hm
  exact (h.classes holder c hc).methods _ hmem

/-- What a walk or a search finds is a variable. -/
theorem getAt? (h : st.Sound) {e : EnvId} {hops : Nat} {name : String} {v : Value}
    (hv : st.getAt? e hops name = some v) : v.Made st.toHeap := by
  rw [Store.getAt?] at hv
  split at hv
  · exact h.lookup _ name v hv
  · cases hv

theorem get? (h : st.Sound) {e : EnvId} {name : String} {v : Value}
    (hv : st.get? e name = some v) : v.Made st.toHeap := by
  rw [Store.get?] at hv
  split at hv
  · exact h.lookup _ name v hv
  · cases hv

/-- The heap stays as it is. -/
theorem of_environments (h : st.Sound) (hgrows : st.Grows st') (hheap : st'.toHeap = st.toHeap)
    (henclosing : ∀ e outer : EnvId, st'.enclosing? e = some outer → outer < e)
    (houtermost : ∀ e : EnvId, e < st'.environments.size → st'.enclosing? e = none →
      e = globalEnv)
    (hlookup : ∀ (e : EnvId) (name : String) (v : Value), st'.lookupIn? e name = some v →
      v.Made st.toHeap) : st'.Sound where
  global := Nat.lt_of_lt_of_le h.global hgrows.environments
  enclosing := henclosing
  outermost := houtermost
  lookup e name v hv := (hlookup e name v hv).grow hgrows
  functions f c hc := by
    rw [hheap] at hc
    exact (h.functions f c hc).grow hgrows
  classes cls c hc := by
    rw [hheap] at hc
    exact (h.classes cls c hc).grow hgrows
  instances i cls hcls := by
    rw [hheap] at hcls ⊢
    exact h.instances i cls hcls
  fields i name v hv := by
    rw [hheap] at hv
    exact (h.fields i name v hv).grow hgrows

end Store.Sound

/-! ## Changes of a store -/

/-- A sound store that has grown from another one. -/
structure Store.SoundFrom (base st : Store) : Prop where
  sound : st.Sound
  grows : base.Grows st

namespace Store.SoundFrom

variable {base st st' : Store} {e : EnvId} {v : Value}

theorem refl (h : st.Sound) : SoundFrom st st := ⟨h, .refl st⟩

theorem define (h : SoundFrom base st) (he : e < st.environments.size) {n : Name}
    (hn : n.Ordinary) (hv : v.Made st.toHeap) : SoundFrom base (st.define e n.text v) := by
  have hgrows : st.Grows (st.define e n.text v) :=
    .of_keeps (.define_ordinary hn e v) rfl (Nat.le_of_eq (size_define st e n.text v).symm)
  refine ⟨h.sound.of_environments hgrows rfl (fun a outer houter => ?_) (fun a ha houter => ?_)
    (fun a name w hw => ?_), h.grows.trans hgrows⟩
  · exact h.sound.enclosing a outer (by rwa [enclosing?_define] at houter)
  · rw [size_define] at ha
    exact h.sound.outermost a ha (by rwa [enclosing?_define] at houter)
  · rw [lookupIn?_define st e a n.text name v he] at hw
    split at hw
    · cases hw
      exact hv
    · exact h.sound.lookup a name w hw

theorem defineAll (h : SoundFrom base st) (he : e < st.environments.size) {ns : List Name}
    (hns : ∀ n ∈ ns, n.Ordinary) {vs : List Value} (hvs : ∀ w ∈ vs, w.Made st.toHeap) :
    SoundFrom base (st.defineAll e ((ns.map Name.text).zip vs)) := by
  induction ns generalizing st vs with
  | nil => exact h
  | cons n ns ih =>
      cases vs with
      | nil => exact h
      | cons w vs =>
          rw [List.forall_mem_cons] at hns hvs
          exact ih (h.define he hns.1 hvs.1) (by rwa [size_define]) hns.2 hvs.2

theorem newEnvironment (h : SoundFrom base st) (he : e < st.environments.size) :
    SoundFrom base (st.newEnvironment (some e)).2 := by
  have hgrows : st.Grows (st.newEnvironment (some e)).2 :=
    .of_keeps (.newEnvironment st (some e)) rfl
      (Nat.le_of_lt (st.lt_size_newEnvironment (some e)))
  refine ⟨h.sound.of_environments hgrows rfl (fun a outer houter => ?_) (fun a ha houter => ?_)
    (fun a name w hw => ?_), h.grows.trans hgrows⟩
  · rw [enclosing?_newEnvironment] at houter
    split at houter
    · subst a
      cases houter
      exact he
    · exact h.sound.enclosing a outer houter
  · rw [enclosing?_newEnvironment] at houter
    rw [size_newEnvironment] at ha
    split at houter
    · cases houter
    · rename_i hne
      exact h.sound.outermost a (Nat.lt_of_le_of_ne (Nat.le_of_lt_succ ha) hne) houter
  · rw [lookupIn?_newEnvironment] at hw
    exact h.sound.lookup a name w hw

/-- An environment of its own for one variable, whatever its name. -/
theorem newVariable (h : SoundFrom base st) (he : e < st.environments.size) (own : String)
    (hv : v.Made st.toHeap) :
    SoundFrom base
      ((st.newEnvironment (some e)).2.define st.environments.size own v) := by
  have hnew := (refl h.sound).newEnvironment he
  have hgrows : st.Grows ((st.newEnvironment (some e)).2.define st.environments.size own v) :=
    .of_keeps (.newVariable st e own v) rfl
      (by rw [size_define, size_newEnvironment]; exact Nat.le_succ _)
  refine ⟨h.sound.of_environments hgrows rfl (fun a outer houter => ?_) (fun a ha houter => ?_)
    (fun a name w hw => ?_), h.grows.trans hgrows⟩
  · exact hnew.sound.enclosing a outer (by rwa [enclosing?_define] at houter)
  · rw [size_define] at ha
    exact hnew.sound.outermost a ha (by rwa [enclosing?_define] at houter)
  · rw [lookupIn?_define _ _ a own name v (st.lt_size_newEnvironment (some e))] at hw
    split at hw
    · cases hw
      exact hv
    · exact hnew.sound.lookup a name w hw

theorem newFunction (h : SoundFrom base st) {c : Closure EnvId} (hc : c.Sound st) :
    SoundFrom base (st.newFunction c).2 := by
  have hgrows := Grows.newFunction st c
  refine ⟨?_, h.grows.trans hgrows⟩
  exact {
    global := h.sound.global
    enclosing := h.sound.enclosing
    outermost := h.sound.outermost
    lookup := fun a name w hw => (h.sound.lookup a name w hw).grow hgrows
    functions := fun f d hd => by
      rw [Store.newFunction, Array.getElem?_push] at hd
      split at hd
      · cases hd
        exact hc.grow hgrows
      · exact (h.sound.functions f d hd).grow hgrows
    classes := fun cls d hd => (h.sound.classes cls d hd).grow hgrows
    instances := h.sound.instances
    fields := fun i name w hw => (h.sound.fields i name w hw).grow hgrows }

theorem newClass (h : SoundFrom base st) {c : ClassObject EnvId}
    (hc : c.Sound st st.classes.size) : SoundFrom base (st.newClass c).2 := by
  have hgrows := Grows.newClass st c
  refine ⟨?_, h.grows.trans hgrows⟩
  exact {
    global := h.sound.global
    enclosing := h.sound.enclosing
    outermost := h.sound.outermost
    lookup := fun a name w hw => (h.sound.lookup a name w hw).grow hgrows
    functions := fun f d hd => (h.sound.functions f d hd).grow hgrows
    classes := fun cls d hd => by
      rw [Store.newClass, Array.getElem?_push] at hd
      split at hd
      · rename_i heq
        cases hd
        subst heq
        exact hc.grow hgrows
      · exact (h.sound.classes cls d hd).grow hgrows
    instances := fun i cls hcls => (h.sound.instances i cls hcls).imp (hgrows.classes cls)
    fields := fun i name w hw => (h.sound.fields i name w hw).grow hgrows }

/-- Instances are made, and their fields change. -/
theorem of_instances (h : SoundFrom base st) {instances : Array Instance}
    (hgrows : st.Grows { st with instances })
    (hclass : ∀ (i : InstanceId) (cls : ClassId),
      ({ st with instances } : Store).classOf? i = some cls → ∃ c, st.classes[cls]? = some c)
    (hfield : ∀ (i : InstanceId) (name : String) (w : Value),
      ({ st with instances } : Store).field? i name = some w → w.Made st.toHeap) :
    SoundFrom base { st with instances } := by
  refine ⟨?_, h.grows.trans hgrows⟩
  exact {
    global := h.sound.global
    enclosing := h.sound.enclosing
    outermost := h.sound.outermost
    lookup := fun a name w hw => (h.sound.lookup a name w hw).grow hgrows
    functions := fun f d hd => (h.sound.functions f d hd).grow hgrows
    classes := fun cls d hd => (h.sound.classes cls d hd).grow hgrows
    instances := hclass
    fields := fun i name w hw => (hfield i name w hw).grow hgrows }

theorem newInstance (h : SoundFrom base st) {cls : ClassId}
    (hcls : ∃ c, st.classes[cls]? = some c) : SoundFrom base (st.newInstance cls).2 := by
  refine h.of_instances (.newInstance st cls) (fun i own hown => ?_) (fun i name w hw => ?_)
  · have hown' : (st.newInstance cls).2.classOf? i = some own := hown
    rw [classOf?_newInstance] at hown'
    split at hown'
    · cases hown'
      exact hcls
    · exact h.sound.instances i own hown'
  · have hw' : (st.newInstance cls).2.field? i name = some w := hw
    rw [field?_newInstance] at hw'
    exact h.sound.fields i name w hw'

theorem setField (h : SoundFrom base st) {object : InstanceId}
    (hobject : ∃ cls, st.classOf? object = some cls) (own : String) (hv : v.Made st.toHeap) :
    SoundFrom base (st.setField object own v) := by
  obtain ⟨_, hobject⟩ := hobject
  have hlt := Heap.lt_size_of_classOf? _ object hobject
  refine h.of_instances (.setField st object own v) (fun i cls hcls => ?_)
    (fun i name w hw => ?_)
  · have hcls' : (st.setField object own v).classOf? i = some cls := hcls
    rw [classOf?_setField] at hcls'
    exact h.sound.instances i cls hcls'
  · have hw' : (st.setField object own v).field? i name = some w := hw
    rw [field?_setField st i object name own v hlt] at hw'
    split at hw'
    · cases hw'
      exact hv
    · exact h.sound.fields i name w hw'

/-- A bound method is closed over an environment of its own, which has `this`. -/
theorem bind (h : SoundFrom base st) {m : Closure EnvId} (hm : m.Sound st) {object : InstanceId}
    (hobject : ∃ cls, st.classOf? object = some cls) :
    SoundFrom base (st.bind m object).2 ∧ (st.bind m object).1.Sound (st.bind m object).2 := by
  exact ⟨h.newVariable hm.env "this" hobject, st.lt_size_bind m object, hm.decl⟩

theorem bindValue (h : SoundFrom base st) {m : Closure EnvId} (hm : m.Sound st)
    {object : InstanceId} (hobject : ∃ cls, st.classOf? object = some cls) :
    SoundFrom base (st.bindValue m object).2 ∧
      (st.bindValue m object).1.Made (st.bindValue m object).2.toHeap := by
  obtain ⟨hbind, hbound⟩ := h.bind hm hobject
  exact ⟨hbind.newFunction hbound, _, Array.getElem?_push_size⟩

end Store.SoundFrom

/-- At the start there are the global environment and the native functions. -/
theorem State.sound_start : State.start.store.Sound where
  -- The global environment is the only one, and `clock` is its only variable.
  global := Nat.zero_lt_one
  enclosing e outer h := by
    cases e with
    | zero => cases h
    | succ e =>
        rw [Store.enclosing?_eq_none _ _ (Nat.succ_le_succ (Nat.zero_le e))] at h
        cases h
  outermost e he _ := Nat.lt_one_iff.1 he
  lookup e name v hv := by
    cases e with
    | zero =>
        have hclock : State.start.store.lookupIn? 0 name =
            if Native.clock.name == name then some (.nativeRef 0) else none := rfl
        rw [hclock] at hv
        split at hv
        · cases hv
          exact ⟨.clock, rfl⟩
        · cases hv
    | succ e =>
        rw [Store.lookupIn?_eq_none _ _ _ (Nat.succ_le_succ (Nat.zero_le e))] at hv
        cases hv
  functions f c hc := nomatch hc
  classes cls c hc := nomatch hc
  instances i cls hcls := nomatch hcls
  fields i name v hv := nomatch hv

end Lox
