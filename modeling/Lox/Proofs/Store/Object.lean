import Lox.Store.Object

set_option autoImplicit false

/-! # Methods and instances

What a class has under a name is a method of this name, and one under the name of initializers is an
initializer (`Closure.IsMethod`). What making an instance, and giving a field a value, do to the
classes and the fields of instances.
-/

namespace Lox

/-! ## Methods -/

/-- A method as a class has it under a name. -/
structure Closure.IsMethod {ε : Type} (name : String) (m : Closure ε) : Prop where
  name : m.decl.name.text = name
  isInitializer : m.isInitializer = m.decl.isNamedInit

section Initializers

variable {ε : Type} {m : Closure ε}

theorem Closure.IsMethod.isNamedInit (h : m.IsMethod Function.initializerName) :
    m.decl.isNamedInit = true := by
  rw [Function.isNamedInit, h.name]
  exact beq_self_eq_true _

theorem Closure.IsMethod.isInitializer_eq_true (h : m.IsMethod Function.initializerName) :
    m.isInitializer = true := h.isInitializer.trans h.isNamedInit

end Initializers

/-! ## Instances -/

namespace Heap

variable {ε : Type} (h : Heap ε) (i : InstanceId) (name : String)

theorem lt_size_of_classOf? {cls : ClassId} (hcls : h.classOf? i = some cls) :
    i < h.instances.size := by
  obtain ⟨object, hobject, -⟩ := Option.map_eq_some_iff.1 hcls
  exact (Array.getElem?_eq_some_iff.1 hobject).1

theorem field?_eq_none (hi : h.instances.size ≤ i) : h.field? i name = none := by
  rw [field?, Array.getElem?_eq_none hi]

end Heap

namespace Store

variable (st : Store) (i object : InstanceId) (name own : String) (cls : ClassId) (v : Value)

theorem classOf?_newInstance :
    (st.newInstance cls).2.classOf? i =
      if i = st.instances.size then some cls else st.classOf? i := by
  rw [Heap.classOf?, Heap.classOf?, newInstance, Array.getElem?_push]
  by_cases h : i = st.instances.size
  · rw [if_pos h, if_pos h]
    rfl
  · rw [if_neg h, if_neg h]

/-- A new instance has no fields. -/
theorem field?_newInstance : (st.newInstance cls).2.field? i name = st.field? i name := by
  by_cases h : i = st.instances.size
  · rw [Heap.field?_eq_none st.toHeap i name (Nat.le_of_eq h.symm), Heap.field?, newInstance,
      Array.getElem?_push, if_pos h]
    rfl
  · rw [Heap.field?, Heap.field?, newInstance, Array.getElem?_push, if_neg h]

theorem getElem?_instances_setField (h : i ≠ object) :
    (st.setField object own v).instances[i]? = st.instances[i]? := by
  rw [setField, Array.getElem?_modify, if_neg fun heq => h heq.symm]

theorem classOf?_setField : (st.setField object own v).classOf? i = st.classOf? i := by
  rw [Heap.classOf?, Heap.classOf?, setField, Array.getElem?_modify]
  split
  · cases st.instances[i]? <;> rfl
  · rfl

theorem field?_setField (h : object < st.instances.size) :
    (st.setField object own v).field? i name =
      if i = object ∧ name = own then some v else st.field? i name := by
  by_cases hi : i = object
  · subst hi
    rw [Heap.field?, Heap.field?, setField, Array.getElem?_modify, if_pos rfl,
      Array.getElem?_eq_getElem h]
    show (NamedValues.set _ own v).get? name = _
    rw [NamedValues.get?_set]
    by_cases hname : name = own
    · simp [hname]
    · have hne : (own == name) = false := beq_false_of_ne fun heq => hname heq.symm
      simp [hne, hname]
  · rw [Heap.field?, getElem?_instances_setField st i object own v hi, if_neg fun heq => hi heq.1,
      Heap.field?]

/-- One field of one instance has a value now, and nothing else is different: no other field, no
other instance, no class, no function and no variable. -/
structure OverwritesField (st : Store) (object : InstanceId) (own : String) (v : Value)
    (st' : Store) : Prop where
  field : ∀ name : String,
    st'.field? object name = if name = own then some v else st.field? object name
  classOf : st'.classOf? object = st.classOf? object
  others : ∀ i : InstanceId, i ≠ object → st'.instances[i]? = st.instances[i]?
  size : st'.instances.size = st.instances.size
  classes : st'.classes = st.classes
  functions : st'.functions = st.functions
  natives : st'.natives = st.natives
  environments : st'.environments = st.environments

theorem overwritesField_setField (h : object < st.instances.size) :
    st.OverwritesField object own v (st.setField object own v) where
  field name := by
    rw [field?_setField st object object name own v h]
    simp only [true_and]
  classOf := classOf?_setField st object object own v
  others i hi := getElem?_instances_setField st i object own v hi
  size := Array.size_modify
  classes := rfl
  functions := rfl
  natives := rfl
  environments := rfl

end Store

end Lox
