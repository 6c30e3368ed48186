import Lox.Proofs.Dispatch.Observer
import Lox.Proofs.Renaming.Store

set_option autoImplicit false

/-! # Marked environments

Code that runs in an environment is renamed as the scopes around it are marked, and so the
environment and those around it have to be marked like these scopes (`Store.Marked`). This is
required of the code that is running, and of all functions and methods in the store
(`Store.Spelled`). A step keeps it: no link changes, and only new environments get a mark
(`Store.KeepsMarks`).
-/

namespace Lox

/-- From this environment out to the global one, environments are marked like this. -/
def Store.Marked (st : Store) (M : Marking) : EnvId → Marks → Prop
  | e, [] => e = globalEnv
  | e, mark :: marks => M e = mark ∧ ∃ outer, st.enclosing? e = some outer ∧ st.Marked M outer marks

/-- Links stay as they are, and so do the marks of the environments that there are. -/
structure Store.KeepsMarks (st : Store) (M : Marking) (st' : Store) (M' : Marking) : Prop where
  size_le : st.environments.size ≤ st'.environments.size
  enclosing : ∀ e < st.environments.size, st'.enclosing? e = st.enclosing? e
  marks : ∀ e < st.environments.size, M' e = M e

/-- The marks, with one for the environment that is made next. -/
def Marking.add (M : Marking) (st : Store) (mark : Bool) : Marking :=
  Function.update M st.environments.size mark

namespace Store

variable {st st' st'' : Store} {M M' M'' : Marking} {e : EnvId} {marks : Marks}

/-! ## What keeps marks -/

theorem lt_size_of_enclosing? {outer : EnvId} (h : st.enclosing? e = some outer) :
    e < st.environments.size := by
  by_contra hle
  rw [enclosing?_eq_none st e (Nat.le_of_not_lt hle)] at h
  cases h

namespace KeepsMarks

theorem refl (st : Store) (M : Marking) : st.KeepsMarks M st M :=
  ⟨Nat.le_refl _, fun _ _ => rfl, fun _ _ => rfl⟩

theorem trans (h : st.KeepsMarks M st' M') (h' : st'.KeepsMarks M' st'' M'') :
    st.KeepsMarks M st'' M'' where
  size_le := Nat.le_trans h.size_le h'.size_le
  enclosing e he :=
    (h'.enclosing e (Nat.lt_of_lt_of_le he h.size_le)).trans (h.enclosing e he)
  marks e he := (h'.marks e (Nat.lt_of_lt_of_le he h.size_le)).trans (h.marks e he)

/-- Nothing but functions, classes and instances is new. -/
theorem of_heap (heap : Heap EnvId) : st.KeepsMarks M { st with toHeap := heap } M :=
  ⟨Nat.le_refl _, fun _ _ => rfl, fun _ _ => rfl⟩

theorem define (st : Store) (M : Marking) (e : EnvId) (name : String) (v : Value) :
    st.KeepsMarks M (st.define e name v) M where
  size_le := by rw [size_define]
  enclosing a _ := enclosing?_define st e a name v
  marks _ _ := rfl

theorem defineAll (st : Store) (M : Marking) (e : EnvId) (entries : List (String × Value)) :
    st.KeepsMarks M (st.defineAll e entries) M := by
  induction entries generalizing st with
  | nil => exact refl st M
  | cons entry entries ih => exact (define st M e entry.1 entry.2).trans (ih _)

theorem newEnvironment (st : Store) (M : Marking) (enclosing : Option EnvId) (mark : Bool) :
    st.KeepsMarks M (st.newEnvironment enclosing).2 (M.add st mark) where
  size_le := by
    rw [size_newEnvironment]
    omega
  enclosing e he := by rw [enclosing?_newEnvironment, if_neg (Nat.ne_of_lt he)]
  marks e he := by rw [Marking.add, Function.update_of_ne (Nat.ne_of_lt he)]

/-- An environment of its own for one variable. -/
theorem newVariable (st : Store) (M : Marking) (outer : EnvId) (name : String) (v : Value) :
    st.KeepsMarks M ((st.newEnvironment (some outer)).2.define st.environments.size name v)
      (M.add st false) :=
  (newEnvironment st M (some outer) false).trans (define _ _ _ _ _)

end KeepsMarks

/-! ## Marked environments -/

namespace Marked

theorem keep (h : st.Marked M e marks) (hkeeps : st.KeepsMarks M st' M') :
    st'.Marked M' e marks := by
  induction marks generalizing e with
  | nil => exact h
  | cons mark marks ih =>
      obtain ⟨hmark, outer, houter, hmarked⟩ := h
      have hlt := lt_size_of_enclosing? houter
      exact ⟨(hkeeps.marks e hlt).trans hmark, outer, (hkeeps.enclosing e hlt).trans houter,
        ih hmarked⟩

/-- The environment some links out is marked like the scope that many scopes out. -/
theorem isMarked_of_ancestor? (h : st.Marked M e marks) (htop : st.enclosing? globalEnv = none)
    (hglobal : M globalEnv = false) {hops : Nat} {a : EnvId}
    (ha : st.ancestor? e hops = some a) : M a = marks.isMarked (some hops) := by
  induction marks generalizing e hops with
  | nil =>
      obtain rfl : e = globalEnv := h
      cases hops with
      | zero =>
          cases ha
          exact hglobal
      | succ hops =>
          rw [ancestor?, htop] at ha
          cases ha
  | cons mark marks ih =>
      obtain ⟨hmark, outer, houter, hmarked⟩ := h
      cases hops with
      | zero =>
          cases ha
          exact hmark
      | succ hops =>
          rw [ancestor?, houter] at ha
          exact ih hmarked ha

/-- An environment that is made inside of another one. -/
theorem newEnvironment (h : st.Marked M e marks) (mark : Bool) :
    (st.newEnvironment (some e)).2.Marked (M.add st mark) st.environments.size
      (mark :: marks) := by
  refine ⟨by rw [Marking.add, Function.update_self], e, ?_, ?_⟩
  · rw [enclosing?_newEnvironment, if_pos rfl]
  · exact h.keep (.newEnvironment st M (some e) mark)

end Marked

end Store

/-! ## Code in the store -/

section Judgement

variable (r : Renaming) (t : BindingTable)

/-- The function gets the spellings of the environment that it is closed over. -/
def Closure.Spelled (st : Store) (M : Marking) (c : Closure EnvId) : Prop :=
  ∃ marks, c.decl.Spelled r t marks ∧ st.Marked M c.env marks

/-- So does the method of a class, which will run inside of an environment that has `this`. -/
def Closure.SpelledMethod (st : Store) (M : Marking) (m : Closure EnvId) : Prop :=
  ∃ marks, m.decl.Spelled r t (false :: marks) ∧ st.Marked M m.env marks

/-- The code in the store gets the spellings of its environments. Nothing is around the global one,
which is not marked. -/
structure Store.Spelled (st : Store) (M : Marking) : Prop where
  globalLt : globalEnv < st.environments.size
  globalTop : st.enclosing? globalEnv = none
  globalMark : M globalEnv = false
  functions : ∀ (f : FunctionId) (c : Closure EnvId), st.functions[f]? = some c →
    c.Spelled r t st M
  methods : ∀ (cls : ClassId) (c : ClassObject EnvId), st.classes[cls]? = some c →
    ∀ m ∈ c.methods, m.2.SpelledMethod r t st M

end Judgement

section Store

variable {r : Renaming} {t : BindingTable} {st st' : Store} {M M' : Marking} {m : Closure EnvId}

theorem Closure.Spelled.keep {c : Closure EnvId} (h : c.Spelled r t st M)
    (hkeeps : st.KeepsMarks M st' M') : c.Spelled r t st' M' := by
  obtain ⟨marks, hdecl, hmarked⟩ := h
  exact ⟨marks, hdecl, hmarked.keep hkeeps⟩

theorem Closure.SpelledMethod.keep (h : m.SpelledMethod r t st M)
    (hkeeps : st.KeepsMarks M st' M') : m.SpelledMethod r t st' M' := by
  obtain ⟨marks, hdecl, hmarked⟩ := h
  exact ⟨marks, hdecl, hmarked.keep hkeeps⟩

/-- Bound to an instance, a method is a function. -/
theorem Closure.SpelledMethod.bind (h : m.SpelledMethod r t st M) (object : InstanceId) :
    (st.bind m object).1.Spelled r t (st.bind m object).2 (M.add st false) := by
  obtain ⟨marks, hdecl, hmarked⟩ := h
  exact ⟨false :: marks, hdecl, (hmarked.newEnvironment false).keep (.define _ _ _ _ _)⟩

namespace Store.Spelled

/-- Functions and classes stay as they are. -/
theorem keep (h : st.Spelled r t M) (hkeeps : st.KeepsMarks M st' M')
    (hfunctions : st'.functions = st.functions) (hclasses : st'.classes = st.classes) :
    st'.Spelled r t M' where
  globalLt := Nat.lt_of_lt_of_le h.globalLt hkeeps.size_le
  globalTop := (hkeeps.enclosing globalEnv h.globalLt).trans h.globalTop
  globalMark := (hkeeps.marks globalEnv h.globalLt).trans h.globalMark
  functions f c hc := (h.functions f c (hfunctions ▸ hc)).keep hkeeps
  methods cls c hc m hm := (h.methods cls c (hclasses ▸ hc) m hm).keep hkeeps

theorem newFunction {c : Closure EnvId} (h : st.Spelled r t M) (hc : c.Spelled r t st M) :
    (st.newFunction c).2.Spelled r t M where
  globalLt := h.globalLt
  globalTop := h.globalTop
  globalMark := h.globalMark
  functions f c' hc' := by
    have hkeeps : st.KeepsMarks M (st.newFunction c).2 M := .of_heap _
    rw [Store.newFunction, Array.getElem?_push] at hc'
    split at hc'
    · cases hc'
      exact hc.keep hkeeps
    · exact (h.functions f c' hc').keep hkeeps
  methods cls c' hc' m hm := (h.methods cls c' hc' m hm).keep (.of_heap _)

theorem newClass {c : ClassObject EnvId} (h : st.Spelled r t M)
    (hc : ∀ m ∈ c.methods, m.2.SpelledMethod r t st M) : (st.newClass c).2.Spelled r t M where
  globalLt := h.globalLt
  globalTop := h.globalTop
  globalMark := h.globalMark
  functions f c' hc' := (h.functions f c' hc').keep (.of_heap _)
  methods cls c' hc' m hm := by
    have hkeeps : st.KeepsMarks M (st.newClass c).2 M := .of_heap _
    rw [Store.newClass, Array.getElem?_push] at hc'
    split at hc'
    · cases hc'
      exact (hc m hm).keep hkeeps
    · exact (h.methods cls c' hc' m hm).keep hkeeps

/-- A method that is found is one of a class. -/
theorem method? (h : st.Spelled r t M) {cls : ClassId} {name : String}
    (hm : st.method? cls name = some m) : m.SpelledMethod r t st M := by
  obtain ⟨holder, c, hc, hmem⟩ := Heap.mem_methods_of_method? hm
  exact h.methods holder c hc _ hmem

theorem kept_name (h : st.Spelled r t M) (f : FunctionId) (c : Closure EnvId)
    (hc : st.functions[f]? = some c) : c.decl.name.Kept r := by
  obtain ⟨marks, hdecl, -⟩ := h.functions f c hc
  exact hdecl.kept_name

/-- At first there is no code. -/
theorem start : State.start.store.Spelled r t fun _ => false where
  globalLt := Nat.zero_lt_one
  globalTop := rfl
  globalMark := rfl
  functions f c hc := by
    have hnone : State.start.store.functions = #[] := rfl
    rw [hnone] at hc
    cases hc
  methods cls c hc := by
    have hnone : State.start.store.classes = #[] := rfl
    rw [hnone] at hc
    cases hc

end Store.Spelled

end Store

end Lox
