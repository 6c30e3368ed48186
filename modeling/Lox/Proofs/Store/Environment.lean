import Lox.Store.Object

set_option autoImplicit false

/-! # Environments after a change

What each way of changing a store does to the variables of environments and to the links between
environments. The global environment is the only one that nothing encloses, so looking a name up
from there outward ends there.
-/

namespace Lox.Store

variable (st : Store) (e a : EnvId) (own name : String) (v : Value)

/-! ## Definitions -/

@[simp] theorem size_define : (st.define e own v).environments.size = st.environments.size :=
  Array.size_modify

@[simp] theorem enclosing?_define : (st.define e own v).enclosing? a = st.enclosing? a := by
  rw [enclosing?, enclosing?, define, Array.getElem?_modify]
  by_cases h : e = a
  · rw [if_pos h]
    cases st.environments[a]? <;> rfl
  · rw [if_neg h]

theorem lookupIn?_define (h : e < st.environments.size) :
    (st.define e own v).lookupIn? a name =
      if a = e ∧ name = own then some v else st.lookupIn? a name := by
  rw [lookupIn?, lookupIn?, define, Array.getElem?_modify]
  by_cases ha : a = e
  · subst ha
    rw [if_pos rfl, Array.getElem?_eq_getElem h]
    show (NamedValues.set _ own v).get? name = _
    rw [NamedValues.get?_set]
    by_cases hname : name = own
    · simp [hname]
    · have hne : (own == name) = false := beq_false_of_ne fun heq => hname heq.symm
      simp [hne, hname]
  · rw [if_neg fun heq => ha heq.symm, if_neg fun heq => ha heq.1]

/-- Variables are defined in environments only. -/
@[simp] theorem toHeap_defineAll (entries : List (String × Value)) :
    (st.defineAll e entries).toHeap = st.toHeap := by
  induction entries generalizing st with
  | nil => rfl
  | cons entry entries ih => exact ih _

/-- Of several values for one name the last one counts. -/
theorem lookupIn?_defineAll (entries : List (String × Value)) (he : e < st.environments.size) :
    (st.defineAll e entries).lookupIn? a name =
      if a = e then (entries.reverse.lookup name).or (st.lookupIn? e name)
      else st.lookupIn? a name := by
  induction entries generalizing st with
  | nil =>
      by_cases ha : a = e
      · rw [if_pos ha, ha]
        rfl
      · rw [if_neg ha]
        rfl
  | cons entry entries ih =>
      obtain ⟨own, v⟩ := entry
      have he' : e < (st.define e own v).environments.size := by rwa [size_define]
      have hlookup : ((own, v) :: entries).reverse.lookup name =
          (entries.reverse.lookup name).or (if name = own then some v else none) := by
        rw [List.reverse_cons, List.lookup_append, List.lookup_cons, List.lookup_nil]
        by_cases hname : name = own
        · simp [hname]
        · simp [hname, beq_false_of_ne hname]
      rw [defineAll, ih (st.define e own v) he', hlookup]
      by_cases ha : a = e
      · rw [if_pos ha, if_pos ha, lookupIn?_define st e e own name v he, Option.or_assoc]
        by_cases hname : name = own <;> simp [hname]
      · rw [if_neg ha, if_neg ha, lookupIn?_define st e a own name v he,
          if_neg fun heq => ha heq.1]

theorem enclosing?_defineAll (entries : List (String × Value)) :
    (st.defineAll e entries).enclosing? a = st.enclosing? a := by
  induction entries generalizing st with
  | nil => rfl
  | cons entry entries ih => rw [defineAll, ih, enclosing?_define]

/-- Of two values for one name the later one counts. -/
theorem define_define (v' : Value) :
    (st.define e name v).define e name v' = st.define e name v' := by
  -- The second value overwrites the first one in place, so the order of the names stays.
  have hset : ∀ vs : NamedValues, (vs.set name v).set name v' = vs.set name v' := by
    intro vs
    induction vs with
    | nil => simp [NamedValues.set]
    | cons entry vs ih =>
        obtain ⟨key, old⟩ := entry
        by_cases hkey : (key == name) = true <;> simp [NamedValues.set, hkey, ih]
  have henvironments : ((st.define e name v).define e name v').environments =
      (st.define e name v').environments := by
    apply Array.ext_getElem?
    intro i
    simp only [define, Array.getElem?_modify]
    split
    · cases st.environments[i]? with
      | none => rfl
      | some env => simp [hset]
    · rfl
  rw [define, define] at henvironments ⊢
  simp only [define] at henvironments ⊢
  rw [henvironments]

/-! ## New environments -/

theorem enclosing?_eq_none (h : st.environments.size ≤ e) : st.enclosing? e = none := by
  rw [enclosing?, Array.getElem?_eq_none h]

theorem lookupIn?_eq_none (h : st.environments.size ≤ e) : st.lookupIn? e name = none := by
  rw [lookupIn?, Array.getElem?_eq_none h]

@[simp] theorem size_newEnvironment (enclosing : Option EnvId) :
    (st.newEnvironment enclosing).2.environments.size = st.environments.size + 1 :=
  Array.size_push ..

@[simp] theorem size_bind (m : Closure EnvId) (object : InstanceId) :
    (st.bind m object).2.environments.size = st.environments.size + 1 := by
  rw [bind, size_define, size_newEnvironment]

theorem lt_size_newEnvironment (enclosing : Option EnvId) :
    st.environments.size < (st.newEnvironment enclosing).2.environments.size := by
  rw [size_newEnvironment]
  exact Nat.lt_succ_self _

theorem lt_size_bind (m : Closure EnvId) (object : InstanceId) :
    st.environments.size < (st.bind m object).2.environments.size := by
  rw [size_bind]
  exact Nat.lt_succ_self _

theorem enclosing?_newEnvironment (enclosing : Option EnvId) :
    (st.newEnvironment enclosing).2.enclosing? a =
      if a = st.environments.size then enclosing else st.enclosing? a := by
  rw [enclosing?, enclosing?, newEnvironment, Array.getElem?_push]
  by_cases h : a = st.environments.size
  · rw [if_pos h, if_pos h]
  · rw [if_neg h, if_neg h]

@[simp] theorem lookupIn?_newEnvironment (enclosing : Option EnvId) :
    (st.newEnvironment enclosing).2.lookupIn? a name = st.lookupIn? a name := by
  by_cases h : a = st.environments.size
  · rw [lookupIn?_eq_none st a name (Nat.le_of_eq h.symm), lookupIn?, newEnvironment,
      Array.getElem?_push, if_pos h]
    rfl
  · rw [lookupIn?, newEnvironment, Array.getElem?_push, if_neg h]
    rfl

/-! ## The global environment -/

theorem binder?_of_enclosing?_eq_none (h : st.enclosing? e = none) :
    st.binder? e name = if (st.lookupIn? e name).isSome then some e else none := by
  rw [binder?, h]

theorem get?_of_enclosing?_eq_none (h : st.enclosing? e = none) :
    st.get? e name = st.lookupIn? e name := by
  rw [get?, binder?_of_enclosing?_eq_none st e name h]
  cases hlookup : st.lookupIn? e name with
  | none => rfl
  | some v => simpa using hlookup

end Lox.Store
