import Lox.Proofs.Renaming.Scope
import Lox.Proofs.Store.Environment
import Mathlib.Logic.Function.Basic

set_option autoImplicit false

/-! # Renamed stores

An environment is marked if it belongs to a scope that declares the renamed variable (`Marking`). In
a renamed store the old and the new spelling have changed places in the marked environments, and
code is renamed. What is found under a renamed name is what was found under the name, as long as
both are marked alike; values stay as they are.
-/

namespace Lox

variable (r : Renaming)

/-! ## Variables -/

namespace NamedValues

/-- The values, with the old and the new spelling in each other's place if they are marked. -/
def rename (mark : Bool) (values : NamedValues) : NamedValues :=
  values.map fun entry => (r.swap mark entry.1, entry.2)

@[simp] theorem rename_nil (mark : Bool) : rename r mark [] = [] := rfl

@[simp] theorem rename_cons (mark : Bool) (entry : String × Value) (values : NamedValues) :
    rename r mark (entry :: values) =
      (r.swap mark entry.1, entry.2) :: rename r mark values := rfl

theorem swap_beq_swap (mark : Bool) (key name : String) :
    (r.swap mark key == r.swap mark name) = (key == name) := by
  by_cases h : key = name
  · rw [h, beq_self_eq_true, beq_self_eq_true]
  · rw [beq_false_of_ne h, beq_false_of_ne fun hswap => h (r.swap_injective mark hswap)]

theorem get?_rename (mark : Bool) (values : NamedValues) (name : String) :
    (values.rename r mark).get? (r.swap mark name) = values.get? name := by
  induction values with
  | nil => rfl
  | cons entry values ih => rw [rename_cons, get?_cons, get?_cons, swap_beq_swap, ih]

theorem set_rename (mark : Bool) (values : NamedValues) (name : String) (v : Value) :
    (values.rename r mark).set (r.swap mark name) v = (values.set name v).rename r mark := by
  induction values with
  | nil => rfl
  | cons entry values ih =>
      obtain ⟨key, old⟩ := entry
      rw [rename_cons, set, set, swap_beq_swap, ih]
      split <;> rfl

end NamedValues

/-- Which environments belong to scopes that declare the renamed variable. -/
abbrev Marking := EnvId → Bool

/-- The environment, renamed as it is marked. -/
def Environment.rename (mark : Bool) (env : Environment) : Environment :=
  { env with vars := env.vars.rename r mark }

/-! ## Code -/

/-- The function with renamed code. -/
def Closure.rename {ε : Type} (c : Closure ε) : Closure ε := { c with decl := c.decl.rename r }

/-- The class with renamed methods, which keep their names. -/
def ClassObject.rename {ε : Type} (c : ClassObject ε) : ClassObject ε :=
  { c with methods := c.methods.map fun m => (m.1, m.2.rename r) }

@[simp] theorem Closure.rename_decl {ε : Type} (c : Closure ε) :
    (c.rename r).decl = c.decl.rename r := rfl

@[simp] theorem Closure.rename_arity {ε : Type} (c : Closure ε) :
    (c.rename r).arity = c.arity := Function.rename_arity r c.decl

/-- The property with renamed code. -/
def Heap.Property.rename {ε : Type} : Heap.Property ε → Heap.Property ε
  | .field v => .field v
  | .method m => .method (m.rename r)

/-- The store with renamed code and environments. -/
def Store.rename (M : Marking) (st : Store) : Store where
  functions := st.functions.map (Closure.rename r)
  classes := st.classes.map (ClassObject.rename r)
  instances := st.instances
  natives := st.natives
  environments := st.environments.mapIdx fun e env => env.rename r (M e)

namespace Store

variable (M : Marking) (st : Store)

/-! ## Environments -/

theorem getElem?_environments_rename (e : EnvId) :
    (st.rename r M).environments[e]? = (st.environments[e]?).map (Environment.rename r (M e)) :=
  Array.getElem?_mapIdx

@[simp] theorem size_environments_rename :
    (st.rename r M).environments.size = st.environments.size := Array.size_mapIdx

@[simp] theorem enclosing?_rename (e : EnvId) :
    (st.rename r M).enclosing? e = st.enclosing? e := by
  rw [enclosing?, enclosing?, getElem?_environments_rename]
  cases st.environments[e]? <;> rfl

theorem lookupIn?_rename (e : EnvId) (name : String) :
    (st.rename r M).lookupIn? e (r.swap (M e) name) = st.lookupIn? e name := by
  rw [lookupIn?, lookupIn?, getElem?_environments_rename]
  cases st.environments[e]? with
  | none => rfl
  | some env => exact NamedValues.get?_rename r (M e) env.vars name

@[simp] theorem ancestor?_rename (e : EnvId) (hops : Nat) :
    (st.rename r M).ancestor? e hops = st.ancestor? e hops := by
  induction hops generalizing e with
  | zero => rfl
  | succ hops ih =>
      rw [ancestor?, ancestor?, enclosing?_rename]
      cases st.enclosing? e with
      | none => rfl
      | some outer => exact ih outer

theorem define_rename (e : EnvId) (name : String) (v : Value) :
    (st.rename r M).define e (r.swap (M e) name) v = (st.define e name v).rename r M := by
  have henvironments : ((st.rename r M).define e (r.swap (M e) name) v).environments =
      ((st.define e name v).rename r M).environments := by
    apply Array.ext_getElem?
    intro a
    rw [getElem?_environments_rename, define, define, Array.getElem?_modify,
      Array.getElem?_modify, getElem?_environments_rename]
    by_cases ha : e = a
    · subst ha
      rw [if_pos rfl, if_pos rfl]
      cases st.environments[e]? with
      | none => rfl
      | some env => simp [Environment.rename, NamedValues.set_rename]
    · rw [if_neg ha, if_neg ha]
  exact congrArg (Store.mk (st.rename r M).toHeap) henvironments

theorem defineAll_rename (e : EnvId) (entries : List (String × Value)) :
    (st.rename r M).defineAll e (entries.map fun entry => (r.swap (M e) entry.1, entry.2)) =
      (st.defineAll e entries).rename r M := by
  induction entries generalizing st with
  | nil => rfl
  | cons entry entries ih =>
      obtain ⟨name, v⟩ := entry
      rw [List.map_cons, defineAll, define_rename, ih, defineAll]

variable {M} in
/-- Only the marks of environments that there are matter. -/
theorem rename_congr {M' : Marking} (h : ∀ e < st.environments.size, M' e = M e) :
    st.rename r M' = st.rename r M := by
  have henvironments : (st.rename r M').environments = (st.rename r M).environments := by
    apply Array.ext_getElem?
    intro e
    rw [getElem?_environments_rename, getElem?_environments_rename]
    by_cases he : e < st.environments.size
    · rw [h e he]
    · rw [Array.getElem?_eq_none (Nat.le_of_not_lt he)]
      rfl
  exact congrArg (Store.mk (st.rename r M).toHeap) henvironments

theorem newEnvironment_rename (enclosing : Option EnvId) :
    (st.rename r M).newEnvironment enclosing =
      ((st.newEnvironment enclosing).1, (st.newEnvironment enclosing).2.rename r M) := by
  simp [newEnvironment, rename, Environment.rename]

/-! ## Functions, classes and instances -/

theorem newFunction_rename (c : Closure EnvId) :
    (st.rename r M).newFunction (c.rename r) =
      ((st.newFunction c).1, (st.newFunction c).2.rename r M) := by
  simp [newFunction, rename]

theorem newClass_rename (c : ClassObject EnvId) :
    (st.rename r M).newClass (c.rename r) =
      ((st.newClass c).1, (st.newClass c).2.rename r M) := by
  simp [newClass, rename]

theorem functions_rename (f : FunctionId) :
    (st.rename r M).functions[f]? = (st.functions[f]?).map (Closure.rename r) :=
  Array.getElem?_map ..

theorem classes_rename (cls : ClassId) :
    (st.rename r M).classes[cls]? = (st.classes[cls]?).map (ClassObject.rename r) :=
  Array.getElem?_map ..

theorem lookup_map_rename {ε : Type} (methods : List (String × Closure ε)) (name : String) :
    (methods.map fun m => (m.1, m.2.rename r)).lookup name =
      (methods.lookup name).map (Closure.rename r) := by
  induction methods with
  | nil => rfl
  | cons m methods ih =>
      rw [List.map_cons, List.lookup_cons, List.lookup_cons, ih]
      cases name == m.1 <;> rfl

theorem method?_rename (cls : ClassId) (name : String) :
    (st.rename r M).method? cls name = (st.method? cls name).map (Closure.rename r) := by
  induction cls using Nat.strongRecOn with
  | ind cls ih =>
      rw [Heap.method?, Heap.method?, classes_rename]
      cases st.classes[cls]? with
      | none => rfl
      | some c =>
          have hlookup := lookup_map_rename r c.methods name
          simp only [Option.map_some, ClassObject.rename, hlookup]
          cases c.methods.lookup name with
          | some m => rfl
          | none =>
              cases c.superclass with
              | none => rfl
              | some above =>
                  by_cases hlt : above < cls
                  · simp [hlt, ih above hlt]
                  · simp [hlt]

theorem initializer?_rename (cls : ClassId) :
    (st.rename r M).initializer? cls = (st.initializer? cls).map (Closure.rename r) :=
  method?_rename r M st cls _

@[simp] theorem arity?_rename (v : Value) : (st.rename r M).arity? v = st.arity? v := by
  cases v with
  | functionRef f =>
      rw [Heap.arity?, Heap.arity?, functions_rename, Option.map_map]
      cases st.functions[f]? <;> simp
  | classRef c =>
      rw [Heap.arity?, Heap.arity?, initializer?_rename, Option.map_map]
      cases st.initializer? c <;> simp
  | _ => rfl

theorem property?_rename (object : InstanceId) (name : String) :
    (st.rename r M).property? object name =
      (st.property? object name).map (Heap.Property.rename r) := by
  have hmethod : ∀ cls, (st.rename r M).method? cls name = _ := fun cls =>
    method?_rename r M st cls name
  have hfield : (st.rename r M).field? object name = st.field? object name := rfl
  have hclass : (st.rename r M).classOf? object = st.classOf? object := rfl
  simp only [Heap.property?, hmethod, hfield, hclass]
  cases st.field? object name with
  | some v => rfl
  | none =>
      cases st.classOf? object with
      | none => rfl
      | some cls => cases hm : st.method? cls name <;> simp [hm, Heap.Property.rename]

/-- The names of properties stay. -/
theorem property_rename (object : InstanceId) {name : Name} (hname : name.Kept r) :
    (st.rename r M).property object (name.rename r) =
      (st.property object name).map (Heap.Property.rename r) := by
  have htext : (name.rename r).text = name.text := hname
  rw [Heap.property, Heap.property, htext, property?_rename]
  cases st.property? object name.text <;> rfl

/-! ## Texts -/

@[simp] theorem className_rename (cls : ClassId) :
    (st.rename r M).className cls = st.className cls := by
  rw [Heap.className, Heap.className, classes_rename]
  cases st.classes[cls]? <;> rfl

/-- A function is printed as before if functions keep their names. -/
theorem text_rename (h : ∀ (f : FunctionId) (c : Closure EnvId), st.functions[f]? = some c →
    c.decl.name.Kept r) (v : Value) : (st.rename r M).text v = st.text v := by
  cases v with
  | bool b => cases b <;> rfl
  | functionRef f =>
      have hname : (st.rename r M).functionName f = st.functionName f := by
        rw [Heap.functionName, Heap.functionName, functions_rename]
        cases hc : st.functions[f]? with
        | none => rfl
        | some c =>
            have htext : (c.decl.name.rename r).text = c.decl.name.text := h f c hc
            simp [htext]
      rw [Heap.text, Heap.text, hname]
  | classRef c => rw [Heap.text, Heap.text, className_rename]
  | instanceRef i =>
      have hname : (st.rename r M).className = st.className :=
        funext fun cls => className_rename r M st cls
      rw [Heap.text, Heap.text, hname]
      rfl
  | _ => rfl

/-! ## Methods bound to instances -/

variable {r}

/-- An environment of its own for a variable that is never renamed. -/
theorem newVariable_rename (outer : EnvId) {name : String} (hname : ∀ mark, r.swap mark name = name)
    (v : Value) :
    ((st.rename r M).newEnvironment (some outer)).2.define st.environments.size name v =
      ((st.newEnvironment (some outer)).2.define st.environments.size name v).rename r M := by
  have hdefine := define_rename r M (st.newEnvironment (some outer)).2 st.environments.size name v
  rw [hname] at hdefine
  rw [newEnvironment_rename, hdefine]

theorem bind_rename (ho : r.Ordinary) (m : Closure EnvId) (object : InstanceId) :
    (st.rename r M).bind (m.rename r) object =
      ((st.bind m object).1.rename r, (st.bind m object).2.rename r M) := by
  have hsize : ((st.rename r M).newEnvironment (some m.env)).1 = st.environments.size :=
    size_environments_rename r M st
  have hvariable := newVariable_rename M st m.env ho.swap_this (.instanceRef object)
  have henv : (m.rename r).env = m.env := rfl
  simp only [bind, henv, hsize, hvariable]
  rfl

end Store

end Lox
