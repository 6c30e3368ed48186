import Lox.Proofs.Renumbering.Tree
import Lox.Store.Environment
import Lox.Store.Object

set_option autoImplicit false

/-! # Renumbered stores

Code is in a store as the bodies of functions and methods. What is found in a renumbered store is
what is found in the store, with the code in it renumbered; values stay as they are.
-/

namespace Lox

variable (r : Renumbering)

/-- The runtime error on the renumbered line. -/
def RuntimeError.renumber (e : RuntimeError) : RuntimeError := ⟨e.cause, r.line e.line⟩

/-- The function with renumbered code. -/
def Closure.renumber {ε : Type} (c : Closure ε) : Closure ε := { c with decl := c.decl.renumber r }

/-- The class with renumbered methods. -/
def ClassObject.renumber {ε : Type} (c : ClassObject ε) : ClassObject ε :=
  { c with methods := c.methods.map fun m => (m.1, m.2.renumber r) }

/-- The store with renumbered code. -/
def Store.renumber (st : Store) : Store :=
  { st with
    functions := st.functions.map (Closure.renumber r)
    classes := st.classes.map (ClassObject.renumber r) }

@[simp] theorem Closure.renumber_decl {ε : Type} (c : Closure ε) :
    (c.renumber r).decl = c.decl.renumber r := rfl

@[simp] theorem Closure.renumber_arity {ε : Type} (c : Closure ε) :
    (c.renumber r).arity = c.arity := Function.renumber_arity r c.decl

namespace Store

variable (st : Store)

/-! ## Environments -/

@[simp] theorem lookupIn?_renumber (e : EnvId) (name : String) :
    (st.renumber r).lookupIn? e name = st.lookupIn? e name := rfl

@[simp] theorem enclosing?_renumber (e : EnvId) :
    (st.renumber r).enclosing? e = st.enclosing? e := rfl

@[simp] theorem binder?_renumber (e : EnvId) (name : String) :
    (st.renumber r).binder? e name = st.binder? e name := by
  induction e using Nat.strongRecOn with
  | ind e ih =>
      rw [binder?, binder?, lookupIn?_renumber, enclosing?_renumber]
      cases henclosing : st.enclosing? e with
      | none => rfl
      | some outer =>
          by_cases hlt : outer < e
          · simp only [hlt, ih outer hlt]
          · simp only [hlt, if_false]

@[simp] theorem get?_renumber (e : EnvId) (name : String) :
    (st.renumber r).get? e name = st.get? e name := by
  rw [get?, get?, binder?_renumber]
  rfl

@[simp] theorem ancestor?_renumber (e : EnvId) (hops : Nat) :
    (st.renumber r).ancestor? e hops = st.ancestor? e hops := by
  induction hops generalizing e with
  | zero => rfl
  | succ hops ih =>
      rw [ancestor?, ancestor?, enclosing?_renumber]
      cases st.enclosing? e with
      | none => rfl
      | some outer => exact ih outer

@[simp] theorem getAt?_renumber (e : EnvId) (hops : Nat) (name : String) :
    (st.renumber r).getAt? e hops name = st.getAt? e hops name := by
  rw [getAt?, getAt?, ancestor?_renumber]
  rfl

@[simp] theorem binderAt?_renumber (e : EnvId) (hops : Nat) (name : String) :
    (st.renumber r).binderAt? e hops name = st.binderAt? e hops name := by
  rw [binderAt?, binderAt?, ancestor?_renumber]
  rfl

theorem get_renumber (e : EnvId) (name : Name) :
    (st.renumber r).get e (name.renumber r) =
      (st.get e name).mapError (RuntimeError.renumber r) := by
  rw [get, get, get?_renumber, Name.renumber_text]
  cases st.get? e name.text <;> rfl

theorem defineAll_renumber (e : EnvId) (entries : List (String × Value)) :
    (st.defineAll e entries).renumber r = (st.renumber r).defineAll e entries := by
  induction entries generalizing st with
  | nil => rfl
  | cons entry entries ih => exact ih _

theorem newFunction_renumber (c : Closure EnvId) :
    (st.renumber r).newFunction (c.renumber r) =
      ((st.newFunction c).1, (st.newFunction c).2.renumber r) := by
  simp [newFunction, renumber]

theorem newClass_renumber (c : ClassObject EnvId) :
    (st.renumber r).newClass (c.renumber r) =
      ((st.newClass c).1, (st.newClass c).2.renumber r) := by
  simp [newClass, renumber]

/-! ## Classes and instances -/

theorem lookup_map_renumber {ε : Type} (methods : List (String × Closure ε)) (name : String) :
    (methods.map fun m => (m.1, m.2.renumber r)).lookup name =
      (methods.lookup name).map (Closure.renumber r) := by
  induction methods with
  | nil => rfl
  | cons m methods ih =>
      rw [List.map_cons, List.lookup_cons, List.lookup_cons, ih]
      cases name == m.1 <;> rfl

theorem method?_renumber (cls : ClassId) (name : String) :
    (st.renumber r).method? cls name = (st.method? cls name).map (Closure.renumber r) := by
  induction cls using Nat.strongRecOn with
  | ind cls ih =>
      have hclass : (st.renumber r).classes[cls]? =
          (st.classes[cls]?).map (ClassObject.renumber r) := Array.getElem?_map ..
      rw [Heap.method?, Heap.method?, hclass]
      cases st.classes[cls]? with
      | none => rfl
      | some c =>
          have hlookup := lookup_map_renumber r c.methods name
          simp only [Option.map_some, ClassObject.renumber, hlookup]
          cases c.methods.lookup name with
          | some m => rfl
          | none =>
              cases c.superclass with
              | none => rfl
              | some above =>
                  by_cases hlt : above < cls
                  · simp [hlt, ih above hlt]
                  · simp [hlt]

theorem initializer?_renumber (cls : ClassId) :
    (st.renumber r).initializer? cls = (st.initializer? cls).map (Closure.renumber r) :=
  method?_renumber r st cls _

theorem functions_renumber (f : FunctionId) :
    (st.renumber r).functions[f]? = (st.functions[f]?).map (Closure.renumber r) :=
  Array.getElem?_map ..

@[simp] theorem arity?_renumber (v : Value) : (st.renumber r).arity? v = st.arity? v := by
  cases v with
  | functionRef f =>
      rw [Heap.arity?, Heap.arity?, functions_renumber, Option.map_map]
      cases st.functions[f]? <;> simp
  | classRef c =>
      rw [Heap.arity?, Heap.arity?, initializer?_renumber, Option.map_map]
      cases st.initializer? c <;> simp
  | _ => rfl

@[simp] theorem className_renumber (cls : ClassId) :
    (st.renumber r).className cls = st.className cls := by
  have hclass : (st.renumber r).classes[cls]? =
      (st.classes[cls]?).map (ClassObject.renumber r) := Array.getElem?_map ..
  rw [Heap.className, Heap.className, hclass]
  cases st.classes[cls]? <;> rfl

@[simp] theorem functionName_renumber (f : FunctionId) :
    (st.renumber r).functionName f = st.functionName f := by
  rw [Heap.functionName, Heap.functionName, functions_renumber]
  cases st.functions[f]? <;> simp

@[simp] theorem text_renumber (v : Value) : (st.renumber r).text v = st.text v := by
  cases v with
  | bool b => cases b <;> rfl
  | functionRef f => rw [Heap.text, Heap.text, functionName_renumber]
  | classRef c => rw [Heap.text, Heap.text, className_renumber]
  | instanceRef i =>
      have hname : (st.renumber r).className = st.className :=
        funext fun cls => className_renumber r st cls
      rw [Heap.text, Heap.text, hname]
      rfl
  | _ => rfl

end Store

/-- The property with renumbered code. -/
def Heap.Property.renumber {ε : Type} : Heap.Property ε → Heap.Property ε
  | .field v => .field v
  | .method m => .method (m.renumber r)

namespace Store

variable (st : Store)

theorem property?_renumber (object : InstanceId) (name : String) :
    (st.renumber r).property? object name =
      (st.property? object name).map (Heap.Property.renumber r) := by
  have hmethod : ∀ cls, (st.renumber r).method? cls name = _ := fun cls =>
    method?_renumber r st cls name
  have hfield : (st.renumber r).field? object name = st.field? object name := rfl
  have hclass : (st.renumber r).classOf? object = st.classOf? object := rfl
  simp only [Heap.property?, hmethod, hfield, hclass]
  cases st.field? object name with
  | some v => rfl
  | none =>
      cases st.classOf? object with
      | none => rfl
      | some cls => cases hm : st.method? cls name <;> simp [hm, Heap.Property.renumber]

theorem property_renumber (object : InstanceId) (name : Name) :
    (st.renumber r).property object (name.renumber r) =
      ((st.property object name).map (Heap.Property.renumber r)).mapError
        (RuntimeError.renumber r) := by
  rw [Heap.property, Heap.property, Name.renumber_text, property?_renumber]
  cases st.property? object name.text <;> rfl

theorem bind_renumber (m : Closure EnvId) (object : InstanceId) :
    (st.renumber r).bind (m.renumber r) object =
      ((st.bind m object).1.renumber r, (st.bind m object).2.renumber r) := rfl

theorem bindValue_renumber (m : Closure EnvId) (object : InstanceId) :
    (st.renumber r).bindValue (m.renumber r) object =
      ((st.bindValue m object).1, (st.bindValue m object).2.renumber r) := by
  simp only [bindValue, bind_renumber, newFunction_renumber]

theorem readProperty_renumber (object : InstanceId) (p : Heap.Property EnvId) :
    (st.renumber r).readProperty object (p.renumber r) =
      ((st.readProperty object p).1, (st.readProperty object p).2.renumber r) := by
  cases p with
  | field v => rfl
  | method m => exact bindValue_renumber r st m object

end Store

end Lox
