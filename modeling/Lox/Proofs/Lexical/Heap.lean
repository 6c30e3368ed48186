import Lox.Proofs.Binding.Bound
import Lox.Proofs.Lexical.Variables
import Lox.Proofs.Store.Aligned

set_option autoImplicit false

/-! # Heaps that fit

Functions of one heap fit those of the other if they are closed over places where the same is seen,
and are bound there. Classes, instances and native functions are the same in both, up to the
functions in them, so that what does not look inside functions has the same results in both.
-/

namespace Lox.Lexical

namespace World

variable (t : BindingTable) (own : List Name)

/-- A method of a class, to be bound to an instance. -/
structure MethodFits (w : World) (m : Closure EnvId) (m' : Closure View) : Prop where
  decl : m'.decl = m.decl
  isInitializer : m'.isInitializer = m.isInitializer
  place : ∃ scopes, w.Sees scopes m.env m'.env ∧ scopes.Settled ∧
    m.decl.Bound t own ([("this", true)] :: scopes)

/-- A function. The initializer of a class has been bound to an instance. -/
structure FunctionFits (w : World) (c : Closure EnvId) (c' : Closure View) : Prop where
  decl : c'.decl = c.decl
  isInitializer : c'.isInitializer = c.isInitializer
  place : ∃ scopes, w.Sees scopes c.env c'.env ∧ scopes.Settled ∧ c.decl.Bound t own scopes
  this : c.isInitializer = true →
    ∃ cell, w.cell c.env "this" = some cell ∧ c'.env.cell? "this" = some cell

/-- A class. -/
structure ClassFits (w : World) (c : ClassObject EnvId) (c' : ClassObject View) : Prop where
  name : c'.name = c.name
  superclass : c'.superclass = c.superclass
  methods : List.Forall₂ (fun m m' => m'.1 = m.1 ∧ w.MethodFits t own m.2 m'.2) c.methods c'.methods

/-- Everything that has an identity, but variables. -/
structure HeapFits (w : World) (h : Heap EnvId) (h' : Heap View) : Prop where
  functions : Aligned (w.FunctionFits t own) h.functions h'.functions
  classes : Aligned (w.ClassFits t own) h.classes h'.classes
  instances : h'.instances = h.instances
  natives : h'.natives = h.natives

variable {t own} {w w' : World} {k : EnvId}

/-! ## Growth -/

theorem MethodFits.grow {m : Closure EnvId} {m' : Closure View} (h : w.MethodFits t own m m')
    (hgrows : w.Grows w' k) : w'.MethodFits t own m m' := by
  obtain ⟨scopes, hsees, hplace⟩ := h.place
  exact ⟨h.decl, h.isInitializer, scopes, hsees.grow hgrows, hplace⟩

theorem FunctionFits.grow {c : Closure EnvId} {c' : Closure View} (h : w.FunctionFits t own c c')
    (hgrows : w.Grows w' k) : w'.FunctionFits t own c c' := by
  obtain ⟨scopes, hsees, hplace⟩ := h.place
  refine ⟨h.decl, h.isInitializer, ⟨scopes, hsees.grow hgrows, hplace⟩, fun hinit => ?_⟩
  obtain ⟨cell, hcell, hview⟩ := h.this hinit
  exact ⟨cell, hgrows.cell _ _ _ hcell, hview⟩

theorem ClassFits.grow {c : ClassObject EnvId} {c' : ClassObject View}
    (h : w.ClassFits t own c c') (hgrows : w.Grows w' k) : w'.ClassFits t own c c' :=
  ⟨h.name, h.superclass, h.methods.imp fun _ _ hm => ⟨hm.1, hm.2.grow hgrows⟩⟩

namespace HeapFits

variable {h : Heap EnvId} {h' : Heap View}

theorem grow (hfits : w.HeapFits t own h h') (hgrows : w.Grows w' k) : w'.HeapFits t own h h' :=
  ⟨hfits.functions.mono fun _ _ hc => hc.grow hgrows,
    hfits.classes.mono fun _ _ hc => hc.grow hgrows, hfits.instances, hfits.natives⟩

/-! ## What does not look inside functions -/

theorem lookup_methods {ms : List (String × Closure EnvId)} {ms' : List (String × Closure View)}
    (hms : List.Forall₂ (fun m m' => m'.1 = m.1 ∧ w.MethodFits t own m.2 m'.2) ms ms')
    (name : String) :
    (ms.lookup name = none ∧ ms'.lookup name = none) ∨
      ∃ m m', ms.lookup name = some m ∧ ms'.lookup name = some m' ∧ w.MethodFits t own m m' := by
  induction hms with
  | nil => exact .inl ⟨rfl, rfl⟩
  | @cons m m' ms ms' hm _ ih =>
      obtain ⟨key, m⟩ := m
      obtain ⟨key', m'⟩ := m'
      obtain ⟨rfl, hm⟩ := hm
      rw [List.lookup_cons, List.lookup_cons]
      cases hname : name == key' with
      | true => exact .inr ⟨m, m', rfl, rfl, hm⟩
      | false => exact ih

/-- A method is found in both heaps or in neither. -/
theorem method?_cases (hfits : w.HeapFits t own h h') (cls : ClassId) (name : String) :
    (h.method? cls name = none ∧ h'.method? cls name = none) ∨
      ∃ m m', h.method? cls name = some m ∧ h'.method? cls name = some m' ∧
        w.MethodFits t own m m' := by
  -- The search goes on in the superclass, which is an older class.
  induction cls using Nat.strongRecOn with
  | ind cls ih =>
      rw [Heap.method?, Heap.method?]
      rcases hfits.classes.cases cls with ⟨hc, hc'⟩ | ⟨c, c', hc, hc', hclass⟩
      · simp [hc, hc']
      · rw [hc, hc']
        rcases lookup_methods hclass.methods name with ⟨hm, hm'⟩ | ⟨m, m', hm, hm', hmethod⟩
        · simp only [hm, hm', hclass.superclass]
          cases c.superclass with
          | none => exact .inl ⟨rfl, rfl⟩
          | some above =>
              by_cases hlt : above < cls
              · simp only [if_pos hlt]
                exact ih above hlt
              · simp [hlt]
        · simp only [hm, hm']
          exact .inr ⟨m, m', rfl, rfl, hmethod⟩

theorem arity?_eq (hfits : w.HeapFits t own h h') (v : Value) : h'.arity? v = h.arity? v := by
  cases v with
  | nativeRef n => rw [Heap.arity?, Heap.arity?, hfits.natives]
  | functionRef f =>
      rw [Heap.arity?, Heap.arity?]
      rcases hfits.functions.cases f with ⟨hc, hc'⟩ | ⟨c, c', hc, hc', hfunction⟩
      · rw [hc, hc']
        rfl
      · rw [hc, hc', Option.map_some, Option.map_some, Closure.arity, Closure.arity, hfunction.decl]
  | classRef cls =>
      rw [Heap.arity?, Heap.arity?, Heap.initializer?, Heap.initializer?]
      rcases hfits.method?_cases cls Function.initializerName with
        ⟨hm, hm'⟩ | ⟨m, m', hm, hm', hmethod⟩
      · rw [hm, hm']
        rfl
      · rw [hm, hm', Option.map_some, Option.map_some, Closure.arity, Closure.arity, hmethod.decl]
  | _ => rfl

theorem className_eq (hfits : w.HeapFits t own h h') (cls : ClassId) :
    h'.className cls = h.className cls := by
  rw [Heap.className, Heap.className]
  rcases hfits.classes.cases cls with ⟨hc, hc'⟩ | ⟨c, c', hc, hc', hclass⟩
  · rw [hc, hc']
    rfl
  · rw [hc, hc', Option.map_some, Option.map_some, hclass.name]

theorem functionName_eq (hfits : w.HeapFits t own h h') (f : FunctionId) :
    h'.functionName f = h.functionName f := by
  rw [Heap.functionName, Heap.functionName]
  rcases hfits.functions.cases f with ⟨hc, hc'⟩ | ⟨c, c', hc, hc', hfunction⟩
  · rw [hc, hc']
    rfl
  · rw [hc, hc', Option.map_some, Option.map_some, hfunction.decl]

theorem classOf?_eq (hfits : w.HeapFits t own h h') (object : InstanceId) :
    h'.classOf? object = h.classOf? object := by
  rw [Heap.classOf?, Heap.classOf?, hfits.instances]

/-- Values have the same texts. -/
theorem text_eq (hfits : w.HeapFits t own h h') (v : Value) : h'.text v = h.text v := by
  cases v with
  | functionRef f => rw [Heap.text, Heap.text, hfits.functionName_eq]
  | classRef cls => rw [Heap.text, Heap.text, hfits.className_eq]
  | instanceRef i =>
      rw [Heap.text, Heap.text, hfits.classOf?_eq]
      cases h.classOf? i with
      | none => rfl
      | some cls =>
          rw [Option.map_some, Option.map_some, hfits.className_eq]
  | bool b => cases b <;> rfl
  | _ => rfl

/-- Two properties are the same field, or methods that fit. -/
inductive PropertyFits (t : BindingTable) (own : List Name) (w : World) :
    Heap.Property EnvId → Heap.Property View → Prop
  | field (v : Value) : PropertyFits t own w (.field v) (.field v)
  | method {m : Closure EnvId} {m' : Closure View} (hm : w.MethodFits t own m m') :
      PropertyFits t own w (.method m) (.method m')

/-- A property is found in both heaps or in neither, with the same error. -/
theorem property_cases (hfits : w.HeapFits t own h h') (object : InstanceId) (name : Name) :
    (∃ e, h.property object name = .error e ∧ h'.property object name = .error e) ∨
      ∃ p p', h.property object name = .ok p ∧ h'.property object name = .ok p' ∧
        PropertyFits t own w p p' := by
  have hfield : h'.field? object name.text = h.field? object name.text := by
    rw [Heap.field?, Heap.field?, hfits.instances]
  rw [Heap.property, Heap.property, Heap.property?, Heap.property?, hfield, hfits.classOf?_eq]
  cases h.field? object name.text with
  | some v => exact .inr ⟨_, _, rfl, rfl, .field v⟩
  | none =>
      cases h.classOf? object with
      | none => exact .inl ⟨_, rfl, rfl⟩
      | some cls =>
          rcases hfits.method?_cases cls name.text with ⟨hm, hm'⟩ | ⟨m, m', hm, hm', hmethod⟩
          · simp only [Option.bind_some, hm, hm']
            exact .inl ⟨_, rfl, rfl⟩
          · simp only [Option.bind_some, hm, hm']
            exact .inr ⟨_, _, rfl, rfl, .method hmethod⟩

end HeapFits

end World

end Lox.Lexical
