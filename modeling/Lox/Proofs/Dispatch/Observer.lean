import Lox.Binding.Reference
import Lox.Proofs.Machine.Calls
import Lox.Session

set_option autoImplicit false

/-! # Whom code in methods acts for

An observer of a run can tell on which instance a method was accessed, without looking into any
environment: it sees which property of which instance is read, which function is called, and which
class a superclass clause gave when a class was declared. It records this for the code that is
running, for its callers, for each function, and for each class (`Dispatch`).

A function that is declared in a method acts for the same instance as the code that declares it. An
instance that is made is the one on which the initializer of its class is accessed.
-/

namespace Lox

/-- The method of a class with this name, with the class in which it was found. -/
def Heap.locate? {ε : Type} (h : Heap ε) (cls : ClassId) (name : String) :
    Option (ClassId × Closure ε) :=
  match h.classes[cls]? with
  | none => none
  | some c =>
    match c.methods.lookup name with
    | some m => some (cls, m)
    | none =>
      match c.superclass with
      | some above => if above < cls then h.locate? above name else none
      | none => none
termination_by cls

/-- The method that code stands in, the class that has the method, and the instance on which it was
accessed. -/
structure Receiver where
  object : InstanceId
  holder : ClassId
  method : Function

/-- What accessing a method of a class on an instance stands for. -/
def Receiver.of? (h : Heap EnvId) (object : InstanceId) (cls : ClassId) (name : String) :
    Option Receiver :=
  (h.locate? cls name).map fun found => ⟨object, found.1, found.2.decl⟩

/-- What an observer has recorded. -/
structure Dispatch where
  /-- Of the code that is running. -/
  current : Option Receiver
  /-- Of the code that waits for each call, the last call first. -/
  callers : List (Option Receiver)
  /-- Of each function. -/
  functions : Array (Option Receiver)
  /-- What the superclass clause of each class gave, if the class has one. -/
  clauses : Array (Option ClassId)

namespace Dispatch

/-- Nothing has been recorded yet. -/
def start : Dispatch := ⟨none, [], #[], #[]⟩

/-- A function was made. -/
def addFunction (d : Dispatch) (receiver : Option Receiver) : Dispatch :=
  { d with functions := d.functions.push receiver }

/-- A class was declared. -/
def addClass (d : Dispatch) (clause : Option ClassId) : Dispatch :=
  { d with clauses := d.clauses.push clause }

/-- A superclass clause has given a value. If it is no class, none is declared. -/
def endClause (d : Dispatch) : Value → Dispatch
  | .classRef above => d.addClass (some above)
  | _ => d

/-- A callee has started. -/
def enter (d : Dispatch) (receiver : Option Receiver) : Dispatch :=
  { d with current := receiver, callers := d.current :: d.callers }

/-- A callee has ended. -/
def leave (d : Dispatch) : Dispatch :=
  match d.callers with
  | [] => d
  | caller :: callers => { d with current := caller, callers }

/-- A frame has been left. -/
def pop (d : Dispatch) : Frame EnvId → Dispatch
  | .call _ _ => d.leave
  | _ => d

/-- Of the callee of a call. A class that is called makes an instance. -/
def ofCallee (d : Dispatch) (st : State) : Value → Option Receiver
  | .functionRef f => d.functions[f]?.join
  | .classRef cls =>
    Receiver.of? st.store.toHeap st.store.instances.size cls Function.initializerName
  | _ => none

/-- A property was read. If it is a method, a function was made. -/
def access (d : Dispatch) (st : State) (property : Name) : Value → Dispatch
  | .instanceRef object =>
    match st.store.property object property with
    | .ok (.method _) =>
      d.addFunction
        ((st.store.classOf? object).bind (Receiver.of? st.store.toHeap object · property.text))
    | _ => d
  | _ => d

/-- Of the method that `super` gives: the search starts at what the superclass clause of the class
gave that the code stands in. -/
def ofSuper (d : Dispatch) (st : State) (method : Name) : Option Receiver :=
  match d.current with
  | none => none
  | some r =>
    match d.clauses[r.holder]? with
    | some (some above) => Receiver.of? st.store.toHeap r.object above method.text
    | _ => none

/-- A call was made, and what comes next is the body of its callee if that has one. -/
def call (d : Dispatch) (st : State) (callee : Value) (next : Control) : Dispatch :=
  match next with
  | .execAll _ => d.enter (d.ofCallee st callee)
  | _ => d

/-- What is recorded of a step. -/
def step (s : Setting) (d : Dispatch) (c : Config) : Dispatch :=
  match c with
  | ⟨.exec (.function _), _, _⟩ => d.addFunction d.current
  | ⟨.exec (.classDecl _ none _), _, _⟩ => d.addClass none
  | ⟨.eval (.super _ method), _, st⟩ =>
    match d.ofSuper st method with
    | some receiver => d.addFunction (some receiver)
    | none => d
  | ⟨.give v, .superclass _ _ _ :: _, _⟩ => d.endClause v
  | ⟨.give v, .get property :: _, st⟩ => d.access st property v
  | ⟨.give _, .call _ _ :: _, _⟩ | ⟨.returning _, .call _ _ :: _, _⟩
  | ⟨.failing _, .call _ _ :: _, _⟩ => d.leave
  | c =>
    match c.pendingCall? with
    | some (callee, _, _) => d.call c.state callee (c.step s).control
    | none => d

/-- What is recorded after a number of steps. -/
def after (s : Setting) (d : Dispatch) (c : Config) : Nat → Dispatch
  | 0 => d
  | steps + 1 => (after s d c steps).step s (c.run s steps)

/-- The run of a source has ended. -/
def endRun (d : Dispatch) : Dispatch := { d with current := none, callers := [] }

end Dispatch

namespace Session

variable (clock : Nat → Float) (steps : Nat)

/-- What is recorded of a program that runs in a session. -/
def dispatchProgram (session : Session) (d : Dispatch) (p : Program) (t : BindingTable) :
    Dispatch :=
  Dispatch.after ⟨t, clock⟩ d (.ofProgram p { session.state with output := "" }) steps

/-- What is recorded of a source that is run in a session. -/
def dispatch (session : Session) (d : Dispatch) (source : String) : Dispatch :=
  match session.accept source with
  | .ok (p, t) => (session.dispatchProgram clock steps d p t).endRun
  | .error _ => d

/-- What is recorded of sources that are run one after another. -/
def dispatchAll (session : Session) (d : Dispatch) : List String → Dispatch
  | [] => d
  | source :: sources =>
    (session.run clock steps source).2.dispatchAll (session.dispatch clock steps d source) sources

end Session

/-! ## Methods and where they are found -/

namespace Heap

variable {ε : Type} {h : Heap ε} {cls holder : ClassId} {name : String} {m : Closure ε}

/-- The method that is located is the one that is found. -/
theorem map_locate? (h : Heap ε) (cls : ClassId) (name : String) :
    (h.locate? cls name).map Prod.snd = h.method? cls name := by
  fun_induction h.locate? cls name with
  | case1 cls hc => rw [method?, hc]; rfl
  | case2 cls c hc m hm => rw [method?, hc]; simp only [hm]; rfl
  | case3 cls c hc hm above habove hlt ih =>
      rw [method?, hc]
      simp only [hm, habove, if_pos hlt, ih]
  | case4 cls c hc hm above habove hlt => rw [method?, hc]; simp [hm, habove, hlt]
  | case5 cls c hc hm habove => rw [method?, hc]; simp [hm, habove]

/-- A method is located in a class that has it. -/
theorem mem_methods_of_locate? (hfound : h.locate? cls name = some (holder, m)) :
    ∃ c, h.classes[holder]? = some c ∧ (name, m) ∈ c.methods := by
  fun_induction h.locate? cls name with
  | case1 => cases hfound
  | case2 cls c hc m hm =>
      cases hfound
      obtain ⟨before, after, hmethods, -⟩ := List.lookup_eq_some_iff.1 hm
      exact ⟨c, hc, by simp [hmethods]⟩
  | case3 cls c hc hm above habove hlt ih => exact ih hfound
  | case4 => cases hfound
  | case5 => cases hfound

/-- A method that is found is one that some class has under its name. -/
theorem mem_methods_of_method? (hfound : h.method? cls name = some m) :
    ∃ (holder : ClassId) (c : ClassObject ε),
      h.classes[holder]? = some c ∧ (name, m) ∈ c.methods := by
  rw [← map_locate?, Option.map_eq_some_iff] at hfound
  obtain ⟨⟨holder, m⟩, hlocate, rfl⟩ := hfound
  obtain ⟨c, hc, hmem⟩ := mem_methods_of_locate? hlocate
  exact ⟨holder, c, hc, hmem⟩

/-- A property that is a field is that of the instance. -/
theorem field?_of_property {object : InstanceId} {property : Name} {v : Value}
    (hfound : h.property object property = .ok (.field v)) :
    h.field? object property.text = some v := by
  rw [Heap.property, property?] at hfound
  cases hfield : h.field? object property.text with
  | some w =>
      rw [hfield] at hfound
      cases hfound
      rfl
  | none =>
      rw [hfield] at hfound
      cases hm : (h.classOf? object).bind (h.method? · property.text) <;> simp [hm] at hfound

/-- A property that is a method is one of the class of the instance. -/
theorem method?_of_property {object : InstanceId} {property : Name}
    (hfound : h.property object property = .ok (.method m)) :
    ∃ cls, h.classOf? object = some cls ∧ h.method? cls property.text = some m := by
  rw [Heap.property, property?] at hfound
  cases hcls : h.classOf? object with
  | none =>
      rw [hcls] at hfound
      cases hfield : h.field? object property.text <;> rw [hfield] at hfound <;> cases hfound
  | some cls =>
      rw [hcls] at hfound
      cases hm : h.method? cls property.text with
      | none =>
          cases hfield : h.field? object property.text <;> simp [hfield, hm] at hfound
      | some m' =>
          cases hfield : h.field? object property.text <;> simp [hfield, hm] at hfound
          exact ⟨cls, rfl, by rw [hm, hfound]⟩

end Heap

/-- What `super` gives: a method of the class in which it is looked up, and the instance that is
`this`. -/
theorem State.exists_of_superMethod {s : Setting} {st : State} {keyword method : Name}
    {found : Closure EnvId × InstanceId} (h : st.superMethod s keyword method = .ok found) :
    ∃ above hops, st.store.method? above method.text = some found.1 ∧
      st.store.getAt? st.env hops "this" = some (.instanceRef found.2) := by
  rw [superMethod] at h
  split at h
  · cases h
  · split at h
    · split at h
      · rename_i hthis
        split at h
        · rename_i hm
          cases h
          split at hthis
          · cases hthis
          · exact ⟨_, _, hm, hthis⟩
        · cases h
      · cases h
    · cases h

theorem Receiver.of?_eq_none {h : Heap EnvId} {cls : ClassId} {name : String}
    (hm : h.method? cls name = none) (object : InstanceId) : of? h object cls name = none := by
  rw [← Heap.map_locate?, Option.map_eq_none_iff] at hm
  rw [of?, hm]
  rfl

end Lox
