import Lox.Store.Value

set_option autoImplicit false

/-! # The store

The store holds everything that has an identity: environments, functions, classes, instances
and native functions, each kind in the order in which its members were made. An identity is a
place in that order, so it is never given out twice and nothing is ever taken away.

An environment links to the one that encloses it, and a class to its superclass. Such a link
is made together with what it starts from and never changes, so it leads to something older:
this bounds every walk along links.

Functions and classes only hand on the environment that they are closed over, so all of the store
but its environments is described for any type of them (`Heap`).
-/

namespace Lox

/-- The variables of a scope that is being run, and the environment around it. -/
structure Environment where
  enclosing : Option EnvId
  vars : NamedValues
deriving Inhabited

/-- A function together with the environment in which it was declared. -/
structure Closure (ε : Type) where
  decl : Function
  env : ε
  /-- The function is the method `init` of a class. -/
  isInitializer : Bool
deriving Inhabited

/-- How many arguments a function takes. -/
def Closure.arity {ε : Type} (c : Closure ε) : Nat := c.decl.arity

/-- A class. Of two methods with one name the later one comes first. -/
structure ClassObject (ε : Type) where
  name : String
  superclass : Option ClassId
  methods : List (String × Closure ε)
deriving Inhabited

/-- An instance of a class, with its fields. -/
structure Instance where
  cls : ClassId
  fields : NamedValues
deriving Inhabited

/-- The functions that are not written in Lox. -/
inductive Native
  | clock
deriving DecidableEq, Inhabited

namespace Native

/-- The global variable that holds a native function. -/
def name : Native → String
  | clock => "clock"

/-- How many arguments a native function takes. -/
def arity : Native → Nat
  | clock => 0

/-- The native functions that every run starts with. -/
def all : List Native := [clock]

end Native

/-- Everything that has an identity, but environments. -/
structure Heap (ε : Type) where
  functions : Array (Closure ε)
  classes : Array (ClassObject ε)
  instances : Array Instance
  natives : Array Native
deriving Inhabited

/-- Everything that has an identity. -/
structure Store extends Heap EnvId where
  environments : Array Environment
deriving Inhabited

namespace Store

/-- The store with nothing in it. -/
def empty : Store := ⟨⟨#[], #[], #[], #[]⟩, #[]⟩

/-- A new environment, with its identity. -/
def newEnvironment (st : Store) (enclosing : Option EnvId) : EnvId × Store :=
  (st.environments.size, { st with environments := st.environments.push ⟨enclosing, []⟩ })

/-- A new function. -/
def newFunction (st : Store) (c : Closure EnvId) : FunctionId × Store :=
  (st.functions.size, { st with functions := st.functions.push c })

/-- A new class. -/
def newClass (st : Store) (c : ClassObject EnvId) : ClassId × Store :=
  (st.classes.size, { st with classes := st.classes.push c })

/-- A new instance, without fields. -/
def newInstance (st : Store) (cls : ClassId) : InstanceId × Store :=
  (st.instances.size, { st with instances := st.instances.push ⟨cls, []⟩ })

/-- A new native function. -/
def newNative (st : Store) (n : Native) : NativeId × Store :=
  (st.natives.size, { st with natives := st.natives.push n })

end Store

end Lox
