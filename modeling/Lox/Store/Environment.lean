import Lox.RuntimeError
import Lox.Store.Basic

set_option autoImplicit false

/-! # Reading and writing variables

There are two ways to reach a variable. `get?` and `assign?` search the environments from the
given one outward and use the first that binds the name (`binder?`); `getAt?` and `assignAt?` go
exactly a number of links out (`ancestor?`, `binderAt?`) and look nowhere else. Neither way of
assigning makes a new variable; only `define` does.
-/

namespace Lox.Store

/-- The value of a name in one environment. -/
def lookupIn? (st : Store) (e : EnvId) (name : String) : Option Value :=
  match st.environments[e]? with
  | some env => env.vars.get? name
  | none => none

/-- The environment around an environment. -/
def enclosing? (st : Store) (e : EnvId) : Option EnvId :=
  match st.environments[e]? with
  | some env => env.enclosing
  | none => none

/-- Gives a name a value in one environment. -/
def define (st : Store) (e : EnvId) (name : String) (value : Value) : Store :=
  { st with
    environments :=
      st.environments.modify e fun env => { env with vars := env.vars.set name value } }

/-- Gives names values in one environment, in order. -/
def defineAll (st : Store) (e : EnvId) : List (String × Value) → Store
  | [] => st
  | (name, value) :: rest => (st.define e name value).defineAll e rest

/-- The environment that binds a name, from the given one outward. Links lead to older
environments. -/
def binder? (st : Store) (e : EnvId) (name : String) : Option EnvId :=
  if (st.lookupIn? e name).isSome then some e
  else
    match st.enclosing? e with
    | some outer => if outer < e then st.binder? outer name else none
    | none => none
termination_by e

/-- The value of a name, from the given environment outward. -/
def get? (st : Store) (e : EnvId) (name : String) : Option Value :=
  match st.binder? e name with
  | some binder => st.lookupIn? binder name
  | none => none

/-- Overwrites the variable that `get?` reads. -/
def assign? (st : Store) (e : EnvId) (name : String) (value : Value) : Option Store :=
  match st.binder? e name with
  | some binder => some (st.define binder name value)
  | none => none

/-- The value of a name, or the error that it is undefined. -/
def get (st : Store) (e : EnvId) (name : Name) : Except RuntimeError Value :=
  match st.get? e name.text with
  | some v => .ok v
  | none => .error ⟨.undefined name.text, name.line⟩

/-- Overwrites a variable, or fails because it is undefined. -/
def assign (st : Store) (e : EnvId) (name : Name) (value : Value) : Except RuntimeError Store :=
  match st.assign? e name.text value with
  | some st => .ok st
  | none => .error ⟨.undefined name.text, name.line⟩

/-- The environment a number of links out. -/
def ancestor? (st : Store) (e : EnvId) : Nat → Option EnvId
  | 0 => some e
  | hops + 1 =>
    match st.enclosing? e with
    | some outer => st.ancestor? outer hops
    | none => none

/-- The environment a number of links out, if it binds the name. -/
def binderAt? (st : Store) (e : EnvId) (hops : Nat) (name : String) : Option EnvId :=
  match st.ancestor? e hops with
  | some a => if (st.lookupIn? a name).isSome then some a else none
  | none => none

/-- The value of a name in the environment a number of links out. -/
def getAt? (st : Store) (e : EnvId) (hops : Nat) (name : String) : Option Value :=
  match st.ancestor? e hops with
  | some a => st.lookupIn? a name
  | none => none

/-- Overwrites a variable in the environment a number of links out, if it is there. -/
def assignAt? (st : Store) (e : EnvId) (hops : Nat) (name : String) (value : Value) :
    Option Store :=
  match st.binderAt? e hops name with
  | some binder => some (st.define binder name value)
  | none => none

end Lox.Store
