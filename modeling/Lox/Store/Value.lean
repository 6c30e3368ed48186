import Lox.Tree.Basic

set_option autoImplicit false

/-! # Values

A value is a scalar, or the identity of something that lives in a store: a native function, a
function, a class or an instance. Two such identities are equal exactly when they are the same
thing; numbers compare as doubles do, so that `NaN` differs from itself and the two zeros are
equal.
-/

namespace Lox

/-- The identity of an environment: its place in the order of allocation. -/
abbrev EnvId := Nat

/-- The identity of a native function. -/
abbrev NativeId := Nat

/-- The identity of a function. -/
abbrev FunctionId := Nat

/-- The identity of a class. -/
abbrev ClassId := Nat

/-- The identity of an instance. -/
abbrev InstanceId := Nat

/-- What an expression evaluates to. -/
inductive Value
  | nil
  | bool (value : Bool)
  | number (value : Float)
  | string (contents : String)
  | nativeRef (native : NativeId)
  | functionRef (function : FunctionId)
  | classRef (cls : ClassId)
  | instanceRef (object : InstanceId)
deriving Inhabited

namespace Value

/-- The value of a literal. -/
def ofLiteral : Literal → Value
  | .nil => nil
  | .bool b => bool b
  | .number x => number x
  | .string s => string s

/-- Everything is truthy but `nil` and `false`. -/
def isTruthy : Value → Bool
  | nil => false
  | bool b => b
  | _ => true

/-- Equality of values, as `==` decides it. Values of different kinds differ. -/
def equals : Value → Value → Bool
  | nil, nil => true
  | bool a, bool b => a == b
  | number x, number y => x == y
  | string s, string t => s == t
  | nativeRef a, nativeRef b => a == b
  | functionRef a, functionRef b => a == b
  | classRef a, classRef b => a == b
  | instanceRef a, instanceRef b => a == b
  | _, _ => false

end Value

/-! ## Named values -/

/-- Values by name: the variables of an environment, or the fields of an instance. No name
occurs twice if values are put in by `set` alone. -/
abbrev NamedValues := List (String × Value)

namespace NamedValues

/-- The value of a name. -/
def get? : NamedValues → String → Option Value
  | [], _ => none
  | (key, value) :: rest, name => if key == name then some value else NamedValues.get? rest name

/-- Gives a name a value, in the place of the one it had. -/
def set : NamedValues → String → Value → NamedValues
  | [], name, value => [(name, value)]
  | (key, old) :: rest, name, value =>
    if key == name then (key, value) :: rest else (key, old) :: NamedValues.set rest name value

@[simp] theorem get?_nil (name : String) : NamedValues.get? [] name = none := rfl

theorem get?_cons (entry : String × Value) (vs : NamedValues) (name : String) :
    NamedValues.get? (entry :: vs) name =
      if entry.1 == name then some entry.2 else NamedValues.get? vs name := rfl

/-- After `set`, the name has the value, and every other name the one it had. -/
theorem get?_set (vs : NamedValues) (name name' : String) (value : Value) :
    (vs.set name value).get? name' = if name == name' then some value else vs.get? name' := by
  induction vs with
  | nil => rfl
  | cons entry rest ih =>
    obtain ⟨key, old⟩ := entry
    unfold NamedValues.set
    by_cases h : (key == name) = true
    · have hkey : key = name := by simpa using h
      subst hkey
      by_cases h' : (key == name') = true <;> simp [get?_cons, h']
    · rw [if_neg h]
      by_cases h' : (key == name') = true
      · have hkey : key = name' := by simpa using h'
        subst hkey
        have hne : (name == key) = false := by
          rw [Bool.eq_false_iff]
          intro heq
          exact h (by simpa using (by simpa using heq : name = key).symm)
        simp [get?_cons, hne]
      · simp [get?_cons, h', ih]

end NamedValues

end Lox
