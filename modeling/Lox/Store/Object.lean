import Lox.Store.Environment
import Lox.Number.Text

set_option autoImplicit false

/-! # Classes, instances and the texts of values

A method is looked up in a class and then in its superclasses. Reading a property of an instance
finds a field first; otherwise a method, which is bound to the instance each time anew: the
bound method is a function of its own, whose environment holds `this` and lies inside that of
the method.
-/

namespace Lox

namespace Heap

variable {ε : Type}

/-- The method of a class with this name, the nearest one up the superclasses. Links lead to
older classes. -/
def method? (h : Heap ε) (cls : ClassId) (name : String) : Option (Closure ε) :=
  match h.classes[cls]? with
  | none => none
  | some c =>
    match c.methods.lookup name with
    | some m => some m
    | none =>
      match c.superclass with
      | some above => if above < cls then h.method? above name else none
      | none => none
termination_by cls

/-- The method that runs when an instance of a class is made. -/
def initializer? (h : Heap ε) (cls : ClassId) : Option (Closure ε) :=
  h.method? cls Function.initializerName

/-- The class of an instance. -/
def classOf? (h : Heap ε) (object : InstanceId) : Option ClassId :=
  h.instances[object]?.map Instance.cls

/-- The field of an instance. -/
def field? (h : Heap ε) (object : InstanceId) (name : String) : Option Value :=
  match h.instances[object]? with
  | some i => i.fields.get? name
  | none => none

/-- What a property of an instance is. -/
inductive Property (ε : Type)
  | field (value : Value)
  | method (method : Closure ε)
deriving Inhabited

/-- The property of an instance: a field, or else a method of its class. -/
def property? (h : Heap ε) (object : InstanceId) (name : String) : Option (Property ε) :=
  match h.field? object name with
  | some v => some (.field v)
  | none => ((h.classOf? object).bind (h.method? · name)).map .method

/-- The property of an instance, or the error that it has none of this name. -/
def property (h : Heap ε) (object : InstanceId) (name : Name) :
    Except RuntimeError (Property ε) :=
  match h.property? object name.text with
  | some p => .ok p
  | none => .error ⟨.undefinedProperty name.text, name.line⟩

/-- How many arguments a call of a value takes, if it can be called: a class takes those of its
initializer. -/
def arity? (h : Heap ε) : Value → Option Nat
  | .nativeRef n => h.natives[n]?.map Native.arity
  | .functionRef f => h.functions[f]?.map Closure.arity
  | .classRef c => some (((h.initializer? c).map Closure.arity).getD 0)
  | _ => none

/-- The name of a class. -/
def className (h : Heap ε) (cls : ClassId) : String :=
  ((h.classes[cls]?).map ClassObject.name).getD ""

/-- The name of a function. -/
def functionName (h : Heap ε) (f : FunctionId) : String :=
  ((h.functions[f]?).map (·.decl.name.text)).getD ""

/-- The text of a value, as it is printed. -/
def text (h : Heap ε) : Value → String
  | .nil => "nil"
  | .bool true => "true"
  | .bool false => "false"
  | .number x => Number.Format.printed.text x
  | .string s => s
  | .nativeRef _ => "<native fn>"
  | .functionRef f => "<fn " ++ h.functionName f ++ ">"
  | .classRef c => h.className c
  | .instanceRef i => ((h.classOf? i).map h.className).getD "" ++ " instance"

end Heap

namespace Store

/-- A method bound to an instance. -/
def bind (st : Store) (m : Closure EnvId) (object : InstanceId) : Closure EnvId × Store :=
  let (e, st) := st.newEnvironment (some m.env)
  ({ m with env := e }, st.define e "this" (.instanceRef object))

/-- A method bound to an instance, as a value. -/
def bindValue (st : Store) (m : Closure EnvId) (object : InstanceId) : Value × Store :=
  let (bound, st) := st.bind m object
  let (f, st) := st.newFunction bound
  (.functionRef f, st)

/-- Gives a field of an instance a value. -/
def setField (st : Store) (object : InstanceId) (name : String) (value : Value) : Store :=
  { st with
    instances := st.instances.modify object fun i => { i with fields := i.fields.set name value } }

/-- The value that a property of an instance is read as. -/
def readProperty (st : Store) (object : InstanceId) : Heap.Property EnvId → Value × Store
  | .field v => (v, st)
  | .method m => st.bindValue m object

end Store

end Lox
