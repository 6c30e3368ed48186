import Lox.Session

set_option autoImplicit false

/-! # Lexical scoping

A second semantics of programs, in which scoping is what a reader of the source expects. Every
execution of a local declaration makes a new cell. What is visible at a point of a program is an
immutable map from names to cells (`View`), which each declaration extends from that point to the
end of its block, and a function is closed over the map of the point where it is declared. A name
that the map does not have is looked up, by name and when it is used, in one table of global
variables.

There are no environments here, and no distances: references are names. Everything that has nothing
to do with variables is as in the machine that runs programs, and steps correspond to its steps.
-/

namespace Lox.Lexical

/-- The identity of a local variable. -/
abbrev CellId := Nat

/-- The local variables that are visible at a point, the latest first, and whether the point is
in a block or a function at all. -/
structure View where
  isLocal : Bool
  cells : List (String × CellId)
deriving Inhabited

namespace View

/-- Nothing local is visible at the top level. -/
def top : View := ⟨false, []⟩

/-- The view at the beginning of a block or a function. -/
def enter (view : View) : View := { view with isLocal := true }

/-- The view after a declaration. -/
def bind (view : View) (name : String) (c : CellId) : View :=
  { view with cells := (name, c) :: view.cells }

/-- The variable that a name means. -/
def cell? (view : View) (name : String) : Option CellId := view.cells.lookup name

end View

/-- The values of all variables, and everything that has an identity. -/
structure Store extends Heap View where
  cells : Array Value
  globals : NamedValues
deriving Inhabited

namespace Store

/-- A new local variable. -/
def newCell (st : Store) (v : Value) : CellId × Store :=
  (st.cells.size, { st with cells := st.cells.push v })

/-- The value of a local variable. -/
def valueOf (st : Store) (c : CellId) : Value := st.cells[c]?.getD .nil

/-- Overwrites a local variable. -/
def setCell (st : Store) (c : CellId) (v : Value) : Store :=
  { st with cells := st.cells.setIfInBounds c v }

/-- Gives a global variable a value. -/
def setGlobal (st : Store) (name : String) (v : Value) : Store :=
  { st with globals := st.globals.set name v }

/-- A new function. -/
def newFunction (st : Store) (c : Closure View) : FunctionId × Store :=
  (st.functions.size, { st with functions := st.functions.push c })

/-- A new class. -/
def newClass (st : Store) (c : ClassObject View) : ClassId × Store :=
  (st.classes.size, { st with classes := st.classes.push c })

/-- A new instance, without fields. -/
def newInstance (st : Store) (cls : ClassId) : InstanceId × Store :=
  (st.instances.size, { st with instances := st.instances.push ⟨cls, []⟩ })

/-- Gives a field of an instance a value. -/
def setField (st : Store) (object : InstanceId) (name : String) (v : Value) : Store :=
  { st with
    instances := st.instances.modify object fun i => { i with fields := i.fields.set name v } }

/-- A method bound to an instance sees `this`, a variable of its own. -/
def bind (st : Store) (m : Closure View) (object : InstanceId) : Closure View × Store :=
  let (c, st) := st.newCell (.instanceRef object)
  ({ m with env := m.env.enter.bind "this" c }, st)

/-- A method bound to an instance, as a value. -/
def bindValue (st : Store) (m : Closure View) (object : InstanceId) : Value × Store :=
  let (bound, st) := st.bind m object
  let (f, st) := st.newFunction bound
  (.functionRef f, st)

/-- The value that a property of an instance is read as. -/
def readProperty (st : Store) (object : InstanceId) : Heap.Property View → Value × Store
  | .field v => (v, st)
  | .method m => st.bindValue m object

end Store

/-- What a run works on. -/
structure State where
  store : Store
  view : View
  calls : Nat
  output : String
  ticks : Nat
deriving Inhabited

/-- A configuration of a run. -/
structure Config where
  control : Control
  frames : List (Frame View)
  state : State
deriving Inhabited

namespace State

/-- The state that every run starts in: the native functions are global variables. -/
def start : State :=
  let globals := Native.all.mapIdx fun id n => (n.name, .nativeRef id)
  ⟨⟨⟨#[], #[], #[], Native.all.toArray⟩, #[], globals⟩, .top, 0, "", 0⟩

/-! ## Variables -/

/-- The value of a variable. -/
def read (st : State) (name : Name) : Except RuntimeError Value :=
  match st.view.cell? name.text with
  | some c => .ok (st.store.valueOf c)
  | none =>
    match st.store.globals.get? name.text with
    | some v => .ok v
    | none => .error ⟨.undefined name.text, name.line⟩

/-- Gives a name the value that it has from now on, be it visible or global. -/
def put (st : State) (name : String) (v : Value) : State :=
  match st.view.cell? name with
  | some c => { st with store := st.store.setCell c v }
  | none => { st with store := st.store.setGlobal name v }

/-- Overwrites a variable. -/
def assign (st : State) (name : Name) (v : Value) : Except RuntimeError State :=
  match st.view.cell? name.text, st.store.globals.get? name.text with
  | none, none => .error ⟨.undefined name.text, name.line⟩
  | _, _ => .ok (st.put name.text v)

/-- Declares a variable: a new cell in a block or a function, a global variable elsewhere. -/
def declare (st : State) (name : String) (v : Value) : State :=
  if st.view.isLocal then
    let (c, store) := st.store.newCell v
    { st with store, view := st.view.bind name c }
  else { st with store := st.store.setGlobal name v }

/-- Declares variables one after another. -/
def declareAll (st : State) : List (String × Value) → State
  | [] => st
  | (name, v) :: rest => (st.declare name v).declareAll rest

/-- The method that `super` names, and the instance it is to be bound to. -/
def superMethod (st : State) (keyword method : Name) :
    Except RuntimeError (Closure View × InstanceId) :=
  match st.view.cell? "super" with
  | none => .error ⟨.undefined keyword.text, keyword.line⟩
  | some c =>
    match st.store.valueOf c, (st.view.cell? "this").map st.store.valueOf with
    | .classRef above, some (.instanceRef object) =>
      match st.store.method? above method.text with
      | some m => .ok (m, object)
      | none => .error ⟨.undefinedProperty method.text, method.line⟩
    | _, _ => .error ⟨.unbound keyword.text, keyword.line⟩

/-! ## Results -/

/-- The configuration that gives a value. -/
def give (st : State) (v : Value) (frames : List (Frame View)) : Config := ⟨.give v, frames, st⟩

/-- The configuration in which an error is on its way out. -/
def fail (st : State) (cause : RuntimeError.Cause) (line : Nat) (frames : List (Frame View)) :
    Config :=
  ⟨.failing ⟨cause, line⟩, frames, st⟩

/-- The configuration after a computation that may fail on a line. -/
def giveOrFail (st : State) (line : Nat) (frames : List (Frame View)) :
    Except RuntimeError.Cause Value → Config
  | .ok v => st.give v frames
  | .error cause => st.fail cause line frames

/-! ## Calls -/

/-- Starts the body of a function: its parameters are declared in what it is closed over. -/
def enter (st : State) (c : Closure View) (arguments : List Value) (yield : Yield View)
    (frames : List (Frame View)) : Config :=
  let inside := { st with view := c.env.enter, calls := st.calls + 1 }
  ⟨.execAll c.decl.body, .call st.view yield :: frames,
    inside.declareAll ((c.decl.parameters.map Name.text).zip arguments)⟩

/-- Makes an instance of a class and runs its initializer on it, if it has one. -/
def instantiate (st : State) (cls : ClassId) (arguments : List Value)
    (frames : List (Frame View)) : Config :=
  let init? := st.store.initializer? cls
  let (object, store) := st.store.newInstance cls
  match init? with
  | some m =>
    let (bound, store) := store.bind m object
    { st with store }.enter bound arguments (.made object) frames
  | none => { st with store }.give (.instanceRef object) frames

/-- Calls a value whose argument count is right. -/
def invoke (st : State) (clock : Nat → Float) (callee : Value) (arguments : List Value)
    (line : Nat) (frames : List (Frame View)) : Config :=
  match callee with
  | .nativeRef n =>
    match st.store.natives[n]? with
    | some .clock => { st with ticks := st.ticks + 1 }.give (.number (clock st.ticks)) frames
    | none => st.fail .notCallable line frames
  | .functionRef f =>
    match st.store.functions[f]? with
    | some c => st.enter c arguments (if c.isInitializer then .receiver c.env else .result) frames
    | none => st.fail .notCallable line frames
  | .classRef c => st.instantiate c arguments frames
  | _ => st.fail .notCallable line frames

/-- Calls a value: it has to be callable, take this many arguments, and find room for one more
call, in this order. -/
def call (st : State) (clock : Nat → Float) (callee : Value) (arguments : List Value)
    (line : Nat) (frames : List (Frame View)) : Config :=
  match st.store.arity? callee with
  | none => st.fail .notCallable line frames
  | some arity =>
    if arguments.length ≠ arity then st.fail (.wrongArity arity arguments.length) line frames
    else if maxCalls ≤ st.calls then st.fail .stackOverflow line frames
    else st.invoke clock callee arguments line frames

/-- Evaluates the next argument of a call, or makes the call after the last one. -/
def evalArguments (st : State) (clock : Nat → Float) (callee : Value) (before : List Value)
    (after : List Expr) (line : Nat) (frames : List (Frame View)) : Config :=
  match after with
  | e :: es => ⟨.eval e, .argument callee before es line :: frames, st⟩
  | [] => st.call clock callee before.reverse line frames

/-- What a call gives, `returned` being the value of a `return`. -/
def yielded (st : State) (yield : Yield View) (returned : Value) : Value :=
  match yield with
  | .result => returned
  | .receiver view => ((view.cell? "this").map st.store.valueOf).getD .nil
  | .made object => .instanceRef object

/-! ## Declarations -/

/-- Declares a function, which sees its own name. -/
def declareFunction (st : State) (f : Function) : State :=
  let st := st.declare f.name.text .nil
  let (id, store) := st.store.newFunction ⟨f, st.view, false⟩
  { st with store }.put f.name.text (.functionRef id)

/-- Declares a class, whose methods see its name, and `super` if it has a superclass. -/
def declareClass (st : State) (name : Name) (superclass : Option ClassId)
    (methods : List Function) : State :=
  let st := st.declare name.text .nil
  let (view, store) :=
    match superclass with
    | none => (st.view, st.store)
    | some above =>
      let (c, store) := st.store.newCell (.classRef above)
      (st.view.enter.bind "super" c, store)
  let (cls, store) :=
    store.newClass ⟨name.text, superclass, Lox.State.methodTable view methods⟩
  { st with store }.put name.text (.classRef cls)

/-! ## Steps -/

/-- The step that starts an expression. -/
def eval (st : State) (frames : List (Frame View)) : Expr → Config
  | .literal l => st.give (.ofLiteral l) frames
  | .grouping inner => ⟨.eval inner, frames, st⟩
  | .unary op line operand => ⟨.eval operand, .unary op line :: frames, st⟩
  | .binary op line left right => ⟨.eval left, .binaryLeft op line right :: frames, st⟩
  | .logical op left right => ⟨.eval left, .logical op right :: frames, st⟩
  | .variable name | .this name =>
    match st.read name with
    | .ok v => st.give v frames
    | .error e => ⟨.failing e, frames, st⟩
  | .assign name value => ⟨.eval value, .assign name :: frames, st⟩
  | .call callee arguments line => ⟨.eval callee, .callee arguments line :: frames, st⟩
  | .get object property => ⟨.eval object, .get property :: frames, st⟩
  | .set object property value => ⟨.eval object, .setObject property value :: frames, st⟩
  | .super keyword method =>
    match st.superMethod keyword method with
    | .ok (m, object) =>
      let (v, store) := st.store.bindValue m object
      { st with store }.give v frames
    | .error e => ⟨.failing e, frames, st⟩

/-- The step that starts a statement. -/
def exec (st : State) (frames : List (Frame View)) : Stmt → Config
  | .expression e => ⟨.eval e, frames, st⟩
  | .print e => ⟨.eval e, .print :: frames, st⟩
  | .var name none => (st.declare name.text .nil).give .nil frames
  | .var name (some e) => ⟨.eval e, .var name :: frames, st⟩
  | .block body => ⟨.execAll body, .scope st.view :: frames, { st with view := st.view.enter }⟩
  | .branch condition yes no => ⟨.eval condition, .branch yes no :: frames, st⟩
  | .loop condition body => ⟨.eval condition, .loopTest condition body :: frames, st⟩
  | .function f => (st.declareFunction f).give .nil frames
  | .ret _ none => ⟨.returning .nil, frames, st⟩
  | .ret _ (some e) => ⟨.eval e, .ret :: frames, st⟩
  | .classDecl name none methods => (st.declareClass name none methods).give .nil frames
  | .classDecl name (some superclass) methods =>
    ⟨.eval (.variable superclass), .superclass name superclass methods :: frames, st⟩

/-- The step that runs the first of several statements. -/
def execAll (st : State) (frames : List (Frame View)) : List Stmt → Config
  | [] => st.give .nil frames
  | stmt :: body => ⟨.exec stmt, .rest body :: frames, st⟩

/-- The step that runs the next statement of the top level. -/
def continueProgram (st : State) (frames : List (Frame View)) : Program → Config
  | [] => st.give .nil frames
  | stmt :: rest => ⟨.exec stmt, .program rest :: frames, st⟩

/-- Gives the property of a value. -/
def giveProperty (st : State) (object : Value) (property : Name) (frames : List (Frame View)) :
    Config :=
  match object with
  | .instanceRef i =>
    match st.store.property i property with
    | .ok p =>
      let (v, store) := st.store.readProperty i p
      { st with store }.give v frames
    | .error e => ⟨.failing e, frames, st⟩
  | _ => st.fail .propertyOfNonInstance property.line frames

/-- The state after a frame is left: what is visible is again what was visible before. -/
def leave (st : State) : Frame View → State
  | .scope outer => { st with view := outer }
  | .call caller _ => { st with view := caller, calls := st.calls - 1 }
  | _ => st

/-- The step in which a frame takes the value that it waits for. -/
def resume (st : State) (clock : Nat → Float) (frames : List (Frame View)) (v : Value) :
    Frame View → Config
  | .unary op line => st.giveOrFail line frames (op.apply v)
  | .binaryLeft op line right => ⟨.eval right, .binaryRight op line v :: frames, st⟩
  | .binaryRight op line left => st.giveOrFail line frames (op.apply left v)
  | .logical op right =>
    if op.isDecidedBy v then st.give v frames else ⟨.eval right, frames, st⟩
  | .assign name =>
    match st.assign name v with
    | .ok st => st.give v frames
    | .error e => ⟨.failing e, frames, st⟩
  | .callee arguments line => st.evalArguments clock v [] arguments line frames
  | .argument callee before after line =>
    st.evalArguments clock callee (v :: before) after line frames
  | .get property => st.giveProperty v property frames
  | .setObject property value =>
    match v with
    | .instanceRef i => ⟨.eval value, .setValue i property :: frames, st⟩
    | _ => st.fail .fieldOfNonInstance property.line frames
  | .setValue i property =>
    { st with store := st.store.setField i property.text v }.give v frames
  | .print => { st with output := st.output ++ st.store.text v ++ "\n" }.give .nil frames
  | .var name => (st.declare name.text v).give .nil frames
  | .ret => ⟨.returning v, frames, st⟩
  | .branch yes no =>
    if v.isTruthy then ⟨.exec yes, frames, st⟩
    else
      match no with
      | some no => ⟨.exec no, frames, st⟩
      | none => st.give .nil frames
  | .loopTest condition body =>
    if v.isTruthy then ⟨.exec body, .loopBody condition body :: frames, st⟩
    else st.give .nil frames
  | .loopBody condition body => ⟨.eval condition, .loopTest condition body :: frames, st⟩
  | .superclass name superclass methods =>
    match v with
    | .classRef above => (st.declareClass name (some above) methods).give .nil frames
    | _ => st.fail .superclassNotClass superclass.line frames
  | .rest body => ⟨.execAll body, frames, st⟩
  | .scope outer => (st.leave (.scope outer)).give v frames
  | .call caller yield => (st.leave (.call caller yield)).give (st.yielded yield .nil) frames
  | .program rest => st.continueProgram frames rest

/-- The step in which a `return` leaves a frame: a call gives the value, and the top level goes
on with its next statement. -/
def unwindReturn (st : State) (frames : List (Frame View)) (v : Value) : Frame View → Config
  | .call caller yield => (st.leave (.call caller yield)).give (st.yielded yield v) frames
  | .program rest => st.continueProgram frames rest
  | f => ⟨.returning v, frames, st.leave f⟩

end State

namespace Config

/-- The next configuration; a finished one stays as it is. -/
def step (clock : Nat → Float) (c : Config) : Config :=
  match c with
  | ⟨.eval e, frames, st⟩ => st.eval frames e
  | ⟨.exec stmt, frames, st⟩ => st.exec frames stmt
  | ⟨.execAll body, frames, st⟩ => st.execAll frames body
  | ⟨.give v, f :: frames, st⟩ => st.resume clock frames v f
  | ⟨.returning v, f :: frames, st⟩ => st.unwindReturn frames v f
  | ⟨.failing e, f :: frames, st⟩ => ⟨.failing e, frames, st.leave f⟩
  | c => c

/-- The configuration after a number of steps. -/
def run (clock : Nat → Float) : Nat → Config → Config
  | 0, c => c
  | steps + 1, c => run clock steps (c.step clock)

/-- Runs a program at the top level. -/
def ofProgram (p : Program) : Config := State.start.continueProgram [] p

/-- The report on the configuration that a run has come to. -/
def report (c : Config) : Report :=
  { output := c.state.output
    ending :=
      match c with
      | ⟨.give _, [], _⟩ | ⟨.returning _, [], _⟩ => .finished
      | ⟨.failing e, [], _⟩ => .failed e
      | _ => .running }

end Config

end Lox.Lexical
