import Lox.Machine.Basic
import Lox.Machine.Operator

set_option autoImplicit false

/-! # Steps of a run

`Config.step` is one step of a run; a finished configuration stays as it is. A step does one of
four things:

* it takes an expression or a statement apart and pushes a frame for what follows (`State.eval`,
  `State.exec`);
* it hands a value to the top frame (`State.resume`);
* it removes the top frame because of a `return` (`State.unwindReturn`);
* it removes the top frame because of an error (`State.unwindError`).
-/

namespace Lox

namespace State

/-! ## Variables -/

/-- The value of a reference: a local one is found the recorded number of links out, any other
one in the global environment. -/
def read (st : State) (s : Setting) (name : Name) : Except RuntimeError Value :=
  match s.bindings.hops? name with
  | some hops =>
    match st.store.getAt? st.env hops name.text with
    | some v => .ok v
    | none => .error ⟨.unbound name.text, name.line⟩
  | none => st.store.get globalEnv name

/-- The environment that holds the variable of a reference, where `read` finds it. -/
def binder (st : State) (s : Setting) (name : Name) : Except RuntimeError EnvId :=
  match s.bindings.hops? name with
  | some hops =>
    match st.store.binderAt? st.env hops name.text with
    | some e => .ok e
    | none => .error ⟨.unbound name.text, name.line⟩
  | none =>
    match st.store.binder? globalEnv name.text with
    | some e => .ok e
    | none => .error ⟨.undefined name.text, name.line⟩

/-- Declares a variable in the current environment. -/
def define (st : State) (name : String) (value : Value) : State :=
  { st with store := st.store.define st.env name value }

/-- The method that `super` names, and the instance it is to be bound to: it is looked up in
the class that the environment of `super` holds, and bound to the `this` of the environment just
inside. -/
def superMethod (st : State) (s : Setting) (keyword method : Name) :
    Except RuntimeError (Closure EnvId × InstanceId) :=
  match s.bindings.hops? keyword with
  | none => .error ⟨.undefined keyword.text, keyword.line⟩
  | some hops =>
    match st.store.getAt? st.env hops "super" with
    | some (.classRef above) =>
      match (if hops = 0 then none else st.store.getAt? st.env (hops - 1) "this") with
      | some (.instanceRef object) =>
        match st.store.method? above method.text with
        | some m => .ok (m, object)
        | none => .error ⟨.undefinedProperty method.text, method.line⟩
      | _ => .error ⟨.unbound "this", keyword.line⟩
    | _ => .error ⟨.unbound keyword.text, keyword.line⟩

/-! ## Results -/

/-- The configuration that gives a value. -/
def give (st : State) (v : Value) (frames : List (Frame EnvId)) : Config :=
  ⟨.give v, frames, st⟩

/-- The configuration in which an error is on its way out. -/
def fail (st : State) (cause : RuntimeError.Cause) (line : Nat) (frames : List (Frame EnvId)) :
    Config :=
  ⟨.failing ⟨cause, line⟩, frames, st⟩

/-- The configuration after a computation that may fail on a line. -/
def giveOrFail (st : State) (line : Nat) (frames : List (Frame EnvId)) :
    Except RuntimeError.Cause Value → Config
  | .ok v => st.give v frames
  | .error cause => st.fail cause line frames

/-! ## Calls -/

/-- Starts the body of a function in a new environment that holds its parameters. -/
def enter (st : State) (c : Closure EnvId) (arguments : List Value) (yield : Yield EnvId)
    (frames : List (Frame EnvId)) : Config :=
  let (e, store) := st.store.newEnvironment (some c.env)
  let parameters := (c.decl.parameters.map Name.text).zip arguments
  let store := store.defineAll e parameters
  ⟨.execAll c.decl.body, .call st.env yield :: frames,
    { st with store, env := e, calls := st.calls + 1 }⟩

/-- Makes an instance of a class and runs its initializer on it, if it has one. -/
def instantiate (st : State) (cls : ClassId) (arguments : List Value)
    (frames : List (Frame EnvId)) : Config :=
  let init? := st.store.initializer? cls
  let (object, store) := st.store.newInstance cls
  match init? with
  | some m =>
    let (bound, store) := store.bind m object
    { st with store }.enter bound arguments (.made object) frames
  | none => { st with store }.give (.instanceRef object) frames

/-- Calls a value whose argument count is right. -/
def invoke (st : State) (s : Setting) (callee : Value) (arguments : List Value) (line : Nat)
    (frames : List (Frame EnvId)) : Config :=
  match callee with
  | .nativeRef n =>
    match st.store.natives[n]? with
    | some .clock => { st with ticks := st.ticks + 1 }.give (.number (s.clock st.ticks)) frames
    | none => st.fail .notCallable line frames
  | .functionRef f =>
    match st.store.functions[f]? with
    | some c => st.enter c arguments (if c.isInitializer then .receiver c.env else .result) frames
    | none => st.fail .notCallable line frames
  | .classRef c => st.instantiate c arguments frames
  | _ => st.fail .notCallable line frames

/-- Calls a value: it has to be callable, take this many arguments, and find room for one more
call, in this order. -/
def call (st : State) (s : Setting) (callee : Value) (arguments : List Value) (line : Nat)
    (frames : List (Frame EnvId)) : Config :=
  match st.store.arity? callee with
  | none => st.fail .notCallable line frames
  | some arity =>
    if arguments.length ≠ arity then st.fail (.wrongArity arity arguments.length) line frames
    else if maxCalls ≤ st.calls then st.fail .stackOverflow line frames
    else st.invoke s callee arguments line frames

/-- Evaluates the next argument of a call, or makes the call after the last one. -/
def evalArguments (st : State) (s : Setting) (callee : Value) (before : List Value)
    (after : List Expr) (line : Nat) (frames : List (Frame EnvId)) : Config :=
  match after with
  | e :: es => ⟨.eval e, .argument callee before es line :: frames, st⟩
  | [] => st.call s callee before.reverse line frames

/-- What a call gives, `returned` being the value of a `return`. -/
def yielded (st : State) (yield : Yield EnvId) (returned : Value) : Value :=
  match yield with
  | .result => returned
  | .receiver e => (st.store.getAt? e 0 "this").getD .nil
  | .made object => .instanceRef object

/-! ## Classes -/

/-- The methods of a class, closed over an environment; the last one comes first. -/
def methodTable {ε : Type} (e : ε) (methods : List Function) : List (String × Closure ε) :=
  (methods.map fun f => (f.name.text, ⟨f, e, f.isNamedInit⟩)).reverse

/-- Goes into an environment that holds `super`, if a class has a superclass. -/
def enterSuper (st : State) : Option ClassId → State
  | none => st
  | some above =>
    let (e, store) := st.store.newEnvironment (some st.env)
    { st with store := store.define e "super" (.classRef above), env := e }

/-- Declares a class whose superclass, if it has one, is known: methods of a subclass are
closed over an environment that holds `super`, and the current environment is put back before
the class is assigned to its name. The name was declared there just before, so the assignment
finds it in that environment. -/
def declareClass (st : State) (name : Name) (superclass : Option ClassId)
    (methods : List Function) : State :=
  let outer := st.define name.text .nil
  let inner := outer.enterSuper superclass
  let (cls, store) :=
    inner.store.newClass ⟨name.text, superclass, methodTable inner.env methods⟩
  { inner with store, env := outer.env }.define name.text (.classRef cls)

/-! ## Steps -/

/-- The step that starts an expression. -/
def eval (st : State) (s : Setting) (frames : List (Frame EnvId)) : Expr → Config
  | .literal l => st.give (.ofLiteral l) frames
  | .grouping inner => ⟨.eval inner, frames, st⟩
  | .unary op line operand => ⟨.eval operand, .unary op line :: frames, st⟩
  | .binary op line left right => ⟨.eval left, .binaryLeft op line right :: frames, st⟩
  | .logical op left right => ⟨.eval left, .logical op right :: frames, st⟩
  | .variable name | .this name =>
    match st.read s name with
    | .ok v => st.give v frames
    | .error e => ⟨.failing e, frames, st⟩
  | .assign name value => ⟨.eval value, .assign name :: frames, st⟩
  | .call callee arguments line => ⟨.eval callee, .callee arguments line :: frames, st⟩
  | .get object property => ⟨.eval object, .get property :: frames, st⟩
  | .set object property value => ⟨.eval object, .setObject property value :: frames, st⟩
  | .super keyword method =>
    match st.superMethod s keyword method with
    | .ok (m, object) =>
      let (v, store) := st.store.bindValue m object
      { st with store }.give v frames
    | .error e => ⟨.failing e, frames, st⟩

/-- The step that starts a statement. -/
def exec (st : State) (frames : List (Frame EnvId)) : Stmt → Config
  | .expression e => ⟨.eval e, frames, st⟩
  | .print e => ⟨.eval e, .print :: frames, st⟩
  | .var name none => (st.define name.text .nil).give .nil frames
  | .var name (some e) => ⟨.eval e, .var name :: frames, st⟩
  | .block body =>
    let (e, store) := st.store.newEnvironment (some st.env)
    ⟨.execAll body, .scope st.env :: frames, { st with store, env := e }⟩
  | .branch condition yes no => ⟨.eval condition, .branch yes no :: frames, st⟩
  | .loop condition body => ⟨.eval condition, .loopTest condition body :: frames, st⟩
  | .function f =>
    let (id, store) := st.store.newFunction ⟨f, st.env, false⟩
    ({ st with store }.define f.name.text (.functionRef id)).give .nil frames
  | .ret _ none => ⟨.returning .nil, frames, st⟩
  | .ret _ (some e) => ⟨.eval e, .ret :: frames, st⟩
  | .classDecl name none methods => (st.declareClass name none methods).give .nil frames
  | .classDecl name (some superclass) methods =>
    ⟨.eval (.variable superclass), .superclass name superclass methods :: frames, st⟩

/-- The step that runs the first of several statements. -/
def execAll (st : State) (frames : List (Frame EnvId)) : List Stmt → Config
  | [] => st.give .nil frames
  | stmt :: body => ⟨.exec stmt, .rest body :: frames, st⟩

/-- The step that runs the next statement of the top level. -/
def continueProgram (st : State) (frames : List (Frame EnvId)) : Program → Config
  | [] => st.give .nil frames
  | stmt :: rest => ⟨.exec stmt, .program rest :: frames, st⟩

/-- Gives the property of a value. -/
def giveProperty (st : State) (object : Value) (property : Name) (frames : List (Frame EnvId)) :
    Config :=
  match object with
  | .instanceRef i =>
    match st.store.property i property with
    | .ok p =>
      let (v, store) := st.store.readProperty i p
      { st with store }.give v frames
    | .error e => ⟨.failing e, frames, st⟩
  | _ => st.fail .propertyOfNonInstance property.line frames

/-- The step in which a frame takes the value that it waits for. -/
def resume (st : State) (s : Setting) (frames : List (Frame EnvId)) (v : Value) :
    Frame EnvId → Config
  | .unary op line => st.giveOrFail line frames (op.apply v)
  | .binaryLeft op line right => ⟨.eval right, .binaryRight op line v :: frames, st⟩
  | .binaryRight op line left => st.giveOrFail line frames (op.apply left v)
  | .logical op right =>
    if op.isDecidedBy v then st.give v frames else ⟨.eval right, frames, st⟩
  | .assign name =>
    match st.binder s name with
    | .ok e => { st with store := st.store.define e name.text v }.give v frames
    | .error e => ⟨.failing e, frames, st⟩
  | .callee arguments line => st.evalArguments s v [] arguments line frames
  | .argument callee before after line =>
    st.evalArguments s callee (v :: before) after line frames
  | .get property => st.giveProperty v property frames
  | .setObject property value =>
    match v with
    | .instanceRef i => ⟨.eval value, .setValue i property :: frames, st⟩
    | _ => st.fail .fieldOfNonInstance property.line frames
  | .setValue i property =>
    { st with store := st.store.setField i property.text v }.give v frames
  | .print => { st with output := st.output ++ st.store.text v ++ "\n" }.give .nil frames
  | .var name => (st.define name.text v).give .nil frames
  | .ret => ⟨.returning v, frames, st⟩
  | .branch yes no =>
    if v.isTruthy then ⟨.exec yes, frames, st⟩
    else
      match no with
      | some no => ⟨.exec no, frames, st⟩
      | none => st.give .nil frames
  | .loopTest condition body =>
    if v.isTruthy then ⟨.exec body, .loopBody condition body :: frames, st⟩
    else st.give .nil frames
  | .loopBody condition body => ⟨.eval condition, .loopTest condition body :: frames, st⟩
  | .superclass name superclass methods =>
    match v with
    | .classRef above => (st.declareClass name (some above) methods).give .nil frames
    | _ => st.fail .superclassNotClass superclass.line frames
  | .rest body => ⟨.execAll body, frames, st⟩
  | .scope outer => ((Frame.scope outer).leave st).give v frames
  | .call caller yield =>
    let result := st.yielded yield .nil
    ((Frame.call caller yield).leave st).give result frames
  | .program rest => st.continueProgram frames rest

/-- The step in which a `return` leaves a frame: a call gives the value, and the top level goes
on with its next statement. -/
def unwindReturn (st : State) (frames : List (Frame EnvId)) (v : Value) : Frame EnvId → Config
  | .call caller yield =>
    let result := st.yielded yield v
    ((Frame.call caller yield).leave st).give result frames
  | .program rest => st.continueProgram frames rest
  | f => ⟨.returning v, frames, f.leave st⟩

/-- The step in which an error leaves a frame. -/
def unwindError (st : State) (frames : List (Frame EnvId)) (e : RuntimeError)
    (f : Frame EnvId) : Config :=
  ⟨.failing e, frames, f.leave st⟩

end State

namespace Config

/-- The next configuration; a finished one stays as it is. -/
def step (s : Setting) (c : Config) : Config :=
  match c with
  | ⟨.eval e, frames, st⟩ => st.eval s frames e
  | ⟨.exec stmt, frames, st⟩ => st.exec frames stmt
  | ⟨.execAll body, frames, st⟩ => st.execAll frames body
  | ⟨.give v, f :: frames, st⟩ => st.resume s frames v f
  | ⟨.returning v, f :: frames, st⟩ => st.unwindReturn frames v f
  | ⟨.failing e, f :: frames, st⟩ => st.unwindError frames e f
  | c => c

/-- Nothing is left to be done. -/
def isFinished (c : Config) : Bool :=
  match c.control, c.frames with
  | .give _, [] | .returning _, [] | .failing _, [] => true
  | _, _ => false

/-- The configuration after a number of steps, or after fewer if it is finished then. -/
def run (s : Setting) : Nat → Config → Config
  | 0, c => c
  | steps + 1, c => if c.isFinished then c else run s steps (c.step s)

/-- A finished configuration stays as it is. -/
theorem step_of_isFinished (s : Setting) {c : Config} (h : c.isFinished = true) :
    c.step s = c := by
  obtain ⟨control, frames, st⟩ := c
  cases control <;> cases frames <;> simp_all [isFinished, step]

/-- Runs a program at the top level. -/
def ofProgram (p : Program) (st : State) : Config := st.continueProgram [] p

/-- Evaluates an expression by itself. -/
def ofExpr (e : Expr) (st : State) : Config := ⟨.eval e, [], st⟩

/-- How a finished run ended: with a value or with an error. -/
def outcome? (c : Config) : Option (Except RuntimeError Value) :=
  match c with
  | ⟨.give v, [], _⟩ | ⟨.returning v, [], _⟩ => some (.ok v)
  | ⟨.failing e, [], _⟩ => some (.error e)
  | _ => none

end Config

end Lox
