import Lox.Binding.Table
import Lox.Store.Object

set_option autoImplicit false

/-! # The state of a run

A run is a sequence of configurations. A configuration has a control, which says what is to be
done now; a stack of frames, each waiting for what is above it to end; and a state: the store,
the current environment, the number of calls in progress, and what was printed.

An expression ends by giving its value. A statement that ends normally gives a value too, which
no frame looks at. A `return` or an error instead removes frames one by one; a frame that stands
for a block or a call puts the current environment and the number of calls back as it goes
(`Frame.leave`), whichever way it is left.
-/

namespace Lox

/-- What a run depends on besides its program: where the locals are, and the times that the
calls of `clock` answer, in order. -/
structure Setting where
  bindings : BindingTable
  clock : Nat → Float

/-- The most calls that may be in progress. -/
def maxCalls : Nat := 4096

/-- What a run works on. -/
structure State where
  store : Store
  /-- The current environment. -/
  env : EnvId
  /-- How many calls are in progress. -/
  calls : Nat
  output : String
  /-- How often `clock` was called. -/
  ticks : Nat
deriving Inhabited

/-- The global environment is the first one made. -/
def globalEnv : EnvId := 0

namespace State

/-- Makes a native function and the global variable that holds it. -/
def addNative (st : State) (n : Native) : State :=
  let (id, store) := st.store.newNative n
  { st with store := store.define globalEnv n.name (.nativeRef id) }

/-- The state that every run starts in: the native functions are global variables. -/
def start : State :=
  let (e, store) := Store.empty.newEnvironment none
  Native.all.foldl addNative ⟨store, e, 0, "", 0⟩

end State

/-- What a call gives when the body of the function has ended. -/
inductive Yield (ε : Type)
  /-- The value returned, or `nil`. -/
  | result
  /-- The instance that `this` is in this environment. -/
  | receiver (env : ε)
  /-- An instance just made. -/
  | made (object : InstanceId)
deriving Inhabited

/-- What waits for an expression or a statement to end. Blocks and calls keep an environment. -/
inductive Frame (ε : Type)
  | unary (op : UnaryOp) (line : Nat)
  | binaryLeft (op : BinaryOp) (line : Nat) (right : Expr)
  | binaryRight (op : BinaryOp) (line : Nat) (left : Value)
  | logical (op : LogicalOp) (right : Expr)
  | assign (name : Name)
  | callee (arguments : List Expr) (line : Nat)
  /-- Arguments that have values, the last one first, and those that have none yet. -/
  | argument (callee : Value) (before : List Value) (after : List Expr) (line : Nat)
  | get (property : Name)
  | setObject (property : Name) (value : Expr)
  | setValue (object : InstanceId) (property : Name)
  | print
  | var (name : Name)
  | ret
  | branch (yes : Stmt) (no : Option Stmt)
  | loopTest (condition : Expr) (body : Stmt)
  | loopBody (condition : Expr) (body : Stmt)
  | superclass (name superclass : Name) (methods : List Function)
  /-- The statements after the one that is running. -/
  | rest (body : List Stmt)
  /-- A block, with the environment around it. -/
  | scope (outer : ε)
  /-- A call, with the environment of the caller. -/
  | call (caller : ε) (yield : Yield ε)
  /-- The top level, with the statements still to be run. -/
  | program (rest : Program)
deriving Inhabited

/-- What is to be done now. -/
inductive Control
  | eval (expr : Expr)
  | exec (stmt : Stmt)
  | execAll (body : List Stmt)
  | give (value : Value)
  | returning (value : Value)
  | failing (error : RuntimeError)
deriving Inhabited

/-- A configuration of a run. -/
structure Config where
  control : Control
  frames : List (Frame EnvId)
  state : State
deriving Inhabited

/-- The state after a frame is left: a block puts the current environment back, a call also
the number of calls. -/
def Frame.leave (f : Frame EnvId) (st : State) : State :=
  match f with
  | scope outer => { st with env := outer }
  | call caller _ => { st with env := caller, calls := st.calls - 1 }
  | _ => st

end Lox
