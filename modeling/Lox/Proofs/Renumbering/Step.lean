import Lox.Machine.Step
import Lox.Proofs.Machine.Run
import Lox.Proofs.Renumbering.Store
import Lox.Session

set_option autoImplicit false

/-! # Renumbered runs

A run of a renumbered program goes the same way, step by step, if its table says of the renumbered
references what the other table says of the references (`Setting.Agrees`). What was printed before
makes no difference either, so the other run may have printed something already.
-/

namespace Lox

variable (r : Renumbering)

/-- Both settings say the same of a reference and of the renumbered one. -/
structure Setting.Agrees (s s' : Setting) : Prop where
  bindings : ∀ i : Nat, s'.bindings[r.start i]? = s.bindings[i]?
  clock : s'.clock = s.clock

/-- What waits, with renumbered code. -/
def Frame.renumber : Frame EnvId → Frame EnvId
  | .unary op line => .unary op (r.line line)
  | .binaryLeft op line right => .binaryLeft op (r.line line) (right.renumber r)
  | .binaryRight op line left => .binaryRight op (r.line line) left
  | .logical op right => .logical op (right.renumber r)
  | .assign name => .assign (name.renumber r)
  | .callee arguments line => .callee (arguments.map (Expr.renumber r)) (r.line line)
  | .argument function before after line =>
    .argument function before (after.map (Expr.renumber r)) (r.line line)
  | .get property => .get (property.renumber r)
  | .setObject property value => .setObject (property.renumber r) (value.renumber r)
  | .setValue object property => .setValue object (property.renumber r)
  | .print => .print
  | .var name => .var (name.renumber r)
  | .ret => .ret
  | .branch yes no => .branch (yes.renumber r) (no.map (Stmt.renumber r))
  | .loopTest condition body => .loopTest (condition.renumber r) (body.renumber r)
  | .loopBody condition body => .loopBody (condition.renumber r) (body.renumber r)
  | .superclass name above methods =>
    .superclass (name.renumber r) (above.renumber r) (methods.map (Function.renumber r))
  | .rest body => .rest (body.map (Stmt.renumber r))
  | .scope outer => .scope outer
  | .call caller yield => .call caller yield
  | .program body => .program (body.map (Stmt.renumber r))

/-- What is to be done now, with renumbered code. -/
def Control.renumber : Control → Control
  | .eval e => .eval (e.renumber r)
  | .exec s => .exec (s.renumber r)
  | .execAll body => .execAll (body.map (Stmt.renumber r))
  | .give v => .give v
  | .returning v => .returning v
  | .failing e => .failing (e.renumber r)

variable (shown : String)

/-- The state with renumbered code, after something else was printed. -/
def State.renumber (st : State) : State :=
  { st with store := st.store.renumber r, output := shown ++ st.output }

/-- The configuration with renumbered code, after something else was printed. -/
def Config.renumber (c : Config) : Config :=
  ⟨c.control.renumber r, c.frames.map (Frame.renumber r), c.state.renumber r shown⟩

namespace State

variable {r shown} {s s' : Setting} (st : State) (frames : List (Frame EnvId))

/-! ## Parts of a step -/

theorem read_renumber (hs : s.Agrees r s') (name : Name) :
    (st.renumber r shown).read s' (name.renumber r) =
      (st.read s name).mapError (RuntimeError.renumber r) := by
  have hhops : s'.bindings.hops? (name.renumber r) = s.bindings.hops? name := hs.bindings _
  rw [read, read, hhops]
  cases s.bindings.hops? name with
  | none => exact Store.get_renumber r st.store globalEnv name
  | some hops =>
      simp only [renumber, Store.getAt?_renumber, Name.renumber_text]
      cases st.store.getAt? st.env hops name.text <;> rfl

theorem binder_renumber (hs : s.Agrees r s') (name : Name) :
    (st.renumber r shown).binder s' (name.renumber r) =
      (st.binder s name).mapError (RuntimeError.renumber r) := by
  have hhops : s'.bindings.hops? (name.renumber r) = s.bindings.hops? name := hs.bindings _
  rw [binder, binder, hhops]
  cases s.bindings.hops? name with
  | none =>
      simp only [renumber, Store.binder?_renumber, Name.renumber_text]
      cases st.store.binder? globalEnv name.text <;> rfl
  | some hops =>
      simp only [renumber, Store.binderAt?_renumber, Name.renumber_text]
      cases st.store.binderAt? st.env hops name.text <;> rfl

theorem superMethod_renumber (hs : s.Agrees r s') (keyword method : Name) :
    (st.renumber r shown).superMethod s' (keyword.renumber r) (method.renumber r) =
      ((st.superMethod s keyword method).map fun found => (found.1.renumber r, found.2)).mapError
        (RuntimeError.renumber r) := by
  have hhops : s'.bindings.hops? (keyword.renumber r) = s.bindings.hops? keyword :=
    hs.bindings _
  have hgetAt : ∀ hops name, (st.renumber r shown).store.getAt? (st.renumber r shown).env hops
      name = st.store.getAt? st.env hops name := fun hops name =>
    Store.getAt?_renumber r st.store st.env hops name
  have hmethod : ∀ cls name, (st.renumber r shown).store.method? cls name =
      (st.store.method? cls name).map (Closure.renumber r) := fun cls name =>
    Store.method?_renumber r st.store cls name
  rw [superMethod, superMethod, hhops]
  cases s.bindings.hops? keyword with
  | none => rfl
  | some hops =>
      simp only [hgetAt, hmethod, Name.renumber_text]
      cases st.store.getAt? st.env hops "super" with
      | none => rfl
      | some above =>
          cases above with
          | classRef above =>
              simp only
              cases (if hops = 0 then none else st.store.getAt? st.env (hops - 1) "this") with
              | none => rfl
              | some object =>
                  cases object with
                  | instanceRef object => cases st.store.method? above method.text <;> rfl
                  | _ => rfl
          | _ => rfl

theorem giveOrFail_renumber (line : Nat) (result : Except RuntimeError.Cause Value) :
    (st.giveOrFail line frames result).renumber r shown =
      (st.renumber r shown).giveOrFail (r.line line) (frames.map (Frame.renumber r)) result := by
  cases result <;> rfl

theorem enter_renumber (c : Closure EnvId) (arguments : List Value) (yield : Yield EnvId) :
    (st.enter c arguments yield frames).renumber r shown =
      (st.renumber r shown).enter (c.renumber r) arguments yield
        (frames.map (Frame.renumber r)) := by
  have hbody : (c.renumber r).decl.body = c.decl.body.map (Stmt.renumber r) :=
    Function.renumber_body r c.decl
  have hparameters : (c.renumber r).decl.parameters.map Name.text =
      c.decl.parameters.map Name.text := by
    rw [Closure.renumber_decl, Function.renumber_parameters, Name.map_text_renumber]
  simp only [enter, hbody, hparameters]
  simp only [Config.renumber, renumber, Store.defineAll_renumber]
  rfl

theorem instantiate_renumber (cls : ClassId) (arguments : List Value) :
    (st.instantiate cls arguments frames).renumber r shown =
      (st.renumber r shown).instantiate cls arguments (frames.map (Frame.renumber r)) := by
  have hinit : (st.renumber r shown).store.initializer? cls =
      (st.store.initializer? cls).map (Closure.renumber r) :=
    Store.initializer?_renumber r st.store cls
  rw [instantiate, instantiate, hinit]
  cases st.store.initializer? cls with
  | none => rfl
  | some m => exact enter_renumber _ frames _ arguments _

theorem invoke_renumber (hs : s.Agrees r s') (callee : Value) (arguments : List Value)
    (line : Nat) :
    (st.invoke s callee arguments line frames).renumber r shown =
      (st.renumber r shown).invoke s' callee arguments (r.line line)
        (frames.map (Frame.renumber r)) := by
  cases callee with
  | nativeRef n =>
      have hnatives : (st.renumber r shown).store.natives = st.store.natives := rfl
      rw [invoke, invoke, hnatives, hs.clock]
      cases st.store.natives[n]? with
      | none => rfl
      | some native => cases native; rfl
  | functionRef f =>
      have hfunction : (st.renumber r shown).store.functions[f]? =
          (st.store.functions[f]?).map (Closure.renumber r) :=
        Store.functions_renumber r st.store f
      rw [invoke, invoke, hfunction]
      cases st.store.functions[f]? with
      | none => rfl
      | some c => exact enter_renumber st frames c arguments _
  | classRef cls => exact instantiate_renumber st frames cls arguments
  | _ => rfl

theorem call_renumber (hs : s.Agrees r s') (callee : Value) (arguments : List Value)
    (line : Nat) :
    (st.call s callee arguments line frames).renumber r shown =
      (st.renumber r shown).call s' callee arguments (r.line line)
        (frames.map (Frame.renumber r)) := by
  have harity : (st.renumber r shown).store.arity? callee = st.store.arity? callee :=
    Store.arity?_renumber r st.store callee
  have hcalls : (st.renumber r shown).calls = st.calls := rfl
  rw [call, call, harity, hcalls]
  cases st.store.arity? callee with
  | none => rfl
  | some arity =>
      simp only
      split
      · rfl
      · split
        · rfl
        · exact invoke_renumber st frames hs callee arguments line

theorem evalArguments_renumber (hs : s.Agrees r s') (callee : Value) (before : List Value)
    (after : List Expr) (line : Nat) :
    (st.evalArguments s callee before after line frames).renumber r shown =
      (st.renumber r shown).evalArguments s' callee before (after.map (Expr.renumber r))
        (r.line line) (frames.map (Frame.renumber r)) := by
  cases after with
  | nil => exact call_renumber st frames hs callee before.reverse line
  | cons e es => rfl

theorem yielded_renumber (yield : Yield EnvId) (v : Value) :
    (st.renumber r shown).yielded yield v = st.yielded yield v := by
  cases yield with
  | receiver e =>
      rw [yielded, yielded]
      exact congrArg (Option.getD · Value.nil) (Store.getAt?_renumber r st.store e 0 "this")
  | _ => rfl

theorem methodTable_renumber (e : EnvId) (methods : List Function) :
    methodTable e (methods.map (Function.renumber r)) =
      (methodTable e methods).map fun m => (m.1, m.2.renumber r) := by
  simp [methodTable, Closure.renumber, List.map_reverse, Function.comp_def]

theorem declareClass_renumber (name : Name) (superclass : Option ClassId)
    (methods : List Function) :
    (st.declareClass name superclass methods).renumber r shown =
      (st.renumber r shown).declareClass (name.renumber r) superclass
        (methods.map (Function.renumber r)) := by
  have hnew : ∀ (store : Store) (e : EnvId),
      (store.renumber r).newClass ⟨name.text, superclass,
          methodTable e (methods.map (Function.renumber r))⟩ =
        ((store.newClass ⟨name.text, superclass, methodTable e methods⟩).1,
          (store.newClass ⟨name.text, superclass, methodTable e methods⟩).2.renumber r) := by
    intro store e
    rw [← Store.newClass_renumber, methodTable_renumber]
    rfl
  -- The state in which the class that was made is defined.
  have hdefine := fun store e => congrArg
    (fun made : ClassId × Store =>
      ({ st.renumber r shown with store := made.2 } : State).define name.text (.classRef made.1))
    (hnew store e)
  cases superclass with
  | none => exact (hdefine (st.define name.text .nil).store st.env).symm
  | some above =>
      let made := (st.define name.text .nil).store.newEnvironment (some st.env)
      exact (hdefine (made.2.define made.1 "super" (.classRef above)) made.1).symm

theorem giveProperty_renumber (object : Value) (property : Name) :
    (st.giveProperty object property frames).renumber r shown =
      (st.renumber r shown).giveProperty object (property.renumber r)
        (frames.map (Frame.renumber r)) := by
  cases object with
  | instanceRef i =>
      have hproperty : (st.renumber r shown).store.property i (property.renumber r) = _ :=
        Store.property_renumber r st.store i property
      have hread : ∀ p : Heap.Property EnvId,
          (st.renumber r shown).store.readProperty i (p.renumber r) = _ :=
        fun p => Store.readProperty_renumber r st.store i p
      rw [giveProperty, giveProperty, hproperty]
      cases st.store.property i property with
      | error e => rfl
      | ok p =>
          exact (congrArg (fun read : Value × Store =>
            ({ st.renumber r shown with store := read.2 } : State).give read.1
              (frames.map (Frame.renumber r))) (hread p)).symm
  | _ => rfl

theorem continueProgram_renumber (p : Program) :
    (st.continueProgram frames p).renumber r shown =
      (st.renumber r shown).continueProgram (frames.map (Frame.renumber r))
        (p.map (Stmt.renumber r)) := by
  cases p <;> rfl

/-! ## Steps -/

theorem eval_renumber (hs : s.Agrees r s') (e : Expr) :
    (st.eval s frames e).renumber r shown =
      (st.renumber r shown).eval s' (frames.map (Frame.renumber r)) (e.renumber r) := by
  cases e with
  | «variable» name | this name =>
      rw [Expr.renumber, eval, eval, read_renumber st hs]
      cases st.read s name <;> rfl
  | call callee arguments line =>
      rw [Expr.renumber, Expr.renumberAll_eq_map]
      rfl
  | super keyword method =>
      have hbind : ∀ (m : Closure EnvId) object,
          (st.renumber r shown).store.bindValue (m.renumber r) object = _ :=
        fun m object => Store.bindValue_renumber r st.store m object
      rw [Expr.renumber, eval, eval, superMethod_renumber st hs]
      cases st.superMethod s keyword method with
      | error e => rfl
      | ok found =>
          exact (congrArg (fun bound : Value × Store =>
            ({ st.renumber r shown with store := bound.2 } : State).give bound.1
              (frames.map (Frame.renumber r))) (hbind found.1 found.2)).symm
  | _ => rfl

theorem exec_renumber (stmt : Stmt) :
    (st.exec frames stmt).renumber r shown =
      (st.renumber r shown).exec (frames.map (Frame.renumber r)) (stmt.renumber r) := by
  cases stmt with
  | var name initial => cases initial <;> rfl
  | block body =>
      rw [Stmt.renumber, Stmt.renumberAll_eq_map]
      rfl
  | branch condition yes no =>
      rw [Stmt.renumber_branch]
      rfl
  | function f =>
      have hnew := Store.newFunction_renumber r st.store ⟨f, st.env, false⟩
      have hname : (f.renumber r).name.text = f.name.text := by
        rw [Function.renumber_name, Name.renumber_text]
      rw [Stmt.renumber, exec, exec, hname]
      exact (congrArg
        (fun made : FunctionId × Store => State.give
          (({ st.renumber r shown with store := made.2 } : State).define f.name.text
            (.functionRef made.1)) .nil (frames.map (Frame.renumber r))) hnew).symm
  | ret keyword value => cases value <;> rfl
  | classDecl name superclass methods =>
      rw [Stmt.renumber, Function.renumberAll_eq_map]
      cases superclass with
      | none =>
          show ((st.declareClass name none methods).give .nil frames).renumber r shown = _
          exact congrArg (State.give · Value.nil (frames.map (Frame.renumber r)))
            (declareClass_renumber st name none methods)
      | some superclass => rfl
  | _ => rfl

theorem execAll_renumber (body : List Stmt) :
    (st.execAll frames body).renumber r shown =
      (st.renumber r shown).execAll (frames.map (Frame.renumber r))
        (body.map (Stmt.renumber r)) := by
  cases body <;> rfl

theorem leave_renumber (f : Frame EnvId) :
    (f.leave st).renumber r shown = (f.renumber r).leave (st.renumber r shown) := by
  cases f <;> rfl

theorem resume_renumber (hs : s.Agrees r s') (v : Value) (f : Frame EnvId) :
    (st.resume s frames v f).renumber r shown =
      (st.renumber r shown).resume s' (frames.map (Frame.renumber r)) v (f.renumber r) := by
  cases f with
  | unary op line => exact giveOrFail_renumber st frames line _
  | binaryRight op line left => exact giveOrFail_renumber st frames line _
  | logical op right =>
      simp only [resume, Frame.renumber]
      split <;> rfl
  | assign name =>
      rw [Frame.renumber, resume, resume, binder_renumber st hs]
      cases st.binder s name <;> rfl
  | callee arguments line => exact evalArguments_renumber st frames hs v [] arguments line
  | argument callee before after line =>
      exact evalArguments_renumber st frames hs callee (v :: before) after line
  | get property => exact giveProperty_renumber st frames v property
  | setObject property value => cases v <;> rfl
  | print =>
      have htext : (st.renumber r shown).store.text v = st.store.text v :=
        Store.text_renumber r st.store v
      rw [Frame.renumber, resume, resume, htext]
      simp only [Config.renumber, renumber, give, String.append_assoc]
      rfl
  | branch yes no =>
      simp only [resume, Frame.renumber]
      cases v.isTruthy <;> cases no <;> rfl
  | loopTest condition body =>
      simp only [resume, Frame.renumber]
      split <;> rfl
  | superclass name above methods =>
      cases v with
      | classRef cls =>
          exact congrArg (State.give · Value.nil (frames.map (Frame.renumber r)))
            (declareClass_renumber st name (some cls) methods)
      | _ => rfl
  | call caller yield =>
      simp only [resume, Frame.renumber, yielded_renumber]
      rfl
  | program rest => exact continueProgram_renumber st frames rest
  | _ => rfl

theorem unwindReturn_renumber (v : Value) (f : Frame EnvId) :
    (st.unwindReturn frames v f).renumber r shown =
      (st.renumber r shown).unwindReturn (frames.map (Frame.renumber r)) v (f.renumber r) := by
  cases f with
  | call caller yield =>
      simp only [unwindReturn, Frame.renumber, yielded_renumber]
      rfl
  | program rest => exact continueProgram_renumber st frames rest
  | _ => rfl

end State

namespace Config

variable {r shown} {s s' : Setting} (hs : s.Agrees r s')

include hs

/-- A step of the renumbered configuration is the renumbered step. -/
theorem step_renumber (c : Config) :
    (c.step s).renumber r shown = (c.renumber r shown).step s' := by
  obtain ⟨control, frames, st⟩ := c
  cases control with
  | eval e => exact st.eval_renumber frames hs e
  | exec stmt => exact st.exec_renumber frames stmt
  | execAll body => exact st.execAll_renumber frames body
  | give v =>
      cases frames with
      | nil => rfl
      | cons f frames => exact st.resume_renumber frames hs v f
  | returning v =>
      cases frames with
      | nil => rfl
      | cons f frames => exact st.unwindReturn_renumber frames v f
  | failing e =>
      cases frames with
      | nil => rfl
      | cons f frames =>
          show (State.unwindError st frames e f).renumber r shown = State.unwindError _ _ _ _
          rw [State.unwindError, State.unwindError, ← State.leave_renumber]
          rfl

/-- So is a run. -/
theorem run_renumber (c : Config) (steps : Nat) :
    (c.run s steps).renumber r shown = (c.renumber r shown).run s' steps := by
  induction steps with
  | zero => rfl
  | succ steps ih => rw [run_succ_eq_step, run_succ_eq_step, step_renumber hs, ih]

end Config

end Lox
