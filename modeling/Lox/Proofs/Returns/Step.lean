import Lox.Proofs.Dispatch.Observer
import Lox.Proofs.Machine.Call
import Lox.Proofs.Returns.Code
import Lox.Proofs.Store.Environment
import Lox.Proofs.Store.Object

set_option autoImplicit false

/-! # Returns on their way out

At each point of a run, the frames above the latest call belong to the function that was called, and
those below all calls to the top level. What waits in them returns as that function may
(`Frame.AllReturn`), and so does what is running. Hence a `return` on its way out has a call that
it goes to, and no value if that is the call of an initializer (`Config.Returns`). Each step keeps
this.
-/

namespace Lox

/-! ## What is held -/

/-- A function of a kind: it is one, and an initializer only if it is marked as such. -/
structure Closure.Returns (k : FunctionContext) (c : Closure EnvId) : Prop where
  inside : k ≠ .none
  initializer : c.isInitializer = true → k = .initializer
  decl : c.decl.Returns k

/-- A method that a class has under a name. -/
structure Closure.ReturnsUnder (name : String) (m : Closure EnvId) : Prop
    extends m.IsMethod name where
  decl : m.decl.Returns (.ofMethod m.decl)

/-- All functions and methods return as they may. -/
structure Store.Returns (st : Store) : Prop where
  functions : ∀ (f : FunctionId) (c : Closure EnvId), st.functions[f]? = some c →
    ∃ k, c.Returns k
  methods : ∀ (cls : ClassId) (c : ClassObject EnvId), st.classes[cls]? = some c →
    ∀ m ∈ c.methods, m.2.ReturnsUnder m.1

/-- What waits in a frame returns as the function around it may. The top level is in no function. -/
def Frame.Returns (k : FunctionContext) : Frame EnvId → Prop
  | .branch yes no => yes.Returns k ∧ ∀ s ∈ no, s.Returns k
  | .loopTest _ body | .loopBody _ body => body.Returns k
  | .superclass _ _ methods => Function.ReturnsMethods methods
  | .rest body => Stmt.ReturnsAll k body
  | .program body => k = .none ∧ Stmt.ReturnsAll k body
  | .ret => k ≠ .none ∧ k ≠ .initializer
  | .call _ _ => False
  | .unary _ _ | .binaryLeft _ _ _ | .binaryRight _ _ _ | .logical _ _ | .assign _ | .callee _ _
  | .argument _ _ _ _ | .get _ | .setObject _ _ | .setValue _ _ | .print | .var _ | .scope _ => True

/-- The call is one of an initializer. -/
def Yield.IsInitializer {ε : Type} : Yield ε → Prop
  | .result => False
  | .receiver _ | .made _ => True

/-- All that waits returns as the function around it may. -/
inductive Frame.AllReturn : FunctionContext → List (Frame EnvId) → Prop
  | nil : AllReturn .none []
  | plain {k : FunctionContext} {f : Frame EnvId} {fs : List (Frame EnvId)} (hf : f.Returns k)
      (hfs : AllReturn k fs) : AllReturn k (f :: fs)
  | call {k around : FunctionContext} {yield : Yield EnvId} {fs : List (Frame EnvId)}
      (caller : EnvId) (hinside : k ≠ .none) (hyield : yield.IsInitializer → k = .initializer)
      (hfs : AllReturn around fs) : AllReturn k (.call caller yield :: fs)

/-- What is running returns as the function around it may. -/
def Control.Returns (k : FunctionContext) : Control → Prop
  | .exec s => s.Returns k
  | .execAll body => Stmt.ReturnsAll k body
  | .returning v => k ≠ .none ∧ (k = .initializer → v = .nil)
  | .eval _ | .give _ | .failing _ => True

/-- All code that is held returns as it may, and what waits as the function around it may. -/
structure State.Returns (k : FunctionContext) (st : State) (fs : List (Frame EnvId)) : Prop where
  store : st.store.Returns
  frames : Frame.AllReturn k fs

/-- All code that is held, that waits and that is running returns as it may. -/
inductive Config.Returns : Config → Prop
  | mk {k : FunctionContext} {control : Control} {fs : List (Frame EnvId)} {st : State}
      (hst : st.Returns k fs) (hcontrol : control.Returns k) : Returns ⟨control, fs, st⟩

/-! ## Functions and methods -/

theorem FunctionContext.ofMethod_ne_none (f : Function) : ofMethod f ≠ .none := by
  unfold ofMethod
  split <;> rintro ⟨⟩

theorem FunctionContext.ofMethod_eq_initializer {f : Function} (h : f.isNamedInit = true) :
    ofMethod f = .initializer := if_pos h

theorem Closure.ReturnsUnder.returns {name : String} {m : Closure EnvId}
    (h : m.ReturnsUnder name) : m.Returns (.ofMethod m.decl) where
  inside := FunctionContext.ofMethod_ne_none m.decl
  initializer hinit := FunctionContext.ofMethod_eq_initializer (h.isInitializer ▸ hinit)
  decl := h.decl

/-- What is the initializer of a class returns as one. -/
theorem Closure.ReturnsUnder.returns_initializer {m : Closure EnvId}
    (h : m.ReturnsUnder Function.initializerName) : m.Returns .initializer := by
  have hreturns := h.returns
  rwa [FunctionContext.ofMethod_eq_initializer h.toIsMethod.isNamedInit] at hreturns

namespace Store.Returns

variable {st st' : Store}

/-- Variables, environments and instances change, and no code. -/
theorem keep (h : st.Returns) (hfunctions : st'.functions = st.functions)
    (hclasses : st'.classes = st.classes) : st'.Returns where
  functions f c hc := h.functions f c (hfunctions ▸ hc)
  methods cls c hc := h.methods cls c (hclasses ▸ hc)

theorem newFunction {k : FunctionContext} {c : Closure EnvId} (h : st.Returns)
    (hc : c.Returns k) : (st.newFunction c).2.Returns where
  functions f d hd := by
    simp only [Store.newFunction, Array.getElem?_push] at hd
    split at hd
    · cases hd
      exact ⟨k, hc⟩
    · exact h.functions f d hd
  methods := h.methods

theorem newClass {c : ClassObject EnvId} (h : st.Returns)
    (hc : ∀ m ∈ c.methods, m.2.ReturnsUnder m.1) : (st.newClass c).2.Returns where
  functions := h.functions
  methods cls d hd := by
    simp only [Store.newClass, Array.getElem?_push] at hd
    split at hd
    · cases hd
      exact hc
    · exact h.methods cls d hd

theorem method? (h : st.Returns) {cls : ClassId} {name : String} {m : Closure EnvId}
    (hm : st.method? cls name = some m) : m.ReturnsUnder name := by
  obtain ⟨holder, c, hc, hmem⟩ := Heap.mem_methods_of_method? hm
  exact h.methods holder c hc _ hmem

/-- A bound method is the method in another environment. -/
theorem bindValue (h : st.Returns) {name : String} {m : Closure EnvId} (hm : m.ReturnsUnder name)
    (object : InstanceId) : (st.bindValue m object).2.Returns := by
  have hbound : (st.bind m object).1.Returns (.ofMethod m.decl) :=
    ⟨hm.returns.inside, hm.returns.initializer, hm.returns.decl⟩
  have hstore : (st.bind m object).2.Returns := h.keep rfl rfl
  exact hstore.newFunction hbound

/-- Methods that are declared are under their names. -/
theorem methodTable {methods : List Function} (hmethods : Function.ReturnsMethods methods)
    (e : EnvId) : ∀ m ∈ State.methodTable e methods, m.2.ReturnsUnder m.1 := by
  intro m hm
  rw [State.methodTable, List.mem_reverse, List.mem_map] at hm
  obtain ⟨f, hf, rfl⟩ := hm
  exact ⟨⟨rfl, rfl⟩, Function.returnsMethods_iff.1 hmethods f hf⟩

end Store.Returns

/-! ## Steps -/

namespace State.Returns

variable {s : Setting} {k : FunctionContext} {st : State} {f : Frame EnvId}
  {fs : List (Frame EnvId)}

/-- The store changes. -/
theorem keep (h : st.Returns k fs) {store : Store} (hstore : store.Returns) :
    State.Returns k { st with store } fs :=
  ⟨hstore, h.frames⟩

theorem define (h : st.Returns k fs) (name : String) (v : Value) :
    (st.define name v).Returns k fs :=
  ⟨h.store.keep rfl rfl, h.frames⟩

/-! ## Results -/

theorem give (h : st.Returns k fs) (v : Value) : (st.give v fs).Returns := .mk h trivial

theorem fail (h : st.Returns k fs) (cause : RuntimeError.Cause) (line : Nat) :
    (st.fail cause line fs).Returns := .mk h trivial

theorem giveOrFail (h : st.Returns k fs) (line : Nat)
    (result : Except RuntimeError.Cause Value) : (st.giveOrFail line fs result).Returns := by
  cases result with
  | ok v => exact h.give v
  | error cause => exact h.fail cause line

/-- An expression is evaluated for what waits in a frame. -/
theorem push (h : st.Returns k fs) {e : Expr} (hf : f.Returns k) :
    Config.Returns ⟨.eval e, f :: fs, st⟩ :=
  .mk ⟨h.store, .plain hf h.frames⟩ trivial

/-! ## Calls -/

/-- The body of a function starts. -/
theorem enter {around : FunctionContext} {c : Closure EnvId} {yield : Yield EnvId}
    (h : st.Returns around fs) (hc : c.Returns k)
    (hyield : yield.IsInitializer → k = .initializer) (arguments : List Value) :
    (st.enter c arguments yield fs).Returns := by
  have hheap := Store.toHeap_defineAll (st.store.newEnvironment (some c.env)).2
    st.store.environments.size ((c.decl.parameters.map Name.text).zip arguments)
  have hstore := h.store.keep (congrArg Heap.functions hheap) (congrArg Heap.classes hheap)
  exact .mk ⟨hstore, .call st.env hc.inside hyield h.frames⟩ hc.decl.body

theorem call (h : st.Returns k fs) (callee : Value) (arguments : List Value) (line : Nat) :
    (st.call s callee arguments line fs).Returns := by
  have hcalls := st.calls_call s callee arguments line fs
  generalize st.call s callee arguments line fs = c at hcalls ⊢
  cases hcalls with
  | notCallable | wrongArity | noRoom => exact h.fail _ line
  | clock => exact .mk ⟨h.store, h.frames⟩ trivial
  | @function f c hf hc =>
      obtain ⟨kind, hkind⟩ := h.store.functions f c hc
      refine h.enter hkind (fun hinit => ?_) arguments
      cases hmarked : c.isInitializer with
      | true => exact hkind.initializer hmarked
      | false =>
          rw [hmarked] at hinit
          exact hinit.elim
  | @plain cls =>
      have hmade : (st.store.newInstance cls).2.Returns := h.store.keep rfl rfl
      exact (h.keep hmade).give _
  | @initialized cls m hcls hm =>
      have hinit := (h.store.method? hm).returns_initializer
      have hbound : ((st.store.newInstance cls).2.bind m st.store.instances.size).1.Returns
          .initializer := ⟨hinit.inside, hinit.initializer, hinit.decl⟩
      have hbind : ((st.store.newInstance cls).2.bind m st.store.instances.size).2.Returns :=
        h.store.keep rfl rfl
      exact (h.keep hbind).enter hbound (fun _ => rfl) arguments

theorem evalArguments (h : st.Returns k fs) (callee : Value) (before : List Value)
    (after : List Expr) (line : Nat) :
    (st.evalArguments s callee before after line fs).Returns := by
  cases after with
  | nil => exact h.call callee before.reverse line
  | cons e es => exact h.push trivial

/-! ## Expressions -/

theorem eval (h : st.Returns k fs) (e : Expr) : (st.eval s fs e).Returns := by
  cases e with
  | literal l => exact h.give _
  | grouping inner => exact .mk h trivial
  | «variable» name | this name =>
      rw [State.eval]
      split
      · exact h.give _
      · exact .mk h trivial
  | super keyword method =>
      rw [State.eval]
      cases hfound : st.superMethod s keyword method with
      | error e => exact .mk h trivial
      | ok found =>
          obtain ⟨m, object⟩ := found
          obtain ⟨above, -, hm, -⟩ := State.exists_of_superMethod hfound
          exact (h.keep (h.store.bindValue (h.store.method? hm) object)).give _
  | _ => exact h.push trivial

/-! ## Statements -/

theorem declareClass (h : st.Returns k fs) (name : Name) (superclass : Option ClassId)
    {methods : List Function} (hmethods : Function.ReturnsMethods methods) :
    (st.declareClass name superclass methods).Returns k fs := by
  have hdefined := h.define name.text .nil
  have hmade : ∀ {store : Store}, store.Returns → ∀ e : EnvId,
      State.Returns k
        { st with
          store := (store.newClass ⟨name.text, superclass, State.methodTable e methods⟩).2 } fs :=
    fun hstore e => h.keep (hstore.newClass (Store.Returns.methodTable hmethods e))
  cases superclass with
  | none => exact (hmade hdefined.store _).define name.text _
  | some above =>
      have hsuper : (((st.define name.text .nil).store.newEnvironment (some st.env)).2.define
          (st.define name.text .nil).store.environments.size "super" (.classRef above)).Returns :=
        hdefined.store.keep rfl rfl
      exact (hmade hsuper _).define name.text _

theorem exec (h : st.Returns k fs) {stmt : Stmt} (hstmt : stmt.Returns k) :
    (st.exec fs stmt).Returns := by
  cases stmt with
  | expression e => exact .mk h trivial
  | print e => exact h.push trivial
  | var name initial =>
      cases initial with
      | none => exact (h.define name.text .nil).give _
      | some e => exact h.push trivial
  | block body => exact .mk ⟨h.store.keep rfl rfl, .plain trivial h.frames⟩ hstmt
  | branch condition yes no =>
      cases no with
      | none => exact h.push ⟨hstmt, by rintro _ ⟨⟩⟩
      | some no => exact h.push ⟨hstmt.1, fun _ hno => Option.some.inj hno ▸ hstmt.2⟩
  | loop condition body => exact h.push hstmt
  | function f =>
      have hclosure : Closure.Returns .function ⟨f, st.env, false⟩ :=
        ⟨by rintro ⟨⟩, by rintro ⟨⟩, hstmt⟩
      exact ((h.keep (h.store.newFunction hclosure)).define f.name.text _).give _
  | ret keyword value =>
      cases value with
      | none => exact .mk h ⟨hstmt.1, fun _ => rfl⟩
      | some e => exact h.push ⟨hstmt.1, fun hinit => nomatch hstmt.2 hinit⟩
  | classDecl name superclass methods =>
      cases superclass with
      | none => exact (h.declareClass name none hstmt).give _
      | some above => exact h.push hstmt

theorem execAll (h : st.Returns k fs) {body : List Stmt} (hbody : Stmt.ReturnsAll k body) :
    (st.execAll fs body).Returns := by
  cases body with
  | nil => exact h.give _
  | cons stmt body => exact .mk ⟨h.store, .plain hbody.2 h.frames⟩ hbody.1

theorem continueProgram (h : st.Returns .none fs) {p : Program}
    (hp : Stmt.ReturnsAll .none p) : (st.continueProgram fs p).Returns := by
  cases p with
  | nil => exact h.give _
  | cons stmt p => exact .mk ⟨h.store, .plain ⟨rfl, hp.2⟩ h.frames⟩ hp.1

/-! ## Frames -/

theorem giveProperty (h : st.Returns k fs) (object : Value) (property : Name) :
    (st.giveProperty object property fs).Returns := by
  cases object with
  | instanceRef i =>
      rw [State.giveProperty]
      cases hproperty : st.store.property i property with
      | error e => exact .mk h trivial
      | ok found =>
          cases found with
          | field v => exact h.give v
          | method m =>
              obtain ⟨cls, -, hm⟩ := Heap.method?_of_property hproperty
              exact (h.keep (h.store.bindValue (h.store.method? hm) i)).give _
  | _ => exact h.fail _ property.line

/-- A frame that is no call takes the value that it waits for. -/
theorem resume (h : st.Returns k fs) (v : Value) (hf : f.Returns k) :
    (st.resume s fs v f).Returns := by
  cases f with
  | unary op line => exact h.giveOrFail line _
  | binaryLeft op line right => exact h.push trivial
  | binaryRight op line left => exact h.giveOrFail line _
  | logical op right =>
      rw [State.resume]
      split
      · exact h.give v
      · exact .mk h trivial
  | assign name =>
      rw [State.resume]
      cases st.binder s name with
      | error e => exact .mk h trivial
      | ok e =>
          have hassigned : (st.store.define e name.text v).Returns := h.store.keep rfl rfl
          exact (h.keep hassigned).give v
  | callee arguments line => exact h.evalArguments v [] arguments line
  | argument callee before after line => exact h.evalArguments callee (v :: before) after line
  | get property => exact h.giveProperty v property
  | setObject property value =>
      cases v with
      | instanceRef i => exact h.push trivial
      | _ => exact h.fail _ property.line
  | setValue i property =>
      have hstored : (st.store.setField i property.text v).Returns := h.store.keep rfl rfl
      exact (h.keep hstored).give v
  | print => exact .mk ⟨h.store, h.frames⟩ trivial
  | var name => exact (h.define name.text v).give _
  | ret => exact .mk h ⟨hf.1, fun hinit => absurd hinit hf.2⟩
  | branch yes no =>
      simp only [State.resume]
      cases v.isTruthy with
      | true => exact .mk h hf.1
      | false =>
          cases no with
          | none => exact h.give _
          | some no => exact .mk h (hf.2 no rfl)
  | loopTest condition body =>
      rw [State.resume]
      split
      · exact .mk ⟨h.store, .plain hf h.frames⟩ hf
      · exact h.give _
  | loopBody condition body => exact h.push hf
  | superclass name superclass methods =>
      cases v with
      | classRef above => exact (h.declareClass name (some above) hf).give _
      | _ => exact h.fail _ superclass.line
  | rest body => exact .mk h hf
  | scope outer => exact .mk ⟨h.store, h.frames⟩ trivial
  | call => exact hf.elim
  | program rest =>
      obtain ⟨rfl, hrest⟩ := hf
      exact h.continueProgram hrest

/-- What is below the top frame still returns as the function around it may. -/
theorem exists_leave (h : st.Returns k (f :: fs)) : ∃ around, (f.leave st).Returns around fs := by
  have hstore : (f.leave st).store = st.store := by cases f <;> rfl
  obtain ⟨hst, hfs⟩ := h
  rw [← hstore] at hst
  cases hfs with
  | plain hf hfs => exact ⟨_, hst, hfs⟩
  | call caller hinside hyield hfs => exact ⟨_, hst, hfs⟩

/-- A `return` goes on in the frames of the same function, up to the call. -/
theorem unwindReturn (h : st.Returns k (f :: fs)) {v : Value}
    (hv : Control.Returns k (.returning v)) : (st.unwindReturn fs v f).Returns := by
  obtain ⟨hst, hfs⟩ := h
  cases hfs with
  | call caller hinside hyield hfs => exact .mk ⟨hst, hfs⟩ trivial
  | plain hf hfs =>
      cases f with
      | call => exact hf.elim
      | program rest => exact absurd hf.1 hv.1
      | _ => exact .mk ⟨hst, hfs⟩ hv

end State.Returns

namespace Config.Returns

/-- Each step keeps that all code returns as it may. -/
theorem step {c : Config} (h : c.Returns) (s : Setting) : (c.step s).Returns := by
  obtain @⟨k, control, fs, st, hst, hcontrol⟩ := h
  cases control with
  | eval e => exact hst.eval e
  | exec stmt => exact hst.exec hcontrol
  | execAll body => exact hst.execAll hcontrol
  | give v =>
      obtain ⟨hstore, hfs⟩ := hst
      cases hfs with
      | nil => exact .mk ⟨hstore, .nil⟩ trivial
      | plain hf hfs => exact State.Returns.resume ⟨hstore, hfs⟩ v hf
      | call caller hinside hyield hfs => exact .mk ⟨hstore, hfs⟩ trivial
  | returning v =>
      cases fs with
      | nil => exact .mk hst hcontrol
      | cons f fs => exact hst.unwindReturn hcontrol
  | failing e =>
      cases fs with
      | nil => exact .mk hst trivial
      | cons f fs =>
          obtain ⟨around, hbelow⟩ := hst.exists_leave
          exact .mk hbelow trivial

theorem run {c : Config} (h : c.Returns) (s : Setting) (steps : Nat) :
    (c.run s steps).Returns := by
  induction steps with
  | zero => exact h
  | succ steps ih =>
      rw [Config.run_succ_eq_step]
      exact ih.step s

end Config.Returns

end Lox
