import Lox.Proofs.Dispatch.Receiver

set_option autoImplicit false

/-! # The observer follows the run

At each point of a run, what was recorded fits what the machine holds: the receiver of the code that
is running fits the current environment, those of the callers fit the environments that the calls
go back to, and all code that waits is placed there (`Dispatch.Follows`). Each step keeps this.
-/

namespace Lox

section Judgement

variable (t : BindingTable)

/-- The code of a frame that keeps no environment is placed. -/
def Frame.Placed (place : Option MethodPlace) : Frame EnvId → Prop
  | .binaryLeft _ _ e | .logical _ e | .setObject _ e => e.Placed t place
  | .assign name => name.Ordinary
  | .callee es _ | .argument _ _ es _ => ∀ e ∈ es, e.Placed t place
  | .var name => name.Ordinary
  | .branch yes no => yes.Placed t place ∧ ∀ s ∈ no, s.Placed t place
  | .loopTest condition body | .loopBody condition body =>
    condition.Placed t place ∧ body.Placed t place
  | .superclass name _ methods => name.Ordinary ∧ Function.PlacedMethods t true methods
  | .rest body | .program body => Stmt.PlacedAll t place body
  | .scope _ | .call _ _ => False
  | .unary _ _ | .binaryRight _ _ _ | .get _ | .setValue _ _ | .print | .ret => True

/-- The code that is to be run now is placed. -/
def Control.Placed (place : Option MethodPlace) : Control → Prop
  | .eval e => e.Placed t place
  | .exec s => s.Placed t place
  | .execAll body => Stmt.PlacedAll t place body
  | .give _ | .returning _ | .failing _ => True

namespace Dispatch

/-- What waits is placed, and has the receivers that were recorded of the callers. -/
inductive FitsFrames (st : Store) (clauses : Array (Option ClassId)) :
    Option MethodPlace → Option Receiver → List (Option Receiver) → List (Frame EnvId) → Prop
  | nil (place : Option MethodPlace) (receiver : Option Receiver)
      (callers : List (Option Receiver)) : FitsFrames st clauses place receiver callers []
  | plain {place : Option MethodPlace} {receiver : Option Receiver}
      {callers : List (Option Receiver)} {f : Frame EnvId} {fs : List (Frame EnvId)}
      (hf : f.Placed t place) (hfs : FitsFrames st clauses place receiver callers fs) :
      FitsFrames st clauses place receiver callers (f :: fs)
  | scope (place : Option MethodPlace) {around : Option MethodPlace}
      {receiver : Option Receiver} {callers : List (Option Receiver)} {outer : EnvId}
      {fs : List (Frame EnvId)} (hfits : Receiver.FitsAt st clauses outer around receiver)
      (hfs : FitsFrames st clauses around receiver callers fs) :
      FitsFrames st clauses place receiver callers (.scope outer :: fs)
  | call (place : Option MethodPlace) {around : Option MethodPlace} (receiver : Option Receiver)
      {before : Option Receiver} {callers : List (Option Receiver)} {caller : EnvId}
      (yield : Yield EnvId) {fs : List (Frame EnvId)}
      (hfits : Receiver.FitsAt st clauses caller around before)
      (hfs : FitsFrames st clauses around before callers fs) :
      FitsFrames st clauses place receiver (before :: callers) (.call caller yield :: fs)

/-- What was recorded fits the state, at a place, and what waits there. -/
structure Fits (d : Dispatch) (place : Option MethodPlace) (st : State)
    (fs : List (Frame EnvId)) : Prop where
  store : d.FitsStore t st.store
  receiver : Receiver.FitsAt st.store d.clauses st.env place d.current
  frames : FitsFrames t st.store d.clauses place d.current d.callers fs

/-- What was recorded fits the configuration. -/
inductive Follows (d : Dispatch) : Config → Prop
  | mk {place : Option MethodPlace} {control : Control} {fs : List (Frame EnvId)} {st : State}
      (hfits : d.Fits t place st fs) (hcontrol : control.Placed t place) :
      Follows d ⟨control, fs, st⟩

end Dispatch

end Judgement

theorem Function.placedMethods_iff {t : BindingTable} {subclass : Bool} {fs : List Function} :
    Function.PlacedMethods t subclass fs ↔ ∀ f ∈ fs, f.Placed t (some ⟨0, f, subclass⟩) := by
  induction fs with
  | nil => simp [Function.PlacedMethods]
  | cons f fs ih => rw [Function.PlacedMethods, List.forall_mem_cons, ih]

namespace Dispatch

variable {t : BindingTable} {clock : Nat → Float} {d : Dispatch} {place : Option MethodPlace}
  {st : State} {f : Frame EnvId} {fs : List (Frame EnvId)}

theorem FitsFrames.keep {st st' : Store} {clauses clauses' : Array (Option ClassId)}
    {receiver : Option Receiver} {callers : List (Option Receiver)}
    (h : FitsFrames t st clauses place receiver callers fs) (hkeeps : st.Keeps st')
    (hgrow : Receiver.ClausesGrow clauses clauses') :
    FitsFrames t st' clauses' place receiver callers fs := by
  induction h with
  | nil => exact .nil ..
  | plain hf _ ih => exact .plain hf ih
  | scope place hfits _ ih => exact .scope place (hfits.keep hkeeps hgrow) ih
  | call place receiver yield hfits _ ih =>
      exact .call place receiver yield (hfits.keep hkeeps hgrow) ih

theorem FitsFrames.of_isPlain {st : Store} {clauses : Array (Option ClassId)}
    {receiver : Option Receiver} {callers : List (Option Receiver)}
    (h : FitsFrames t st clauses place receiver callers (f :: fs)) (hf : f.isPlain = true) :
    f.Placed t place ∧ FitsFrames t st clauses place receiver callers fs := by
  cases h with
  | plain hplaced hfs => exact ⟨hplaced, hfs⟩
  | scope | call => cases hf

namespace Fits

/-! ## States -/

/-- Variables, environments and instances change, and nothing that the observer records. -/
theorem keep (h : d.Fits t place st fs) {store : Store} (hkeeps : st.store.Keeps store)
    (hfunctions : store.functions = st.store.functions)
    (hclasses : store.classes = st.store.classes) :
    d.Fits t place { st with store } fs :=
  ⟨h.store.keep hkeeps hfunctions hclasses, h.receiver.keep hkeeps (.refl _),
    h.frames.keep hkeeps (.refl _)⟩

theorem define (h : d.Fits t place st fs) {name : Name} (hname : name.Ordinary) (v : Value) :
    d.Fits t place (st.define name.text v) fs :=
  h.keep (.define_ordinary hname st.env v) rfl rfl

theorem newFunction (h : d.Fits t place st fs) {c : Closure EnvId} {receiver : Option Receiver}
    (hc : Receiver.FitsFunction t st.store d.clauses receiver c) :
    (d.addFunction receiver).Fits t place { st with store := (st.store.newFunction c).2 } fs :=
  ⟨h.store.addFunction hc, h.receiver.keep (.newFunction st.store c) (.refl _),
    h.frames.keep (.newFunction st.store c) (.refl _)⟩

theorem newClass (h : d.Fits t place st fs) {c : ClassObject EnvId} {clause : Option ClassId}
    (hc : c.FitsClause t st.store clause) :
    (d.addClass clause).Fits t place { st with store := (st.store.newClass c).2 } fs :=
  ⟨h.store.addClass hc, h.receiver.keep (.newClass st.store c) (.push d.clauses clause),
    h.frames.keep (.newClass st.store c) (.push d.clauses clause)⟩

/-- A class is declared: `super` in its methods is what its clause gave. -/
theorem declareClass (h : d.Fits t place st fs) {name : Name} (hname : name.Ordinary)
    (superclass : Option ClassId) {methods : List Function}
    (hmethods : Function.PlacedMethods t superclass.isSome methods) :
    (d.addClass superclass).Fits t place (st.declareClass name superclass methods) fs := by
  have hdefined := h.define hname .nil
  have hmethod : ∀ (e : EnvId) (store : Store),
      (∀ above, superclass = some above → store.getAt? e 0 "super" = some (.classRef above)) →
      ClassObject.FitsClause t store superclass
        ⟨name.text, superclass, State.methodTable e methods⟩ := by
    intro e store hsuper m hm
    rw [State.methodTable, List.mem_reverse, List.mem_map] at hm
    obtain ⟨f, hf, rfl⟩ := hm
    exact ⟨Function.placedMethods_iff.1 hmethods f hf, hsuper⟩
  cases superclass with
  | none =>
      have hmade := hdefined.newClass (hmethod st.env _ fun _ habove => nomatch habove)
      exact hmade.define hname _
  | some above =>
      have hvariable := Store.Keeps.newVariable (st.define name.text .nil).store st.env "super"
        (.classRef above)
      have hmade := (hdefined.keep hvariable rfl rfl).newClass
        (hmethod (st.define name.text .nil).store.environments.size _ fun _ habove => by
          cases habove
          exact Store.getAt?_newVariable ..)
      exact hmade.define hname _

/-! ## Results -/

/-- Code that waits in a frame without an environment is placed where it will run. -/
theorem push (h : d.Fits t place st fs) (hf : f.Placed t place) : d.Fits t place st (f :: fs) :=
  ⟨h.store, h.receiver, .plain hf h.frames⟩

theorem give (h : d.Fits t place st fs) (v : Value) : Follows t d (st.give v fs) :=
  .mk h trivial

theorem fail (h : d.Fits t place st fs) (cause : RuntimeError.Cause) (line : Nat) :
    Follows t d (st.fail cause line fs) :=
  .mk h trivial

theorem giveOrFail (h : d.Fits t place st fs) (line : Nat)
    (result : Except RuntimeError.Cause Value) : Follows t d (st.giveOrFail line fs result) := by
  cases result with
  | ok v => exact h.give v
  | error cause => exact h.fail cause line

/-- A method is given, bound to the instance of a receiver. -/
theorem giveBound {m : Closure EnvId} {r : Receiver} (h : d.Fits t place st fs)
    (hr : r.FitsMethod t st.store d.clauses m) :
    Follows t (d.addFunction (some r))
      ({ st with store := (st.store.bindValue m r.object).2 }.give
        (st.store.bindValue m r.object).1 fs) := by
  have hbound := (h.keep (.bind st.store m r.object) rfl rfl).newFunction hr.bind
  exact hbound.give _

/-! ## Calls -/

/-- The body of a function runs at the place of the function, one environment further in. -/
theorem enter {c : Closure EnvId} {receiver : Option Receiver} (h : d.Fits t place st fs)
    (hc : Receiver.FitsFunction t st.store d.clauses receiver c) (arguments : List Value)
    (yield : Yield EnvId) : Follows t (d.enter receiver) (st.enter c arguments yield fs) := by
  obtain ⟨⟨name, parameters, body⟩, env, isInitializer⟩ := c
  obtain ⟨inside, ⟨hparameters, hbody⟩, hfits⟩ := hc
  have hnew := Store.Keeps.newEnvironment st.store (some env)
  have hparams : (st.store.newEnvironment (some env)).2.Keeps _ :=
    .defineAll hparameters st.store.environments.size arguments
  have hheap := Store.toHeap_defineAll (st.store.newEnvironment (some env)).2
    st.store.environments.size ((parameters.map Name.text).zip arguments)
  have hlink : (st.store.newEnvironment (some env)).2.enclosing? st.store.environments.size =
      some env := by
    rw [Store.enclosing?_newEnvironment, if_pos rfl]
  have hstarted := h.keep (hnew.trans hparams) (congrArg Heap.functions hheap)
    (congrArg Heap.classes hheap)
  have hinside := (hfits.keep (hnew.trans hparams) (.refl _)).inner (hparams.enclosing _ _ hlink)
  exact .mk ⟨hstarted.store.turn receiver _, hinside,
    .call _ _ yield hstarted.receiver hstarted.frames⟩ hbody

/-- An instance is made, and the initializer of its class runs on it. -/
theorem instantiate (h : d.Fits t place st fs) (cls : ClassId) (arguments : List Value) :
    Follows t (d.call st (.classRef cls) (st.instantiate cls arguments fs).control)
      (st.instantiate cls arguments fs) := by
  have hkeeps : st.store.Keeps (st.store.newInstance cls).2 := .of_heap fun _ _ hc => hc
  have hinstance := h.keep hkeeps rfl rfl
  rw [State.instantiate]
  cases hm : st.store.initializer? cls with
  | none => exact hinstance.give _
  | some m =>
      obtain ⟨r, hr, hobject, hmethod⟩ := h.store.exists_receiver hm st.store.instances.size
      have hbound := (hmethod.keep hkeeps).bind
      have hbind := Store.Keeps.bind (st.store.newInstance cls).2 m r.object
      have hcallee : d.ofCallee st (.classRef cls) = some r := hr
      rw [hobject, ← hcallee] at hbound
      rw [hobject] at hbind
      exact (hinstance.keep hbind rfl rfl).enter hbound arguments _

theorem invoke (h : d.Fits t place st fs) (s : Setting) (callee : Value) (arguments : List Value)
    (line : Nat) :
    Follows t (d.call st callee (st.invoke s callee arguments line fs).control)
      (st.invoke s callee arguments line fs) := by
  cases callee with
  | nativeRef n =>
      rw [State.invoke]
      cases st.store.natives[n]? with
      | none => exact h.fail _ line
      | some native =>
          cases native
          exact .mk ⟨h.store, h.receiver, h.frames⟩ trivial
  | functionRef f =>
      rw [State.invoke]
      cases hc : st.store.functions[f]? with
      | none => exact h.fail _ line
      | some c =>
          obtain ⟨receiver, hreceiver, hfits⟩ := h.store.functions.exists_left hc
          have hcallee : d.ofCallee st (.functionRef f) = receiver := by
            rw [ofCallee, hreceiver]
            rfl
          simp only
          rw [← hcallee] at hfits
          exact h.enter hfits arguments _
  | classRef cls => exact h.instantiate cls arguments
  | _ => exact h.fail _ line

theorem call (h : d.Fits t place st fs) (s : Setting) (callee : Value) (arguments : List Value)
    (line : Nat) :
    Follows t (d.call st callee (st.call s callee arguments line fs).control)
      (st.call s callee arguments line fs) := by
  rw [State.call]
  split
  · exact h.fail _ line
  · split
    · exact h.fail _ line
    · split
      · exact h.fail _ line
      · exact h.invoke s callee arguments line

theorem evalArguments (h : d.Fits t place st fs) (s : Setting) (callee : Value)
    (before : List Value) {after : List Expr} (line : Nat)
    (hafter : ∀ e ∈ after, e.Placed t place) :
    Follows t
      (if after.isEmpty then
        d.call st callee (st.call s callee before.reverse line fs).control else d)
      (st.evalArguments s callee before after line fs) := by
  cases after with
  | nil => exact h.call s callee before.reverse line
  | cons e es =>
      rw [List.forall_mem_cons] at hafter
      exact .mk (h.push hafter.2) hafter.1

/-! ## Expressions -/

/-- `this` is the instance of the receiver. -/
theorem read_this (h : d.Fits t place st fs) (clock : Nat → Float) {keyword : Name}
    (hkeyword : Reference.Placed t place ⟨.this, keyword⟩) :
    ∃ r, d.current = some r ∧ r.Encloses st.store ⟨.this, keyword⟩ ∧
      st.read ⟨t, clock⟩ keyword = .ok (.instanceRef r.object) := by
  obtain ⟨htext, p, hp, hmem, hhops⟩ := hkeyword.this rfl
  obtain ⟨r, hr, hfits⟩ := h.receiver p hp
  refine ⟨r, hr, ⟨hfits.method ▸ hmem, hfits.holder⟩, ?_⟩
  rw [State.read]
  simp only at htext hhops
  simp only [hhops, htext, hfits.this]

/-- `super` starts at the clause that was recorded of the class of the receiver, and finds a method
for its instance. -/
theorem superMethod_eq (h : d.Fits t place st fs) (clock : Nat → Float) {keyword : Name}
    (hkeyword : Reference.Placed t place ⟨.super, keyword⟩) (method : Name) :
    ∃ r above, d.current = some r ∧ r.Encloses st.store ⟨.super, keyword⟩ ∧
      d.clauses[r.holder]? = some (some above) ∧
      st.superMethod ⟨t, clock⟩ keyword method =
        match st.store.method? above method.text with
        | some m => .ok (m, r.object)
        | none => .error ⟨.undefinedProperty method.text, method.line⟩ := by
  obtain ⟨p, hp, hmem, hsubclass, hhops⟩ := hkeyword.super rfl
  obtain ⟨r, hr, hfits⟩ := h.receiver p hp
  obtain ⟨above, habove, hsuper⟩ := hfits.super hsubclass
  refine ⟨r, above, hr, ⟨hfits.method ▸ hmem, hfits.holder⟩, habove, ?_⟩
  rw [State.superMethod]
  simp only at hhops
  cases hm : st.store.method? above method.text <;>
    simp only [hhops, hsuper, if_neg (Nat.succ_ne_zero _), Nat.add_sub_cancel, hfits.this, hm]

theorem eval (h : d.Fits t place st fs) {e : Expr} (he : e.Placed t place) :
    Follows t (d.step ⟨t, clock⟩ ⟨.eval e, fs, st⟩) (st.eval ⟨t, clock⟩ fs e) := by
  cases e with
  | literal l => exact h.give _
  | grouping inner => exact .mk h he
  | unary op line operand => exact .mk (h.push trivial) he
  | binary op line left right | logical op left right =>
      obtain ⟨hleft, hright⟩ := List.forall_mem_append.1 he
      exact .mk (h.push hright) hleft
  | «variable» name | this name =>
      rw [State.eval]
      split
      · exact h.give _
      · exact .mk h trivial
  | assign name value =>
      obtain ⟨hname, hvalue⟩ := List.forall_mem_cons.1 he
      exact .mk (h.push (hname.assign rfl)) hvalue
  | call callee arguments line =>
      obtain ⟨hcallee, harguments⟩ := List.forall_mem_append.1 he
      have hplaced : ∀ e ∈ arguments, e.Placed t place :=
        fun e he r hr => harguments r (Expr.mem_referencesAll he hr)
      exact .mk (h.push hplaced) hcallee
  | get object property => exact .mk (h.push trivial) he
  | set object property value =>
      obtain ⟨hobject, hvalue⟩ := List.forall_mem_append.1 he
      exact .mk (h.push hvalue) hobject
  | super keyword method =>
      obtain ⟨r, above, hr, -, habove, hsuper⟩ :=
        h.superMethod_eq clock (he _ (List.mem_singleton_self _)) method
      have hof : d.ofSuper st method =
          Receiver.of? st.store.toHeap r.object above method.text := by
        rw [ofSuper, hr]
        simp only [habove]
      rw [State.eval, hsuper]
      cases hm : st.store.method? above method.text with
      | none =>
          have hstep : d.step ⟨t, clock⟩ ⟨.eval (.super keyword method), fs, st⟩ = d := by
            rw [step, hof, Receiver.of?_eq_none hm]
          rw [hstep]
          exact .mk h trivial
      | some m =>
          obtain ⟨r', hr', hobject, hmethod⟩ := h.store.exists_receiver hm r.object
          have hstep : d.step ⟨t, clock⟩ ⟨.eval (.super keyword method), fs, st⟩ =
              d.addFunction (some r') := by
            rw [step, hof, hr']
          rw [hstep, ← hobject]
          exact h.giveBound hmethod

/-! ## Statements -/

theorem exec (h : d.Fits t place st fs) (s : Setting) {stmt : Stmt}
    (hstmt : stmt.Placed t place) :
    Follows t (d.step s ⟨.exec stmt, fs, st⟩) (st.exec fs stmt) := by
  cases stmt with
  | expression e => exact .mk h hstmt
  | print e => exact .mk (h.push trivial) hstmt
  | var name initial =>
      obtain ⟨hname, hinitial⟩ := hstmt
      cases initial with
      | none => exact (h.define hname .nil).give _
      | some e => exact .mk (h.push hname) (hinitial e rfl)
  | block body =>
      have hkept := h.keep (.newEnvironment st.store (some st.env)) rfl rfl
      have hlink : (st.store.newEnvironment (some st.env)).2.enclosing?
          st.store.environments.size = some st.env := by
        rw [Store.enclosing?_newEnvironment, if_pos rfl]
      exact .mk ⟨hkept.store, hkept.receiver.inner hlink, .scope _ hkept.receiver hkept.frames⟩
        hstmt
  | branch condition yes no =>
      cases no with
      | none => exact .mk (h.push ⟨hstmt.2, by rintro _ ⟨⟩⟩) hstmt.1
      | some no =>
          exact .mk (h.push ⟨hstmt.2.1, fun _ hno => Option.some.inj hno ▸ hstmt.2.2⟩) hstmt.1
  | loop condition body => exact .mk (h.push hstmt) hstmt.1
  | function f =>
      obtain ⟨hname, hplaced⟩ := hstmt
      have hmade := h.newFunction (c := ⟨f, st.env, false⟩) ⟨place, hplaced, h.receiver⟩
      exact (hmade.define hname _).give _
  | ret keyword value =>
      cases value with
      | none => exact .mk h trivial
      | some e => exact .mk (h.push trivial) (hstmt e rfl)
  | classDecl name superclass methods =>
      obtain ⟨hname, hmethods⟩ := hstmt
      cases superclass with
      | none => exact (h.declareClass hname none hmethods).give _
      | some above =>
          have habove : (Expr.variable above).Placed t place := by
            intro r hr
            obtain rfl := List.mem_singleton.1 hr
            exact ⟨by rintro ⟨⟩, by rintro ⟨⟩, by rintro ⟨⟩⟩
          exact .mk (h.push ⟨hname, hmethods⟩) habove

theorem execAll (h : d.Fits t place st fs) {body : List Stmt}
    (hbody : Stmt.PlacedAll t place body) : Follows t d (st.execAll fs body) := by
  cases body with
  | nil => exact h.give _
  | cons s body => exact .mk (h.push hbody.2) hbody.1

theorem continueProgram (h : d.Fits t place st fs) {p : Program}
    (hp : Stmt.PlacedAll t place p) : Follows t d (st.continueProgram fs p) := by
  cases p with
  | nil => exact h.give _
  | cons s p => exact .mk (h.push hp.2) hp.1

/-! ## Frames -/

/-- A property is read: a method is given bound to the instance. -/
theorem giveProperty (h : d.Fits t place st fs) (v : Value) (property : Name) :
    Follows t (d.access st property v) (st.giveProperty v property fs) := by
  cases v with
  | instanceRef object =>
      rw [State.giveProperty, access]
      cases hproperty : st.store.property object property with
      | error e => exact .mk h trivial
      | ok found =>
          cases found with
          | field v => exact h.give v
          | method m =>
              obtain ⟨cls, hcls, hm⟩ := Heap.method?_of_property hproperty
              obtain ⟨r, hr, rfl, hmethod⟩ := h.store.exists_receiver hm object
              simp only [hcls, Option.bind_some, hr]
              exact h.giveBound hmethod
  | _ => exact h.fail _ property.line

/-- A frame that keeps no environment takes the value that it waits for. -/
theorem resume (h : d.Fits t place st fs) (s : Setting) (v : Value) (hf : f.Placed t place) :
    Follows t (d.step s ⟨.give v, f :: fs, st⟩) (st.resume s fs v f) := by
  cases f with
  | unary op line => exact h.giveOrFail line _
  | binaryLeft op line right => exact .mk (h.push trivial) hf
  | binaryRight op line left => exact h.giveOrFail line _
  | logical op right =>
      rw [State.resume]
      split
      · exact h.give v
      · exact .mk h hf
  | assign name =>
      rw [State.resume]
      cases st.binder s name with
      | error e => exact .mk h trivial
      | ok a => exact (h.keep (.define_ordinary hf a v) rfl rfl).give v
  | callee arguments line =>
      have hfollows := h.evalArguments s v [] line hf
      cases arguments <;> exact hfollows
  | argument callee before after line =>
      have hfollows := h.evalArguments s callee (v :: before) line hf
      cases after <;> exact hfollows
  | get property => exact h.giveProperty v property
  | setObject property value =>
      cases v with
      | instanceRef i => exact .mk (h.push trivial) hf
      | _ => exact h.fail _ property.line
  | setValue object property =>
      have hkeeps : st.store.Keeps (st.store.setField object property.text v) :=
        .of_heap fun _ _ hc => hc
      exact (h.keep hkeeps rfl rfl).give v
  | print => exact .mk ⟨h.store, h.receiver, h.frames⟩ trivial
  | var name => exact (h.define hf v).give _
  | ret => exact .mk h trivial
  | branch yes no =>
      simp only [State.resume]
      split
      · exact .mk h hf.1
      · cases no with
        | none => exact h.give _
        | some no => exact .mk h (hf.2 no rfl)
  | loopTest condition body =>
      rw [State.resume]
      split
      · exact .mk (h.push hf) hf.2
      · exact h.give _
  | loopBody condition body => exact .mk (h.push hf) hf.1
  | superclass name superclass methods =>
      cases v with
      | classRef above => exact (h.declareClass hf.1 (some above) hf.2).give _
      | _ => exact h.fail _ superclass.line
  | rest body => exact .mk h hf
  | program rest => exact h.continueProgram hf
  | scope | call => exact hf.elim

/-- Leaving a frame goes back to the place and the receiver that were recorded around it. -/
theorem leave (h : d.Fits t place st (f :: fs)) :
    ∃ around, (d.pop f).Fits t around (f.leave st) fs := by
  obtain ⟨current, callers, functions, clauses⟩ := d
  obtain ⟨hstore, hreceiver, hframes⟩ := h
  cases hframes with
  | plain hf hfs =>
      cases f with
      | scope | call => exact hf.elim
      | _ => exact ⟨place, hstore, hreceiver, hfs⟩
  | scope place hfits hfs => exact ⟨_, hstore, hfits, hfs⟩
  | call place receiver yield hfits hfs => exact ⟨_, hstore.turn _ _, hfits, hfs⟩

/-- A frame that keeps no environment is taken off. -/
theorem plain (h : d.Fits t place st (f :: fs)) (hf : f.isPlain = true) :
    f.Placed t place ∧ d.Fits t place st fs := by
  obtain ⟨hplaced, hfs⟩ := h.frames.of_isPlain hf
  exact ⟨hplaced, h.store, h.receiver, hfs⟩

theorem unwindReturn (h : d.Fits t place st (f :: fs)) (v : Value) :
    Follows t (d.pop f) (st.unwindReturn fs v f) := by
  obtain ⟨around, hleft⟩ := h.leave
  cases f with
  | call => exact hleft.give _
  | program rest =>
      obtain ⟨hplaced, hrest⟩ := h.plain rfl
      exact hrest.continueProgram hplaced
  | _ => exact .mk hleft trivial

theorem unwindError (h : d.Fits t place st (f :: fs)) (e : RuntimeError) :
    Follows t (d.pop f) (st.unwindError fs e f) := by
  obtain ⟨around, hleft⟩ := h.leave
  exact .mk hleft trivial

end Fits

/-! ## Steps -/

/-- The observer follows each step. -/
theorem Follows.step {c : Config} (h : Follows t d c) :
    Follows t (d.step ⟨t, clock⟩ c) (c.step ⟨t, clock⟩) := by
  obtain @⟨place, control, fs, st, hfits, hcontrol⟩ := h
  cases control with
  | eval e => exact hfits.eval hcontrol
  | exec s => exact hfits.exec _ hcontrol
  | execAll body => exact hfits.execAll hcontrol
  | give v =>
      cases fs with
      | nil => exact .mk hfits trivial
      | cons f fs =>
          cases f with
          | scope | call =>
              obtain ⟨around, hleft⟩ := hfits.leave
              exact hleft.give _
          | _ =>
              obtain ⟨hplaced, hrest⟩ := hfits.plain rfl
              exact hrest.resume _ v hplaced
  | returning v =>
      cases fs with
      | nil => exact .mk hfits trivial
      | cons f fs =>
          have hunwound := hfits.unwindReturn v
          cases f <;> exact hunwound
  | failing e =>
      cases fs with
      | nil => exact .mk hfits trivial
      | cons f fs =>
          have hunwound := hfits.unwindError e
          cases f <;> exact hunwound

end Dispatch

end Lox
