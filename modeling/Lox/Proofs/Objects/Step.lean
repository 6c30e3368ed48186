import Lox.Proofs.Machine.Call
import Lox.Proofs.Machine.Run
import Lox.Proofs.Objects.Held
import Lox.Proofs.Store.Access

set_option autoImplicit false

/-! # Nothing dangles

At each point of a run, what is running, what waits and what the store holds refer only to what is
in the store, and the store has grown from what it was at any earlier point (`Config.Sound`). Each
step keeps this, whatever the table says of the references.
-/

namespace Lox

/-! ## What is held -/

/-- What a call gives is there. -/
def Yield.Sound (st : Store) : Yield EnvId → Prop
  | .result => True
  | .receiver e => e < st.environments.size
  | .made i => ∃ cls, st.classOf? i = some cls

/-- What a frame refers to is there, and its code binds identifiers only. -/
def Frame.Sound (st : Store) : Frame EnvId → Prop
  | .unary _ _ | .get _ | .print | .ret => True
  | .binaryLeft _ _ e | .logical _ e | .setObject _ e => e.Ordinary
  | .binaryRight _ _ left => left.Made st.toHeap
  | .assign name | .var name => name.Ordinary
  | .callee es _ => ∀ e ∈ es, e.Ordinary
  | .argument called before after _ =>
    called.Made st.toHeap ∧ (∀ v ∈ before, v.Made st.toHeap) ∧ ∀ e ∈ after, e.Ordinary
  | .setValue i _ => ∃ cls, st.classOf? i = some cls
  | .branch yes no => yes.Ordinary ∧ ∀ s ∈ no, s.Ordinary
  | .loopTest condition body | .loopBody condition body => condition.Ordinary ∧ body.Ordinary
  | .superclass name _ methods => name.Ordinary ∧ Function.OrdinaryAll methods
  | .rest body | .program body => Stmt.OrdinaryAll body
  | .scope outer => outer < st.environments.size
  | .call caller yield => caller < st.environments.size ∧ yield.Sound st

/-- What is running refers to what is there, and its code binds identifiers only. -/
def Control.Sound (st : Store) : Control → Prop
  | .eval e => e.Ordinary
  | .exec s => s.Ordinary
  | .execAll body => Stmt.OrdinaryAll body
  | .give v | .returning v => v.Made st.toHeap
  | .failing _ => True

/-- A state, and what waits in it, refer to what is in a sound store that has grown from another. -/
structure State.Sound (base : Store) (st : State) (fs : List (Frame EnvId)) : Prop where
  store : Store.SoundFrom base st.store
  env : st.env < st.store.environments.size
  frames : ∀ f ∈ fs, f.Sound st.store

/-- A configuration refers to what is in a sound store that has grown from another. -/
inductive Config.Sound (base : Store) : Config → Prop
  | mk {control : Control} {fs : List (Frame EnvId)} {st : State} (hst : st.Sound base fs)
      (hcontrol : control.Sound st.store) : Sound base ⟨control, fs, st⟩

/-- The values that a frame holds. -/
def Frame.Holds (v : Value) : Frame EnvId → Prop
  | .binaryRight _ _ left => v = left
  | .argument called before _ _ => v = called ∨ v ∈ before
  | .setValue i _ => v = .instanceRef i
  | .call _ (.made i) => v = .instanceRef i
  | _ => False

/-- All values that there are: those that are given, that wait in frames, and that are kept in
variables and fields. -/
inductive Config.Holds (c : Config) (v : Value) : Prop
  | given (h : c.control = .give v ∨ c.control = .returning v)
  | waiting (f : Frame EnvId) (hf : f ∈ c.frames) (h : f.Holds v)
  | kept (e : EnvId) (name : String) (h : c.state.store.lookupIn? e name = some v)
  | stored (i : InstanceId) (name : String) (h : c.state.store.field? i name = some v)

theorem Yield.Sound.grow {st st' : Store} {yield : Yield EnvId} (h : yield.Sound st)
    (hgrows : st.Grows st') : yield.Sound st' := by
  cases yield with
  | result => trivial
  | receiver e => exact Nat.lt_of_lt_of_le h hgrows.environments
  | made i => exact h.imp (hgrows.classOf i)

theorem Frame.Sound.grow {st st' : Store} {f : Frame EnvId} (h : f.Sound st)
    (hgrows : st.Grows st') : f.Sound st' := by
  cases f with
  | binaryRight op line left => exact Value.Made.grow h hgrows
  | argument callee before after line =>
      exact ⟨h.1.grow hgrows, fun v hv => (h.2.1 v hv).grow hgrows, h.2.2⟩
  | setValue i property => exact h.imp (hgrows.classOf i)
  | scope outer => exact Nat.lt_of_lt_of_le h hgrows.environments
  | call caller yield => exact ⟨Nat.lt_of_lt_of_le h.1 hgrows.environments, h.2.grow hgrows⟩
  | _ => exact h

/-- Each value that there is was made. -/
theorem Config.Sound.made {base : Store} {c : Config} (h : c.Sound base) {v : Value}
    (hv : c.Holds v) : v.Made c.state.store.toHeap := by
  obtain @⟨control, fs, st, hst, hcontrol⟩ := h
  cases hv with
  | given hgiven => rcases hgiven with rfl | rfl <;> exact hcontrol
  | waiting f hf hholds =>
      have hsound := hst.frames f hf
      cases f with
      | binaryRight op line left =>
          subst hholds
          exact hsound
      | argument callee before after line =>
          rcases hholds with rfl | hbefore
          · exact hsound.1
          · exact hsound.2.1 v hbefore
      | setValue i property =>
          subst hholds
          exact hsound
      | call caller yield =>
          cases yield with
          | made i =>
              subst hholds
              exact hsound.2
          | _ => exact hholds.elim
      | _ => exact hholds.elim
  | kept e name hkept => exact hst.store.sound.lookup e name v hkept
  | stored i name hstored => exact hst.store.sound.fields i name v hstored

/-! ## Operators -/

theorem UnaryOp.made_of_apply {ε : Type} {h : Heap ε} {op : UnaryOp} {v w : Value}
    (hw : op.apply v = .ok w) : w.Made h := by
  cases op with
  | not =>
      cases hw
      trivial
  | negate =>
      cases v with
      | number x =>
          cases hw
          trivial
      | _ => cases hw

theorem Value.made_of_ofNumbers {ε : Type} {h : Heap ε} {f : Float → Float → Value}
    {left right w : Value} (hw : ofNumbers f left right = .ok w) (hf : ∀ x y, (f x y).Made h) :
    w.Made h := by
  cases left with
  | number x =>
      cases right with
      | number y =>
          cases hw
          exact hf x y
      | _ => cases hw
  | _ => cases hw

theorem Value.made_of_add {ε : Type} {h : Heap ε} {left right w : Value}
    (hw : left.add right = .ok w) : w.Made h := by
  cases left with
  | number x =>
      cases right with
      | number y =>
          cases hw
          trivial
      | _ => cases hw
  | string s =>
      cases right with
      | string t =>
          cases hw
          trivial
      | _ => cases hw
  | _ => cases hw

theorem BinaryOp.made_of_apply {ε : Type} {h : Heap ε} {op : BinaryOp} {left right w : Value}
    (hw : op.apply left right = .ok w) : w.Made h := by
  cases op with
  | add => exact Value.made_of_add hw
  | equal | notEqual =>
      cases hw
      trivial
  | _ => exact Value.made_of_ofNumbers hw fun _ _ => trivial

/-! ## Steps -/

/-- The search for a name ends where the name is bound. -/
theorem Store.isSome_of_binder? {st : Store} {e a : EnvId} {name : String}
    (h : st.binder? e name = some a) : (st.lookupIn? a name).isSome = true := by
  fun_induction st.binder? e name with
  | case1 e hbound =>
      cases h
      exact hbound
  | case2 e hbound outer houter hlt ih => exact ih h
  | case3 => cases h
  | case4 => cases h

namespace State.Sound

variable {base : Store} {s : Setting} {st : State} {f : Frame EnvId} {fs : List (Frame EnvId)}

theorem own (h : st.Sound base fs) : Store.SoundFrom st.store st.store := .refl h.store.sound

/-- The store changes. -/
theorem keep (h : st.Sound base fs) {store : Store} (hstore : Store.SoundFrom st.store store) :
    State.Sound base { st with store } fs where
  store := ⟨hstore.sound, h.store.grows.trans hstore.grows⟩
  env := Nat.lt_of_lt_of_le h.env hstore.grows.environments
  frames f hf := (h.frames f hf).grow hstore.grows

theorem define (h : st.Sound base fs) {n : Name} (hn : n.Ordinary) {v : Value}
    (hv : v.Made st.store.toHeap) : (st.define n.text v).Sound base fs :=
  h.keep (h.own.define h.env hn hv)

/-- The value of a reference is that of a variable. -/
theorem made_of_read (h : st.Sound base fs) {name : Name} {v : Value}
    (hv : st.read s name = .ok v) : v.Made st.store.toHeap := by
  rw [State.read] at hv
  split at hv
  · split at hv
    · rename_i hfound
      cases hv
      exact h.store.sound.getAt? hfound
    · cases hv
  · rw [Store.get] at hv
    split at hv
    · rename_i hfound
      cases hv
      exact h.store.sound.get? hfound
    · cases hv

/-- The environment of a variable that is assigned is there. -/
theorem lt_of_binder {name : Name} {e : EnvId} (he : st.binder s name = .ok e) :
    e < st.store.environments.size := by
  rw [State.binder] at he
  split at he
  · split at he
    · rename_i hfound
      cases he
      exact Store.lt_size_of_lookupIn? (Store.binderAt?_eq_some_iff.1 hfound).2
    · cases he
  · split at he
    · rename_i hfound
      cases he
      exact Store.lt_size_of_lookupIn? (Store.isSome_of_binder? hfound)
    · cases he

/-! ## Results -/

theorem give (h : st.Sound base fs) {v : Value} (hv : v.Made st.store.toHeap) :
    (st.give v fs).Sound base := .mk h hv

theorem fail (h : st.Sound base fs) (cause : RuntimeError.Cause) (line : Nat) :
    (st.fail cause line fs).Sound base := .mk h trivial

theorem giveOrFail (h : st.Sound base fs) (line : Nat)
    {result : Except RuntimeError.Cause Value}
    (hresult : ∀ v, result = .ok v → v.Made st.store.toHeap) :
    (st.giveOrFail line fs result).Sound base := by
  cases result with
  | ok v => exact h.give (hresult v rfl)
  | error cause => exact h.fail cause line

/-- Code runs for what waits in a frame. -/
theorem push (h : st.Sound base fs) (hf : f.Sound st.store) : st.Sound base (f :: fs) :=
  ⟨h.store, h.env, List.forall_mem_cons.2 ⟨hf, h.frames⟩⟩

/-- A method is given, bound to an instance. -/
theorem giveBound (h : st.Sound base fs) {m : Closure EnvId} (hm : m.Sound st.store)
    {object : InstanceId} (hobject : ∃ cls, st.store.classOf? object = some cls) :
    Config.Sound base ({ st with store := (st.store.bindValue m object).2 }.give
      (st.store.bindValue m object).1 fs) := by
  obtain ⟨hstore, hvalue⟩ := h.own.bindValue hm hobject
  exact (h.keep hstore).give hvalue

/-! ## Calls -/

/-- The body of a function starts, in an environment that is inside that of the function. -/
theorem enter {c : Closure EnvId} {arguments : List Value} {yield : Yield EnvId}
    (h : st.Sound base fs) (hc : c.Sound st.store)
    (harguments : ∀ v ∈ arguments, v.Made st.store.toHeap) (hyield : yield.Sound st.store) :
    (st.enter c arguments yield fs).Sound base := by
  have hnew := h.own.newEnvironment hc.env
  have hinside := st.store.lt_size_newEnvironment (some c.env)
  have hall := (Store.SoundFrom.refl hnew.sound).defineAll hinside hc.decl.parameters harguments
  have hkept := h.keep ⟨hall.sound, hnew.grows.trans hall.grows⟩
  have hcall : Frame.Sound _ (.call st.env yield) :=
    ⟨hkept.env, hyield.grow (hnew.grows.trans hall.grows)⟩
  exact .mk ⟨hkept.store, Nat.lt_of_lt_of_le hinside hall.grows.environments,
    List.forall_mem_cons.2 ⟨hcall, hkept.frames⟩⟩ hc.decl.body

theorem call (h : st.Sound base fs) {callee : Value} (hcallee : callee.Made st.store.toHeap)
    {arguments : List Value} (harguments : ∀ v ∈ arguments, v.Made st.store.toHeap) (line : Nat) :
    (st.call s callee arguments line fs).Sound base := by
  have hobject : ∀ cls, ∃ own,
      (st.store.newInstance cls).2.classOf? st.store.instances.size = some own := fun cls =>
    ⟨cls, by rw [Store.classOf?_newInstance, if_pos rfl]⟩
  have hcalls := st.calls_call s callee arguments line fs
  generalize st.call s callee arguments line fs = c at hcalls ⊢
  cases hcalls with
  | notCallable | wrongArity | noRoom => exact h.fail _ line
  | clock => exact .mk ⟨h.store, h.env, h.frames⟩ trivial
  | @function f c hf hc =>
      have hsound := h.store.sound.functions f c hc
      refine h.enter hsound harguments ?_
      split
      · exact hsound.env
      · trivial
  | @plain cls hcls =>
      subst hcls
      exact (h.keep (h.own.newInstance hcallee)).give (hobject cls)
  | @initialized cls m hcls hm =>
      -- The instance is made first, and then the initializer is bound to it.
      subst hcls
      have hmade := h.own.newInstance hcallee
      obtain ⟨hmethod, -⟩ := h.store.sound.method? hm
      obtain ⟨hbind, hbound⟩ := hmade.bind (hmethod.grow hmade.grows) (hobject cls)
      exact (h.keep hbind).enter hbound
        (fun v hv => (harguments v hv).grow hbind.grows) (hobject cls)

theorem evalArguments (h : st.Sound base fs) {callee : Value}
    (hcallee : callee.Made st.store.toHeap) {before : List Value}
    (hbefore : ∀ v ∈ before, v.Made st.store.toHeap) {after : List Expr}
    (hafter : ∀ e ∈ after, e.Ordinary) (line : Nat) :
    (st.evalArguments s callee before after line fs).Sound base := by
  cases after with
  | nil => exact h.call hcallee (fun v hv => hbefore v (List.mem_reverse.1 hv)) line
  | cons e es =>
      rw [List.forall_mem_cons] at hafter
      exact .mk (h.push ⟨hcallee, hbefore, hafter.2⟩) hafter.1

/-! ## Expressions -/

theorem eval (h : st.Sound base fs) {e : Expr} (he : e.Ordinary) :
    (st.eval s fs e).Sound base := by
  cases e with
  | literal l => cases l <;> exact h.give trivial
  | grouping inner => exact .mk h he
  | unary op line operand => exact .mk (h.push trivial) he
  | binary op line left right | logical op left right =>
      obtain ⟨hleft, hright⟩ := List.forall_mem_append.1 he
      exact .mk (h.push hright) hleft
  | «variable» name | this name =>
      rw [State.eval]
      cases hv : st.read s name with
      | ok v => exact h.give (h.made_of_read hv)
      | error e => exact .mk h trivial
  | assign name value =>
      obtain ⟨hname, hvalue⟩ := List.forall_mem_cons.1 he
      exact .mk (h.push (hname rfl)) hvalue
  | call callee arguments line =>
      obtain ⟨hcallee, harguments⟩ := List.forall_mem_append.1 he
      exact .mk (h.push (Expr.ordinaryAll_iff.1 harguments)) hcallee
  | get object property => exact .mk (h.push trivial) he
  | set object property value =>
      obtain ⟨hobject, hvalue⟩ := List.forall_mem_append.1 he
      exact .mk (h.push hvalue) hobject
  | super keyword method =>
      rw [State.eval]
      cases hfound : st.superMethod s keyword method with
      | error e => exact .mk h trivial
      | ok found =>
          obtain ⟨above, hops, hm, hthis⟩ := State.exists_of_superMethod hfound
          exact h.giveBound (h.store.sound.method? hm).1 (h.store.sound.getAt? hthis)

/-! ## Statements -/

/-- A class is declared: its superclass is older, and its methods are under their names. -/
theorem declareClass (h : st.Sound base fs) {name : Name} (hname : name.Ordinary)
    {superclass : Option ClassId}
    (habove : ∀ above, superclass = some above → ∃ c, st.store.classes[above]? = some c)
    {methods : List Function} (hmethods : Function.OrdinaryAll methods) :
    (st.declareClass name superclass methods).Sound base fs := by
  have hdefined : (st.define name.text .nil).Sound base fs := h.define hname trivial
  have hclass : ∀ (store : Store) (e : EnvId), store.classes = st.store.classes →
      e < store.environments.size →
      ClassObject.Sound store store.classes.size
        ⟨name.text, superclass, State.methodTable e methods⟩ := by
    intro store e hclasses he
    refine ⟨fun above hsuper => ?_, fun m hm => ?_⟩
    · obtain ⟨c, hc⟩ := habove above hsuper
      rw [hclasses]
      exact (Array.getElem?_eq_some_iff.1 hc).1
    · rw [State.methodTable, List.mem_reverse, List.mem_map] at hm
      obtain ⟨f, hf, rfl⟩ := hm
      exact ⟨⟨he, Function.ordinaryAll_iff.1 hmethods f hf⟩, rfl, rfl⟩
  cases superclass with
  | none =>
      have hmade := hdefined.keep (hdefined.own.newClass (hclass _ _ rfl hdefined.env))
      exact hmade.define hname ⟨_, Array.getElem?_push_size⟩
  | some above =>
      -- The methods of a subclass are closed over an environment of its own for `super`.
      have hvalue : (Value.classRef above).Made (st.define name.text .nil).store.toHeap :=
        habove above rfl
      have hsuper := hdefined.own.newVariable hdefined.env "super" hvalue
      have hinside : (st.define name.text .nil).store.environments.size <
          (((st.define name.text .nil).store.newEnvironment (some st.env)).2.define
            (st.define name.text .nil).store.environments.size "super"
            (.classRef above)).environments.size := by
        rw [Store.size_define]
        exact Store.lt_size_newEnvironment _ _
      have hmade := hdefined.keep (hsuper.newClass (hclass _ _ rfl hinside))
      exact hmade.define hname ⟨_, Array.getElem?_push_size⟩

theorem exec (h : st.Sound base fs) {stmt : Stmt} (hstmt : stmt.Ordinary) :
    (st.exec fs stmt).Sound base := by
  cases stmt with
  | expression e => exact .mk h hstmt
  | print e => exact .mk (h.push trivial) hstmt
  | var name initial =>
      cases initial with
      | none => exact (h.define (v := .nil) hstmt.1 trivial).give trivial
      | some e => exact .mk (h.push hstmt.1) (hstmt.2 e rfl)
  | block body =>
      have hnew := h.own.newEnvironment h.env
      have hkept := h.keep hnew
      have hinside := st.store.lt_size_newEnvironment (some st.env)
      exact .mk ⟨hkept.store, hinside, List.forall_mem_cons.2 ⟨hkept.env, hkept.frames⟩⟩ hstmt
  | branch condition yes no =>
      cases no with
      | none => exact .mk (h.push ⟨hstmt.2, by rintro _ ⟨⟩⟩) hstmt.1
      | some no =>
          exact .mk (h.push ⟨hstmt.2.1, fun _ hno => Option.some.inj hno ▸ hstmt.2.2⟩) hstmt.1
  | loop condition body => exact .mk (h.push hstmt) hstmt.1
  | function f =>
      have hclosure : Closure.Sound st.store ⟨f, st.env, false⟩ := ⟨h.env, hstmt⟩
      have hmade := h.keep (h.own.newFunction hclosure)
      have hvalue : (Value.functionRef st.store.functions.size).Made
          (st.store.newFunction ⟨f, st.env, false⟩).2.toHeap := ⟨_, Array.getElem?_push_size⟩
      exact (hmade.define hstmt.name hvalue).give trivial
  | ret keyword value =>
      cases value with
      | none => exact .mk h trivial
      | some e => exact .mk (h.push trivial) (hstmt e rfl)
  | classDecl name superclass methods =>
      cases superclass with
      | none =>
          have habove : ∀ above : ClassId, none = some above →
              ∃ c, st.store.classes[above]? = some c := by
            rintro _ ⟨⟩
          exact (h.declareClass hstmt.1 habove hstmt.2).give trivial
      | some above =>
          have habove : (Expr.variable above).Ordinary := by
            intro r hr hassign
            obtain rfl := List.mem_singleton.1 hr
            cases hassign
          exact .mk (h.push hstmt) habove

theorem execAll (h : st.Sound base fs) {body : List Stmt} (hbody : Stmt.OrdinaryAll body) :
    (st.execAll fs body).Sound base := by
  cases body with
  | nil => exact h.give trivial
  | cons stmt body => exact .mk (h.push hbody.2) hbody.1

theorem continueProgram (h : st.Sound base fs) {p : Program} (hp : Stmt.OrdinaryAll p) :
    (st.continueProgram fs p).Sound base := by
  cases p with
  | nil => exact h.give trivial
  | cons stmt p => exact .mk (h.push hp.2) hp.1

/-! ## Frames -/

theorem giveProperty (h : st.Sound base fs) {object : Value}
    (hobject : object.Made st.store.toHeap) (property : Name) :
    (st.giveProperty object property fs).Sound base := by
  cases object with
  | instanceRef i =>
      rw [State.giveProperty]
      cases hproperty : st.store.property i property with
      | error e => exact .mk h trivial
      | ok found =>
          cases found with
          | field v =>
              exact h.give (h.store.sound.fields i _ v (Heap.field?_of_property hproperty))
          | method m =>
              obtain ⟨cls, -, hm⟩ := Heap.method?_of_property hproperty
              exact h.giveBound (h.store.sound.method? hm).1 hobject
  | _ => exact h.fail _ property.line

/-- The top frame is left. -/
theorem leave (h : st.Sound base (f :: fs)) : (f.leave st).Sound base fs := by
  obtain ⟨hf, hfs⟩ := List.forall_mem_cons.1 h.frames
  cases f with
  | scope outer => exact ⟨h.store, hf, hfs⟩
  | call caller yield => exact ⟨h.store, hf.1, hfs⟩
  | _ => exact ⟨h.store, h.env, hfs⟩

/-- What a call gives was made. -/
theorem yielded (h : st.Sound base fs) {yield : Yield EnvId} (hyield : yield.Sound st.store)
    {v : Value} (hv : v.Made st.store.toHeap) : (st.yielded yield v).Made st.store.toHeap := by
  cases yield with
  | result => exact hv
  | made object => exact hyield
  | receiver e =>
      rw [State.yielded]
      cases hthis : st.store.getAt? e 0 "this" with
      | none => trivial
      | some w => exact h.store.sound.getAt? hthis

/-- A call ends. -/
theorem leaveCall {caller : EnvId} {yield : Yield EnvId}
    (h : st.Sound base (.call caller yield :: fs)) {v : Value} (hv : v.Made st.store.toHeap) :
    (((Frame.call caller yield).leave st).give (st.yielded yield v) fs).Sound base := by
  obtain ⟨hf, -⟩ := List.forall_mem_cons.1 h.frames
  exact h.leave.give (h.yielded hf.2 hv)

/-- The top frame takes the value that it waits for. -/
theorem resume (h : st.Sound base (f :: fs)) {v : Value} (hv : v.Made st.store.toHeap) :
    (st.resume s fs v f).Sound base := by
  obtain ⟨hf, hfs⟩ := List.forall_mem_cons.1 h.frames
  have hbelow : st.Sound base fs := ⟨h.store, h.env, hfs⟩
  cases f with
  | unary op line => exact hbelow.giveOrFail line fun _ hw => UnaryOp.made_of_apply hw
  | binaryLeft op line right => exact .mk (hbelow.push hv) hf
  | binaryRight op line left => exact hbelow.giveOrFail line fun _ hw => BinaryOp.made_of_apply hw
  | logical op right =>
      rw [State.resume]
      split
      · exact hbelow.give hv
      · exact .mk hbelow hf
  | assign name =>
      rw [State.resume]
      cases he : st.binder s name with
      | error e => exact .mk hbelow trivial
      | ok e =>
          exact (hbelow.keep (hbelow.own.define (lt_of_binder he) hf hv)).give hv
  | callee arguments line =>
      have hnone : ∀ w ∈ ([] : List Value), w.Made st.store.toHeap := by rintro _ ⟨⟩
      exact hbelow.evalArguments hv hnone hf line
  | argument callee before after line =>
      exact hbelow.evalArguments hf.1 (List.forall_mem_cons.2 ⟨hv, hf.2.1⟩) hf.2.2 line
  | get property => exact hbelow.giveProperty hv property
  | setObject property value =>
      cases v with
      | instanceRef i => exact .mk (hbelow.push hv) hf
      | _ => exact hbelow.fail _ property.line
  | setValue i property =>
      have hstored := hbelow.own.setField hf property.text hv
      exact (hbelow.keep hstored).give (hv.grow hstored.grows)
  | print => exact .mk ⟨h.store, h.env, hfs⟩ trivial
  | var name => exact (hbelow.define hf hv).give trivial
  | ret => exact .mk hbelow hv
  | branch yes no =>
      simp only [State.resume]
      cases v.isTruthy with
      | true => exact .mk hbelow hf.1
      | false =>
          cases no with
          | none => exact hbelow.give trivial
          | some no => exact .mk hbelow (hf.2 no rfl)
  | loopTest condition body =>
      rw [State.resume]
      split
      · exact .mk (hbelow.push hf) hf.2
      · exact hbelow.give trivial
  | loopBody condition body => exact .mk (hbelow.push hf) hf.1
  | superclass name superclass methods =>
      cases v with
      | classRef above =>
          have habove : ∀ cls, some above = some cls → ∃ c, st.store.classes[cls]? = some c := by
            rintro _ ⟨⟩
            exact hv
          exact (hbelow.declareClass hf.1 habove hf.2).give trivial
      | _ => exact hbelow.fail _ superclass.line
  | rest body => exact .mk hbelow hf
  | scope outer => exact h.leave.give hv
  | call caller yield => exact h.leaveCall trivial
  | program rest => exact hbelow.continueProgram hf

/-- The top frame is left because of a `return`. -/
theorem unwindReturn (h : st.Sound base (f :: fs)) {v : Value} (hv : v.Made st.store.toHeap) :
    (st.unwindReturn fs v f).Sound base := by
  obtain ⟨hf, hfs⟩ := List.forall_mem_cons.1 h.frames
  cases f with
  | call caller yield => exact h.leaveCall hv
  | program rest => exact State.Sound.continueProgram ⟨h.store, h.env, hfs⟩ hf
  | _ => exact .mk h.leave hv

end State.Sound

namespace Config.Sound

variable {base : Store} {c : Config}

/-- Each step keeps that nothing dangles. -/
theorem step (h : c.Sound base) (s : Setting) : (c.step s).Sound base := by
  obtain @⟨control, fs, st, hst, hcontrol⟩ := h
  cases control with
  | eval e => exact hst.eval hcontrol
  | exec stmt => exact hst.exec hcontrol
  | execAll body => exact hst.execAll hcontrol
  | give v =>
      cases fs with
      | nil => exact .mk hst hcontrol
      | cons f fs => exact hst.resume hcontrol
  | returning v =>
      cases fs with
      | nil => exact .mk hst hcontrol
      | cons f fs => exact hst.unwindReturn hcontrol
  | failing e =>
      cases fs with
      | nil => exact .mk hst trivial
      | cons f fs => exact .mk hst.leave trivial

theorem run (h : c.Sound base) (s : Setting) (steps : Nat) : (c.run s steps).Sound base := by
  induction steps with
  | zero => exact h
  | succ steps ih =>
      rw [run_succ_eq_step]
      exact ih.step s

/-- A sound configuration is a place to grow from. -/
theorem refl (h : c.Sound base) : c.Sound c.state.store := by
  obtain @⟨control, fs, st, hst, hcontrol⟩ := h
  exact .mk ⟨hst.own, hst.env, hst.frames⟩ hcontrol

theorem grows (h : c.Sound base) : base.Grows c.state.store := by
  obtain @⟨control, fs, st, hst, hcontrol⟩ := h
  exact hst.store.grows

theorem store (h : c.Sound base) : c.state.store.Sound := by
  obtain @⟨control, fs, st, hst, hcontrol⟩ := h
  exact hst.store.sound

end Config.Sound

end Lox
