import Lox.Proofs.Machine.Calls
import Lox.Proofs.Machine.Ending
import Lox.Proofs.Objects.Property

set_option autoImplicit false

/-! # Making instances

Calling a class makes an instance and gives it, whatever its initializer does: the initializer that
is found for the class runs once, on this instance, and only an error in it is kept
(`Config.Constructs`). Calling the method `init` of an instance gives this instance, since bound to
it the method finds it as `this` (`Store.Initializes`). Both hold in every reachable state
(`Config.Reached.constructs`).
-/

namespace Lox

/-! ## Starting a body -/

namespace State

variable (st : State) (c : Closure EnvId) (arguments : List Value) (yield : Yield EnvId)
  (frames : List (Frame EnvId))

/-- The parameters have the arguments. Of two parameters of one name the last one counts. -/
theorem lookupIn?_enter (name : String) :
    (st.enter c arguments yield frames).state.store.lookupIn?
        (st.enter c arguments yield frames).state.env name =
      ((c.decl.parameters.map Name.text).zip arguments).reverse.lookup name := by
  have hinside := st.store.lt_size_newEnvironment (some c.env)
  refine (Store.lookupIn?_defineAll _ _ st.store.environments.size name _ hinside).trans ?_
  rw [if_pos rfl, Store.lookupIn?_newEnvironment,
    Store.lookupIn?_eq_none st.store _ name (Nat.le_refl _), Option.or_none]

theorem enclosing?_enter :
    (st.enter c arguments yield frames).state.store.enclosing?
      (st.enter c arguments yield frames).state.env = some c.env := by
  refine (Store.enclosing?_defineAll _ _ _ _).trans ?_
  exact (Store.enclosing?_newEnvironment st.store st.store.environments.size _).trans (if_pos rfl)

/-- The variables that there were before are as they were. -/
theorem lookupIn?_enter_of_lt {e : EnvId} (he : e < st.store.environments.size)
    (name : String) :
    (st.enter c arguments yield frames).state.store.lookupIn? e name =
      st.store.lookupIn? e name := by
  have hinside := st.store.lt_size_newEnvironment (some c.env)
  refine (Store.lookupIn?_defineAll _ _ e name _ hinside).trans ?_
  rw [if_neg (Nat.ne_of_lt he), Store.lookupIn?_newEnvironment]

theorem toHeap_enter :
    (st.enter c arguments yield frames).state.store.toHeap = st.store.toHeap :=
  Store.toHeap_defineAll _ _ _

end State

namespace Config

/-! ## Calling a class -/

/-- The body of an initializer starts: its parameters have the arguments, and around them there is
`this` alone, which is the instance. The instance has no fields yet. -/
structure StartsInitializer (c : Config) (f : Function) (object : InstanceId)
    (arguments : List Value) (below : List (Frame EnvId)) : Prop where
  control : c.control = .execAll f.body
  frames : ∃ caller, c.frames = .call caller (.made object) :: below
  fields : ∀ name : String, c.state.store.field? object name = none
  parameters : ∀ name : String, c.state.store.lookupIn? c.state.env name =
    ((f.parameters.map Name.text).zip arguments).reverse.lookup name
  this : ∃ e, c.state.store.enclosing? c.state.env = some e ∧ ∀ name : String,
    c.state.store.lookupIn? e name = if name = "this" then some (.instanceRef object) else none

/-- What a call of a class does, by the initializer that is found for the class. -/
inductive Constructs (s : Setting) (c : Config) (cls : ClassId) (object : InstanceId)
    (arguments : List Value) (line : Nat) : Option Function → Prop
  /-- The call does not have as many arguments as the initializer has parameters. -/
  | wrongArity {found : Option Function} {arity : Nat}
      (harity : arity = (found.map Function.arity).getD 0) (hlength : arguments.length ≠ arity)
      (hstep : c.step s = c.state.fail (.wrongArity arity arguments.length) line c.frames.tail) :
      Constructs s c cls object arguments line found
  /-- There is no room for one more call. -/
  | noRoom {found : Option Function}
      (hlength : arguments.length = (found.map Function.arity).getD 0)
      (hroom : maxCalls ≤ c.state.calls)
      (hstep : c.step s = c.state.fail .stackOverflow line c.frames.tail) :
      Constructs s c cls object arguments line found
  /-- The instance is given at once. -/
  | plain (hlength : arguments = []) (hcontrol : (c.step s).control = .give (.instanceRef object))
      (hframes : (c.step s).frames = c.frames.tail)
      (hmade : (c.step s).state.store.classOf? object = some cls) :
      Constructs s c cls object arguments line none
  /-- The body of the initializer runs, and the call is over when it has ended. -/
  | initialized {f : Function} (hlength : arguments.length = f.arity)
      (hmade : (c.step s).state.store.classOf? object = some cls)
      (hstarts : (c.step s).StartsInitializer f object arguments c.frames.tail)
      (hends : ∀ steps, c.BackAt s c.frames.tail steps ↔
        ∃ n, steps = n + 2 ∧ (c.step s).EndsAt s n)
      (hresult : ∀ n, (c.step s).EndsAt s n → (c.run s (n + 2)).control =
        match ((c.step s).run s n).control with
        | .failing e => .failing e
        | _ => .give (.instanceRef object)) :
      Constructs s c cls object arguments line (some f)

variable {s : Setting} {c : Config}

/-- What the next step ends is over then. -/
theorem backAt_one_iff {f : Frame EnvId} {below : List (Frame EnvId)}
    (hframes : c.frames = f :: below) (hback : (c.step s).IsBack below) {steps : Nat} :
    c.BackAt s below steps ↔ steps = 1 := by
  rw [backAt_step_iff (not_isBack_of_append [f] hframes (by simp))]
  simp only [backAt_of_isBack hback, exists_eq_right]

/-- The initializer is bound to the instance that was made, and its body starts. -/
theorem StartsInitializer.of_enter {m : Closure EnvId} {store : Store} {object : InstanceId}
    {arguments : List Value} {below : List (Frame EnvId)}
    (hfields : ∀ name : String, store.field? object name = none)
    (hstep : c.step s = State.enter { c.state with store := (store.bind m object).2 }
      (store.bind m object).1 arguments (.made object) below) :
    (c.step s).StartsInitializer m.decl object arguments below := by
  rw [hstep]
  refine ⟨rfl, ⟨_, rfl⟩, fun name => ?_, State.lookupIn?_enter _ _ _ _ _,
    store.environments.size, State.enclosing?_enter _ _ _ _ _, fun name => ?_⟩
  · rw [State.toHeap_enter]
    exact hfields name
  · rw [State.lookupIn?_enter_of_lt]
    · exact Store.lookupIn?_bind store m object name
    · exact store.lt_size_bind m object

theorem Constructs.of_starts {cls : ClassId} {object : InstanceId} {arguments : List Value}
    {line : Nat} {f : Function} (hframes : ∃ frame, c.frames = frame :: c.frames.tail)
    (hlength : arguments.length = f.arity)
    (hmade : (c.step s).state.store.classOf? object = some cls)
    (hstarts : (c.step s).StartsInitializer f object arguments c.frames.tail) :
    c.Constructs s cls object arguments line (some f) := by
  obtain ⟨frame, hframes⟩ := hframes
  obtain ⟨caller, hcall⟩ := hstarts.frames
  refine .initialized hlength hmade hstarts (fun steps => ?_) fun n hends => ?_
  · have hwaits : ¬ c.IsBack c.frames.tail := not_isBack_of_append [frame] hframes (by simp)
    rw [backAt_step_iff hwaits]
    simp only [backAt_call_iff hcall]
    constructor
    · rintro ⟨_, rfl, n, rfl, hends⟩
      exact ⟨n, rfl, hends⟩
    · rintro ⟨n, rfl, hends⟩
      exact ⟨n + 1, rfl, n, rfl, hends⟩
  · have hback := hends.1
    rw [hcall] at hback
    rw [run_succ, run_succ_eq_step, step_of_isBack_call hback]
    show afterCall _ _ _ = _
    cases hcontrol : ((c.step s).run s n).control with
    | give | returning | failing => rfl
    | _ => cases hcontrol ▸ hback.2

/-- Calling a class comes to one of these. -/
theorem constructs_of_pendingCall {cls : ClassId} {arguments : List Value} {line : Nat}
    (hcall : c.pendingCall? = some (.classRef cls, arguments, line)) :
    c.Constructs s cls c.state.store.instances.size arguments line
      ((c.state.store.initializer? cls).map Closure.decl) := by
  obtain ⟨hframes, hstep⟩ := call_of_pendingCall s hcall
  -- The arguments are counted against the initializer that will run.
  have hcount : c.state.store.arity? (.classRef cls) =
      some ((((c.state.store.initializer? cls).map Closure.decl).map Function.arity).getD 0) := by
    rw [Option.map_map]
    rfl
  have hcalls := c.state.calls_call s (.classRef cls) arguments line c.frames.tail
  rw [← hstep] at hcalls
  generalize hnext : c.step s = next at hcalls
  cases hcalls with
  | notCallable harity => cases hcount.symm.trans harity
  | wrongArity harity hlength =>
      exact .wrongArity (Option.some.inj (harity.symm.trans hcount)) hlength hnext
  | noRoom harity hroom => exact .noRoom (Option.some.inj (harity.symm.trans hcount)) hroom hnext
  | clock hcallee | function hcallee => cases hcallee
  | plain hcallee hinit hlength =>
      cases hcallee
      rw [hinit]
      refine .plain hlength (by rw [hnext]; rfl) (by rw [hnext]; rfl) ?_
      rw [hnext]
      exact (c.state.store.classOf?_newInstance _ cls).trans (if_pos rfl)
  | @initialized cls' m hcallee hinit hlength =>
      cases hcallee
      rw [hinit]
      have hfields : ∀ name : String, (c.state.store.newInstance cls).2.field?
          c.state.store.instances.size name = none := by
        intro name
        rw [Store.field?_newInstance, Heap.field?_eq_none _ _ name (Nat.le_refl _)]
      refine .of_starts hframes hlength ?_ (.of_enter hfields hnext)
      rw [hnext, State.toHeap_enter]
      exact (c.state.store.classOf?_newInstance _ cls).trans (if_pos rfl)

/-- What a call of a class gives is the instance, of this class. -/
theorem Constructs.back {base : Store} {cls : ClassId} {object : InstanceId}
    {arguments : List Value} {line : Nat} {found : Option Function}
    (h : c.Constructs s cls object arguments line found) (hc : c.Sound base)
    (hframes : ∃ f, c.frames = f :: c.frames.tail) {steps : Nat}
    (hback : c.BackAt s c.frames.tail steps) :
    ((c.run s steps).control = .give (.instanceRef object) ∧
      (c.run s steps).state.store.classOf? object = some cls) ∨
      ∃ e, (c.run s steps).control = .failing e := by
  obtain ⟨f, hframes⟩ := hframes
  have hone : (c.step s).IsBack c.frames.tail → steps = 1 := fun hover =>
    (backAt_one_iff hframes hover).1 hback
  cases h with
  | wrongArity harity hlength hstep =>
      obtain rfl := hone (by rw [hstep]; exact ⟨rfl, rfl⟩)
      exact .inr ⟨_, by rw [run_succ_eq_step, run, hstep]; rfl⟩
  | noRoom hlength hroom hstep =>
      obtain rfl := hone (by rw [hstep]; exact ⟨rfl, rfl⟩)
      exact .inr ⟨_, by rw [run_succ_eq_step, run, hstep]; rfl⟩
  | plain hlength hcontrol hrest hmade =>
      obtain rfl := hone ⟨hrest, by rw [hcontrol]; rfl⟩
      rw [run_succ_eq_step, run]
      exact .inl ⟨hcontrol, hmade⟩
  | initialized hlength hmade hstarts hends hresult =>
      obtain ⟨n, rfl, hn⟩ := (hends steps).1 hback
      -- The instance was there when the body started, and its class does not change.
      have hgrows := ((hc.step s).refl.run s (n + 1)).grows
      rw [hresult n hn]
      cases hcontrol : ((c.step s).run s n).control with
      | failing e => exact .inr ⟨e, rfl⟩
      | _ =>
          refine .inl ⟨rfl, ?_⟩
          rw [run_succ]
          exact hgrows.classOf _ _ hmade

end Config

/-! ## Calling an initializer -/

/-- The call of a method whose object is there: the object, the name, the arguments, the line of the
call, and what waits for the result. -/
def Config.methodCall? (c : Config) :
    Option (InstanceId × Name × List Expr × Nat × List (Frame EnvId)) :=
  match c with
  | ⟨.give (.instanceRef object), .get property :: .callee arguments line :: below, _⟩ =>
    some (object, property, arguments, line, below)
  | _ => none

theorem Config.eq_of_methodCall? {c : Config} {object : InstanceId} {property : Name}
    {arguments : List Expr} {line : Nat} {below : List (Frame EnvId)}
    (h : c.methodCall? = some (object, property, arguments, line, below)) :
    c = ⟨.give (.instanceRef object), .get property :: .callee arguments line :: below,
      c.state⟩ := by
  unfold methodCall? at h
  split at h
  · cases h
    rfl
  · cases h

/-- The function is an initializer that is bound to the instance. -/
def Store.Initializes (st : Store) (g : FunctionId) (object : InstanceId) : Prop :=
  ∃ c, st.functions[g]? = some c ∧ c.isInitializer = true ∧
    st.getAt? c.env 0 "this" = some (.instanceRef object)

/-- A method `init` that is bound to an instance is an initializer of it. -/
theorem Store.initializes_bindValue (st : Store) {m : Closure EnvId}
    (hm : m.IsMethod Function.initializerName) (object : InstanceId) :
    (st.bindValue m object).2.Initializes st.functions.size object :=
  ⟨{ m with env := st.environments.size }, Array.getElem?_push_size, hm.isInitializer_eq_true,
    getAt?_newVariable st m.env "this" (.instanceRef object)⟩

/-- The result of a call is this instance, or an error. -/
def Control.GivesOrFails (object : InstanceId) (control : Control) : Prop :=
  control = .give (.instanceRef object) ∨ ∃ e, control = .failing e

namespace State

variable {base : Store} {st : State} {s : Setting} {g : FunctionId} {object : InstanceId}
  {frames : List (Frame EnvId)}

theorem givesOrFails_afterCall {e : EnvId}
    (hthis : st.store.getAt? e 0 "this" = some (.instanceRef object)) {control : Control}
    (hcontrol : control.isResult = true) :
    (Config.afterCall st (.receiver e) control).GivesOrFails object := by
  have hyielded : ∀ v, st.yielded (.receiver e) v = .instanceRef object := by
    intro v
    rw [yielded, hthis]
    rfl
  cases control with
  | give | returning => exact .inl (congrArg Control.give (hyielded _))
  | failing error => exact .inr ⟨error, rfl⟩
  | _ => cases hcontrol

/-- Calling an initializer that is bound to an instance gives this instance. -/
theorem call_initializes (hg : base.Initializes g object) (hgrows : base.Grows st.store)
    (arguments : List Value) (line : Nat)
    (hsound : (st.call s (.functionRef g) arguments line frames).Sound base) {steps : Nat}
    (hback : (st.call s (.functionRef g) arguments line frames).BackAt s frames steps) :
    ((st.call s (.functionRef g) arguments line frames).run s steps).control.GivesOrFails
      object := by
  obtain ⟨c, hbase, hinit, hthis⟩ := hg
  have hc := hgrows.functions g c hbase
  have hcalls := st.calls_call s (.functionRef g) arguments line frames
  generalize st.call s (.functionRef g) arguments line frames = start at *
  have hfails : ∀ cause, start = st.fail cause line frames →
      (start.run s steps).control.GivesOrFails object := by
    rintro cause rfl
    obtain rfl := (Config.backAt_of_isBack (c := st.fail cause line frames) ⟨rfl, rfl⟩).1 hback
    exact .inr ⟨_, rfl⟩
  cases hcalls with
  | notCallable | wrongArity | noRoom => exact hfails _ rfl
  | clock hcallee | plain hcallee | initialized hcallee => cases hcallee
  | function hcallee hc' =>
      cases hcallee
      cases hc.symm.trans hc'
      rw [if_pos hinit] at hsound hback ⊢
      obtain ⟨n, rfl, hback, -⟩ := (Config.backAt_call_iff rfl).1 hback
      -- Whatever the body has done, `this` is still the instance.
      have hkept := (hsound.run s n).grows.toKeeps.getAt? (.inl rfl) hthis
      rw [Config.run_succ_eq_step, Config.step_of_isBack_call hback]
      exact givesOrFails_afterCall hkept hback.2

/-- So it does after the arguments that are still to be evaluated. -/
theorem evalArguments_initializes (hg : base.Initializes g object) (hgrows : base.Grows st.store)
    (before : List Value) (after : List Expr) (line : Nat)
    (hsound : (st.evalArguments s (.functionRef g) before after line frames).Sound base)
    {steps : Nat}
    (hback : (st.evalArguments s (.functionRef g) before after line frames).BackAt s frames
      steps) :
    ((st.evalArguments s (.functionRef g) before after line frames).run s
      steps).control.GivesOrFails object := by
  -- By induction on the arguments that are left. Each may do anything to the store but to make it
  -- shrink, so the function goes on being what it is.
  induction after generalizing st before steps with
  | nil => exact call_initializes hg hgrows before.reverse line hsound hback
  | cons e after ih =>
      have hstart : st.evalArguments s (.functionRef g) before (e :: after) line frames =
          ⟨.eval e, .argument (.functionRef g) before after line :: frames, st⟩ := rfl
      rw [hstart] at hsound hback ⊢
      obtain ⟨n, more, rfl, hends, hrest⟩ := (Config.backAt_above_iff [] rfl).1 hback
      have hframes := hends.1.1
      have hresult := hends.expression
      have hargument := hsound.run s n
      rw [Config.run_add, Config.run_succ_eq_step]
      generalize Config.run s n _ = d at hframes hresult hargument hrest
      obtain ⟨control, fs, st'⟩ := d
      cases hframes
      rcases hresult with ⟨v, hv⟩ | ⟨error, herror⟩
      · cases hv
        exact ih hargument.grows (v :: before) (hargument.step s) hrest
      · -- The argument fails, and so does the call.
        cases herror
        obtain rfl := (Config.backAt_of_isBack (by exact ⟨rfl, rfl⟩)).1 hrest
        exact .inr ⟨error, rfl⟩

end State

/-! ## Reachable configurations -/

/-- The callee of the call that is made next was made. -/
theorem Config.Sound.made_callee {base : Store} {c : Config} (h : c.Sound base) {callee : Value}
    {arguments : List Value} {line : Nat}
    (hcall : c.pendingCall? = some (callee, arguments, line)) :
    callee.Made c.state.store.toHeap := by
  obtain ⟨control, fs, st⟩ := c
  unfold pendingCall? at hcall
  split at hcall
  · rename_i heq
    cases heq
    cases hcall
    exact h.made (.given (.inl rfl))
  · rename_i heq
    cases heq
    cases hcall
    exact h.made (.waiting _ List.mem_cons_self (.inl rfl))
  · cases hcall

namespace Config.Reached

variable {past : List Config} {c : Config}

/-- Calling the method `init` of an instance that has no such field gives the instance. -/
theorem gives_receiver (h : Reached past c) (s : Setting) {object : InstanceId} {cls : ClassId}
    {property : Name} {arguments : List Expr} {line : Nat} {below : List (Frame EnvId)}
    {f : Function} (hcall : c.methodCall? = some (object, property, arguments, line, below))
    (hname : property.text = Function.initializerName)
    (hclass : c.state.store.classOf? object = some cls)
    (hfield : lastStored? past object property.text = none)
    (hmethod : Resolves (declarations past) property.text cls (some f)) {steps : Nat}
    (hback : c.BackAt s below steps) : (c.run s steps).control.GivesOrFails object := by
  have hfound :=
    (h.resolves_iff property.text (h.sound.store.instances object cls hclass)).1 hmethod
  have hread := h.read_cases s hclass property (.callee arguments line :: below)
  have hsound := h.sound.step s
  have hc := eq_of_methodCall? hcall
  rw [← hc] at hread
  -- The method is bound and given, and then the arguments follow.
  have hwaits : ¬ c.IsBack below :=
    not_isBack_of_append [.get property, .callee arguments line] (by rw [hc]; rfl)
      (List.cons_ne_nil _ _)
  obtain ⟨more, rfl, hmore⟩ := (backAt_step_iff hwaits).1 hback
  rw [run_succ]
  rcases hread with ⟨v, hstored, -⟩ | ⟨-, ⟨m, hm, hstep⟩ | ⟨hnone, -⟩⟩
  · rw [hfield] at hstored
    cases hstored
  · rw [hstep] at hsound hmore ⊢
    obtain ⟨-, hnamed⟩ := h.sound.store.method? hm
    rw [hname] at hnamed
    obtain ⟨last, rfl, hlast⟩ :=
      (backAt_step_iff (not_isBack_of_append [_] rfl (List.cons_ne_nil _ _))).1 hmore
    rw [run_succ]
    exact State.evalArguments_initializes (c.state.store.initializes_bindValue hnamed object)
      (.refl _) [] arguments line (hsound.refl.step s) hlast
  · rw [hnone] at hfound
    cases hfound

/-- Making instances. Calling a class gives, if it gives a value, an instance of the class that is
equal to no value that there was before. The initializer is the method `init` that was declared last
in the nearest class that declares one, going from the class to its superclasses. The call takes as
many arguments as this has parameters, and its body runs once, on the instance and with the
arguments; if there is none then no code runs. Only an error of the body is kept. Calling the method
`init` of an instance that has no such field gives, if it gives a value, the instance itself. -/
theorem constructs (h : Reached past c) (s : Setting) :
    (∀ cls arguments line, c.pendingCall? = some (.classRef cls, arguments, line) →
      ∃ object found,
        (∀ earlier ∈ c :: past, ∀ w, earlier.Holds w →
          (Value.instanceRef object).equals w = false) ∧
        (∀ found', Resolves (declarations past) Function.initializerName cls found' ↔
          found' = found) ∧
        c.Constructs s cls object arguments line found ∧
        ∀ steps, c.BackAt s c.frames.tail steps →
          ((c.run s steps).control = .give (.instanceRef object) ∧
            (c.run s steps).state.store.classOf? object = some cls) ∨
          ∃ e, (c.run s steps).control = .failing e) ∧
    ∀ object property arguments line below,
      c.methodCall? = some (object, property, arguments, line, below) →
      property.text = Function.initializerName → lastStored? past object property.text = none →
      ∀ cls f, c.state.store.classOf? object = some cls →
      Resolves (declarations past) property.text cls (some f) →
      ∀ steps, c.BackAt s below steps →
        (c.run s steps).control = .give (.instanceRef object) ∨
          ∃ e, (c.run s steps).control = .failing e := by
  constructor
  · intro cls arguments line hcall
    have hclass : ∃ o, c.state.store.classes[cls]? = some o := h.sound.made_callee hcall
    have hconstructs := constructs_of_pendingCall (s := s) hcall
    obtain ⟨hframes, -⟩ := call_of_pendingCall s hcall
    have hnew : ¬ (Value.instanceRef c.state.store.instances.size).Made c.state.store.toHeap := by
      rintro ⟨own, hown⟩
      exact Nat.lt_irrefl _ (Heap.lt_size_of_classOf? _ _ hown)
    exact ⟨_, _, fun earlier hearlier w hw => (h.made hearlier hw).equals_eq_false hnew,
      fun found' => h.resolves_iff _ hclass, hconstructs,
      fun steps hback => hconstructs.back h.sound hframes hback⟩
  · intro object property arguments line below hcall hname hfield cls f hclass hmethod steps hback
    exact h.gives_receiver s hcall hname hclass hfield hmethod hback

end Config.Reached

/-! ## An initializer that is inherited -/

namespace Config

variable {c : Config}

/-- What waits above some frames ends after so many steps, and gives a value. -/
def endsWell (s : Setting) (c : Config) (above steps : Nat) : Bool :=
  decide (c.BackAt s (c.frames.drop above) steps) &&
    (outcome? ⟨(c.run s steps).control, [], c.state⟩).any Except.isOk

theorem backAt_of_endsWell {s : Setting} {above steps : Nat}
    (h : endsWell s c above steps = true) :
    c.BackAt s (c.frames.drop above) steps ∧ ¬ ∃ e, (c.run s steps).control = .failing e := by
  simp only [endsWell, Bool.and_eq_true, decide_eq_true_eq] at h
  obtain ⟨hback, hok⟩ := h
  refine ⟨hback, fun hfails => ?_⟩
  obtain ⟨e, he⟩ := hfails
  rw [he] at hok
  cases hok

/-- The next call is one of this class. -/
def callsClass (cls : ClassId) (c : Config) : Bool :=
  c.pendingCall?.any fun call => Value.equals (.classRef cls) call.1

theorem pendingCall_of_callsClass {cls : ClassId} (h : callsClass cls c = true) :
    ∃ arguments line, c.pendingCall? = some (.classRef cls, arguments, line) := by
  obtain ⟨⟨callee, arguments, line⟩, hcall, hcallee⟩ := (Option.any_eq_true _ _).1 h
  cases callee with
  | classRef cls' =>
      obtain rfl : cls = cls' := beq_iff_eq.1 hcallee
      exact ⟨arguments, line, hcall⟩
  | _ => cases hcallee

/-- The next call is that of the initializer of this instance, which has no such field. -/
def callsInit (object : InstanceId) (cls : ClassId) (c : Config) : Bool :=
  (c.methodCall?.any fun call => decide (call.1 = object ∧
    call.2.1.text = Function.initializerName)) &&
    (c.state.store.classOf? object == some cls &&
      ((c.state.store.field? object Function.initializerName).isNone &&
        (c.state.store.initializer? cls).isSome))

theorem methodCall_of_callsInit {object : InstanceId} {cls : ClassId}
    (h : callsInit object cls c = true) :
    (∃ property arguments line below,
      c.methodCall? = some (object, property, arguments, line, below) ∧
        property.text = Function.initializerName) ∧
    c.state.store.classOf? object = some cls ∧
    c.state.store.field? object Function.initializerName = none ∧
    ∃ m, c.state.store.initializer? cls = some m := by
  simp only [callsInit, Bool.and_eq_true, beq_iff_eq, Option.isNone_iff_eq_none,
    Option.isSome_iff_exists] at h
  obtain ⟨hnext, hclass, hnone, hmethod⟩ := h
  obtain ⟨⟨_, property, arguments, line, below⟩, hcall, hinit⟩ := (Option.any_eq_true _ _).1 hnext
  obtain ⟨rfl, hname⟩ := of_decide_eq_true hinit
  exact ⟨⟨property, arguments, line, below, hcall, hname⟩, hclass, hnone, hmethod⟩

/-- An initializer that returns early, and a class that inherits it. -/
def inheritedInit : String :=
  "class A \x7b init(x) \x7b return; \x7d \x7d class B < A \x7b \x7d B(nil).init(nil);"

/-- An initializer that is inherited and returns early: making an instance gives the instance, and
calling the initializer again gives it too. -/
theorem Reached.constructs_inherited :
    ∃ p t, Session.start.accept inheritedInit = .ok (p, t) ∧
      (∃ past c arguments line object, c = Session.start.runProgram Float.ofNat 13 p t ∧
        Reached past c ∧ c.pendingCall? = some (.classRef 1, arguments, line) ∧
        c.BackAt ⟨t, Float.ofNat⟩ c.frames.tail 5 ∧
        (c.run ⟨t, Float.ofNat⟩ 5).control = .give (.instanceRef object) ∧
        (c.run ⟨t, Float.ofNat⟩ 5).state.store.classOf? object = some 1) ∧
      ∃ past c property arguments line below, c = Session.start.runProgram Float.ofNat 18 p t ∧
        Reached past c ∧ c.methodCall? = some (0, property, arguments, line, below) ∧
        property.text = Function.initializerName ∧ c.BackAt ⟨t, Float.ofNat⟩ below 8 ∧
        (c.run ⟨t, Float.ofNat⟩ 8).control = .give (.instanceRef 0) := by
  obtain ⟨p, t, haccept, hcheck⟩ := Session.exists_of_accept .start inheritedInit
    (fun pt =>
      let s : Setting := ⟨pt.2, Float.ofNat⟩
      let made := Session.start.runProgram Float.ofNat 13 pt.1 pt.2
      let read := made.run s 5
      (callsClass 1 made && endsWell s made 1 5) && (callsInit 0 1 read && endsWell s read 2 8))
    (by decide +kernel)
  simp only [Bool.and_eq_true] at hcheck
  obtain ⟨⟨hcalls, hmade⟩, hreads, hread⟩ := hcheck
  have hstart : (Session.start.afterAll Float.ofNat 0 []).accept _ = .ok (p, t) := haccept
  refine ⟨p, t, haccept, ?_, ?_⟩
  · obtain ⟨past, hreached⟩ := Session.exists_reached Float.ofNat 0 hstart 13
    replace hreached : Reached past (Session.start.runProgram Float.ofNat 13 p t) := hreached
    generalize Session.start.runProgram Float.ofNat 13 p t = c at *
    obtain ⟨hback, hwell⟩ := backAt_of_endsWell hmade
    rw [List.drop_one] at hback
    obtain ⟨arguments, line, hcall⟩ := pendingCall_of_callsClass hcalls
    obtain ⟨hconstructs, -⟩ := hreached.constructs ⟨t, Float.ofNat⟩
    obtain ⟨object, found, -, -, -, hresult⟩ := hconstructs 1 arguments line hcall
    obtain ⟨hgive, hclass⟩ := (hresult 5 hback).resolve_right hwell
    exact ⟨past, c, arguments, line, object, rfl, hreached, hcall, hback, hgive, hclass⟩
  · obtain ⟨past, hreached⟩ := Session.exists_reached Float.ofNat 0 hstart 18
    replace hreached : Reached past (Session.start.runProgram Float.ofNat 18 p t) := hreached
    have hsplit : (Session.start.runProgram Float.ofNat 13 p t).run ⟨t, Float.ofNat⟩ 5 =
        Session.start.runProgram Float.ofNat 18 p t := (Config.run_add _ _ 13 5).symm
    rw [hsplit] at hreads hread
    generalize Session.start.runProgram Float.ofNat 18 p t = c at *
    obtain ⟨hback, hwell⟩ := backAt_of_endsWell hread
    obtain ⟨⟨property, arguments, line, below, hcall, hname⟩, hclass, hnone, m, hm⟩ :=
      methodCall_of_callsInit hreads
    rw [congrArg Config.frames (eq_of_methodCall? hcall)] at hback
    have hresolves : Resolves (declarations past) property.text 1 (some m.decl) := by
      refine (hreached.resolves_iff _ (hreached.sound.store.instances 0 1 hclass)).2 ?_
      rw [hname, ← Heap.initializer?, hm]
      rfl
    have hstored : lastStored? past 0 property.text = none := by
      rw [← hreached.stored, hname]
      exact hnone
    obtain ⟨-, hgives⟩ := hreached.constructs ⟨t, Float.ofNat⟩
    have hgive := (hgives 0 property arguments line below hcall hname hstored 1 m.decl hclass
      hresolves 8 hback).resolve_right hwell
    exact ⟨past, c, property, arguments, line, below, rfl, hreached, hcall, hname, hback, hgive⟩

end Config

end Lox
