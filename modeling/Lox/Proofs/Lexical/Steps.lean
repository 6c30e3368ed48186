import Lox.Proofs.Lexical.Frames

set_option autoImplicit false

/-! # Steps of states that fit

What the parts of a step do to states that fit: reading and assigning variables, calls, and
declarations. In each case the two machines come to configurations that fit, or to equal errors.
-/

namespace Lox.Lexical.World.StateFits

variable {t : BindingTable} {own : List Name} {w : World} {scopes : Scopes} {st : Lox.State}
  {st' : State} {fs : List (Frame EnvId)} {fs' : List (Frame View)}

/-! ## Variables -/

/-- A reference has an entry exactly if the view has its name, and then the entry leads to the
variable, unless a variable is assigned to in its own initializer. -/
theorem variable_cases {r : Reference} (h : w.StateFits t own scopes st st')
    (hr : r.Bound t own scopes) (hown : ¬ (r.role = .assign ∧ r.name ∈ own)) :
    (t.hops? r.name = none ∧ st'.view.cell? r.name.text = none) ∨
      ∃ hops a c, t.hops? r.name = some hops ∧ st.store.ancestor? st.env hops = some a ∧
        w.cell a r.name.text = some c ∧ st'.view.cell? r.name.text = some c := by
  have hpending : scopes.isPending r.name.text = false := by
    rw [Bool.eq_false_iff]
    exact fun heq => hown (hr.pending.1 heq)
  -- The table says of the name what the scopes say of it, and the scopes lead to its cell.
  cases hhops : scopes.hops? r.name.text with
  | none =>
      exact .inl ⟨hr.hops.trans hhops, h.place.sees.cell?_eq_none hpending hhops⟩
  | some hops =>
      obtain ⟨a, c, ha, hc, hview⟩ := h.place.sees.exists_cell hpending hhops
      refine .inr ⟨hops, a, c, hr.hops.trans hhops, ?_, hc, hview⟩
      rw [h.store.vars.ancestor?_eq]
      exact ha

/-- A name is read with the same result. -/
theorem read_eq {role : Reference.Role} {name : Name} (h : w.StateFits t own scopes st st')
    (hr : Reference.Bound t own scopes ⟨role, name⟩) (hrole : role ≠ .assign)
    (clock : Nat → Float) : st'.read name = st.read ⟨t, clock⟩ name := by
  rw [State.read, Lox.State.read]
  rcases h.variable_cases hr fun heq => hrole heq.1 with
    ⟨hhops, hview⟩ | ⟨hops, a, c, hhops, ha, hc, hview⟩
  · have hglobal : st.store.get? globalEnv name.text = st'.store.globals.get? name.text := by
      rw [Lox.Store.get?_of_enclosing?_eq_none _ _ _ h.store.vars.root, h.store.vars.globals]
    simp only [hhops, hview, Lox.Store.get]
    cases hvalue : st'.store.globals.get? name.text with
    | none => simp only [hglobal, hvalue]
    | some v => simp only [hglobal, hvalue]
  · simp only [hhops, hview]
    rw [Lox.Store.getAt?, ha]
    simp only [h.store.vars.lookupIn?_eq hc]

/-- A variable is assigned to, or is not there, in both. -/
theorem assign_cases {name : Name} (h : w.StateFits t own scopes st st')
    (hr : Reference.Bound t own scopes ⟨.assign, name⟩) (hown : name ∉ own) (v : Value)
    (clock : Nat → Float) :
    (∃ e, st.binder ⟨t, clock⟩ name = .error e ∧ st'.assign name v = .error e) ∨
      ∃ a st'', st.binder ⟨t, clock⟩ name = .ok a ∧ st'.assign name v = .ok st'' ∧
        w.StateFits t own scopes { st with store := st.store.define a name.text v } st'' := by
  have hv : SelfValue name.text v := .of_ordinary hr.named v
  have hlt : ∀ a, st.env < (st.store.define a name.text v).environments.size := by
    intro a
    rw [Lox.Store.size_define]
    exact h.place.lt
  rw [Lox.State.binder, State.assign]
  rcases h.variable_cases hr fun heq => hown heq.2 with
    ⟨hhops, hview⟩ | ⟨hops, a, c, hhops, ha, hc, hview⟩
  · simp only [hhops, hview]
    rw [Lox.Store.binder?_of_enclosing?_eq_none _ _ _ h.store.vars.root, h.store.vars.globals]
    cases hglobal : st'.store.globals.get? name.text with
    | none => exact .inl ⟨_, rfl, rfl⟩
    | some old =>
        refine .inr ⟨_, _, rfl, rfl, ?_⟩
        rw [State.put, hview]
        exact ⟨⟨h.store.vars.setGlobal name.text v, h.store.heap⟩,
          ⟨h.place.sees, h.place.exact, hlt _⟩, h.calls, h.output, h.ticks⟩
  · simp only [hhops, hview]
    rw [Lox.Store.binderAt?, ha]
    simp only [h.store.vars.lookupIn?_eq hc]
    refine .inr ⟨_, _, rfl, rfl, ?_⟩
    rw [State.put, hview]
    exact ⟨⟨h.store.vars.overwrite hc hv, h.store.heap⟩,
      ⟨h.place.sees, h.place.exact, hlt _⟩, h.calls, h.output, h.ticks⟩

/-- `super` finds the same method for the same instance, or the same error. -/
theorem superMethod_cases {keyword : Name} (h : w.StateFits t own scopes st st')
    (hr : Reference.Bound t own scopes ⟨.super, keyword⟩) (method : Name)
    (clock : Nat → Float) :
    (∃ line, st.superMethod ⟨t, clock⟩ keyword method =
        .error ⟨.undefinedProperty method.text, line⟩ ∧
      st'.superMethod keyword method = .error ⟨.undefinedProperty method.text, line⟩) ∨
      ∃ m m' object, st.superMethod ⟨t, clock⟩ keyword method = .ok (m, object) ∧
        st'.superMethod keyword method = .ok (m', object) ∧ w.MethodFits t own m m' := by
  have htext : keyword.text = "super" := hr.named
  -- One machine finds `this` one link before `super`, the other one by its name.
  obtain ⟨hthis, hops, hhopsThis, hhopsSuper⟩ := hr.aboveThis rfl
  have hsuper : scopes.isPending "super" = false := by
    rw [Bool.eq_false_iff, ← htext]
    exact fun heq => nomatch (hr.pending.1 heq).1
  obtain ⟨a, c, ha, hc, hview⟩ := h.place.sees.exists_cell hsuper hhopsSuper
  obtain ⟨b, d, hb, hd, hview'⟩ := h.place.sees.exists_cell hthis hhopsThis
  obtain ⟨above, habove⟩ := (h.store.vars.self a "super" c hc).super rfl
  obtain ⟨object, hobject⟩ := (h.store.vars.self b "this" d hd).this rfl
  have hread : st.store.getAt? st.env (hops + 1) "super" = some (.classRef above) := by
    rw [Lox.Store.getAt?, h.store.vars.ancestor?_eq, ha, ← habove]
    exact h.store.vars.lookupIn?_eq hc
  have hread' : st.store.getAt? st.env (hops + 1 - 1) "this" = some (.instanceRef object) := by
    rw [Nat.add_sub_cancel, Lox.Store.getAt?, h.store.vars.ancestor?_eq, hb, ← hobject]
    exact h.store.vars.lookupIn?_eq hd
  rw [Lox.State.superMethod, State.superMethod]
  simp only [hr.hops, htext, hhopsSuper, hread, hview, habove, hview', Option.map_some, hobject,
    if_neg (Nat.succ_ne_zero hops), hread']
  rcases h.store.heap.method?_cases above method.text with ⟨hm, hm'⟩ | ⟨m, m', hm, hm', hmethod⟩
  · simp only [hm, hm']
    exact .inl ⟨_, rfl, rfl⟩
  · simp only [hm, hm']
    exact .inr ⟨m, m', object, rfl, rfl, hmethod⟩

/-! ## Results -/

theorem give (h : w.StateFits t own scopes st st') (hfs : w.FramesFit t own scopes st.env fs fs')
    (v : Value) : ConfigFits t own (st.give v fs) (st'.give v fs') :=
  .mk h (.give v hfs)

theorem fail {after : Scopes} (h : w.StateFits t own scopes st st')
    (hfs : w.FramesFit t own after st.env fs fs') (cause : RuntimeError.Cause) (line : Nat) :
    ConfigFits t own (st.fail cause line fs) (st'.fail cause line fs') :=
  .mk h (.failing _ hfs)

theorem giveOrFail (h : w.StateFits t own scopes st st')
    (hfs : w.FramesFit t own scopes st.env fs fs') (line : Nat)
    (result : Except RuntimeError.Cause Value) :
    ConfigFits t own (st.giveOrFail line fs result) (st'.giveOrFail line fs' result) := by
  cases result with
  | ok v => exact h.give hfs v
  | error cause => exact h.fail hfs cause line

/-- A method is given, bound to an instance. -/
theorem giveBound {m : Closure EnvId} {m' : Closure View} (h : w.StateFits t own scopes st st')
    (hfs : w.FramesFit t own scopes st.env fs fs') (hm : w.MethodFits t own m m')
    (object : InstanceId) :
    ConfigFits t own
      ({ st with store := (st.store.bindValue m object).2 }.give (st.store.bindValue m object).1 fs)
      ({ st' with store := (st'.store.bindValue m' object).2 }.give
        (st'.store.bindValue m' object).1 fs') := by
  obtain ⟨hvalue, w', hgrows, hstore⟩ := h.store.bindValue hm object
  have hle : st.store.environments.size ≤
      (st.store.bindValue m object).2.environments.size := by
    show _ ≤ (st.store.bind m object).2.environments.size
    rw [Lox.Store.size_bind]
    exact Nat.le_succ _
  rw [hvalue]
  exact (h.withStore hgrows hstore hle).give
    (hfs.grow (hgrows.of_le (Nat.le_of_lt h.place.lt))) _

/-! ## Calls -/

/-- Parameters are declared one after another. -/
theorem declareAll {ns : List Name} {vs : List Value} (h : w.StateFits t own scopes st st')
    (hns : Name.DeclarableAll scopes ns) (hlength : vs.length = ns.length) :
    ∃ w', w.Grows w' st.env ∧ w'.StateFits t own (scopes.defineAll ns)
      { st with store := st.store.defineAll st.env ((ns.map Name.text).zip vs) }
      (st'.declareAll ((ns.map Name.text).zip vs)) := by
  induction ns generalizing w scopes st st' vs with
  | nil => exact ⟨w, .refl w _, h⟩
  | cons n ns ih =>
      cases vs with
      | nil => cases hlength
      | cons v vs =>
          obtain ⟨w₁, hgrows₁, h₁⟩ := h.declare (Scopes.isReady_eq_false_of_new hns.1.new)
            (.of_ordinary hns.1.ordinary v)
          obtain ⟨w₂, hgrows₂, h₂⟩ := ih h₁ hns.2 (Nat.succ.inj hlength)
          exact ⟨w₂, hgrows₁.trans hgrows₂, h₂⟩

/-- A function is entered with as many arguments as it has parameters. -/
theorem enter {c : Closure EnvId} {c' : Closure View} {yield : Yield EnvId} {yield' : Yield View}
    {arguments : List Value} (h : w.StateFits t own scopes st st')
    (hfs : w.FramesFit t own scopes st.env fs fs') (hc : w.FunctionFits t own c c')
    (hyield : w.YieldFits yield yield') (hlength : arguments.length = c.arity) :
    ConfigFits t own (st.enter c arguments yield fs) (st'.enter c' arguments yield' fs') := by
  obtain ⟨decl, env, isInitializer⟩ := c
  obtain ⟨decl', view, isInitializer'⟩ := c'
  obtain rfl : decl' = decl := hc.decl
  obtain ⟨around, hsees, hsettled, hbound⟩ := hc.place
  obtain ⟨name, parameters, body⟩ := decl'
  obtain ⟨hparameters, hbody⟩ := hbound
  -- The body runs in a new scope of the place that the function is closed over.
  obtain ⟨w₁, hgrows₁, hstore, hplace⟩ := h.store.newScope hsees hsettled
  have hinside : w₁.StateFits t own ([] :: around)
      { st with
        store := (st.store.newEnvironment (some env)).2
        env := st.store.environments.size
        calls := st.calls + 1 }
      { st' with view := view.enter, calls := st'.calls + 1 } :=
    ⟨hstore, hplace, by rw [h.calls], h.output, h.ticks⟩
  obtain ⟨w₂, hgrows₂, h₂⟩ := hinside.declareAll hparameters hlength
  have hgrows := hgrows₁.trans hgrows₂
  refine .mk h₂ (.execAll ?_ hbody (.call (h.place.sees.grow hgrows)
    (h.place.exact.grow hgrows h.place.lt) h.place.lt (hyield.grow hgrows)
    (hfs.grow (hgrows.of_le (Nat.le_of_lt h.place.lt)))))
  exact (Scopes.settled_block around).defineAll parameters

/-- An instance is made with as many arguments as the class takes. -/
theorem instantiate {cls : ClassId} {arguments : List Value} (h : w.StateFits t own scopes st st')
    (hfs : w.FramesFit t own scopes st.env fs fs')
    (hlength : arguments.length = ((st.store.initializer? cls).map Closure.arity).getD 0) :
    ConfigFits t own (st.instantiate cls arguments fs) (st'.instantiate cls arguments fs') := by
  have hinstance := h.store.newInstance cls
  have hobject : (st'.store.newInstance cls).1 = (st.store.newInstance cls).1 :=
    congrArg Array.size h.store.heap.instances
  rw [Lox.Heap.initializer?] at hlength
  rw [Lox.State.instantiate, State.instantiate, Heap.initializer?, Heap.initializer?]
  rcases h.store.heap.method?_cases cls Function.initializerName with
    ⟨hm, hm'⟩ | ⟨m, m', hm, hm', hmethod⟩
  · simp only [hm, hm', hobject]
    exact (h.withStore (.refl w _) hinstance (Nat.le_refl _)).give hfs _
  · simp only [hm, hm', hobject]
    rw [hm] at hlength
    obtain ⟨w', hgrows, hstore, hfunction⟩ := hinstance.bind hmethod (st.store.newInstance cls).1
    have hle : st.store.environments.size ≤
        ((st.store.newInstance cls).2.bind m (st.store.newInstance cls).1).2.environments.size := by
      rw [Lox.Store.size_bind]
      exact Nat.le_succ _
    exact (h.withStore hgrows hstore hle).enter
      (hfs.grow (hgrows.of_le (Nat.le_of_lt h.place.lt))) hfunction (.made _) hlength

/-- A value is called with as many arguments as it takes. -/
theorem invoke {callee : Value} {arguments : List Value} {arity : Nat}
    (h : w.StateFits t own scopes st st') (hfs : w.FramesFit t own scopes st.env fs fs')
    (harity : st.store.arity? callee = some arity) (hlength : arguments.length = arity)
    (line : Nat) (clock : Nat → Float) :
    ConfigFits t own (st.invoke ⟨t, clock⟩ callee arguments line fs)
      (st'.invoke clock callee arguments line fs') := by
  cases callee with
  | nativeRef n =>
      rw [Lox.State.invoke, State.invoke, h.store.heap.natives]
      cases st.store.natives[n]? with
      | none => exact h.fail hfs _ line
      | some native =>
          have hticks : w.StateFits t own scopes { st with ticks := st.ticks + 1 }
              { st' with ticks := st'.ticks + 1 } :=
            ⟨h.store, h.place, h.calls, h.output, by rw [h.ticks]⟩
          simp only [h.ticks] at hticks ⊢
          exact hticks.give hfs _
  | functionRef f =>
      rw [Lox.State.invoke, State.invoke]
      rcases h.store.heap.functions.cases f with ⟨hc, hc'⟩ | ⟨c, c', hc, hc', hfunction⟩
      · rw [hc, hc']
        exact h.fail hfs _ line
      · rw [Heap.arity?, hc, Option.map_some] at harity
        cases harity
        -- An initializer gives the instance that it is bound to.
        have hyield : w.YieldFits (if c.isInitializer then .receiver c.env else .result)
            (if c'.isInitializer then .receiver c'.env else .result) := by
          rw [hfunction.isInitializer]
          cases hinit : c.isInitializer with
          | false => exact .result
          | true =>
              obtain ⟨cell, hcell, hview⟩ := hfunction.this hinit
              exact .receiver hcell hview
        rw [hc, hc']
        exact h.enter hfs hfunction hyield hlength
  | classRef cls =>
      cases harity
      exact h.instantiate hfs hlength
  | _ => exact h.fail hfs _ line

theorem call (h : w.StateFits t own scopes st st') (hfs : w.FramesFit t own scopes st.env fs fs')
    (callee : Value) (arguments : List Value) (line : Nat) (clock : Nat → Float) :
    ConfigFits t own (st.call ⟨t, clock⟩ callee arguments line fs)
      (st'.call clock callee arguments line fs') := by
  rw [Lox.State.call, State.call, h.store.heap.arity?_eq]
  cases harity : st.store.arity? callee with
  | none => exact h.fail hfs _ line
  | some arity =>
      simp only [h.calls]
      by_cases hlength : arguments.length = arity
      · rw [if_neg (not_not_intro hlength), if_neg (not_not_intro hlength)]
        by_cases hcalls : maxCalls ≤ st.calls
        · rw [if_pos hcalls, if_pos hcalls]
          exact h.fail hfs _ line
        · rw [if_neg hcalls, if_neg hcalls]
          exact h.invoke hfs harity hlength line clock
      · rw [if_pos hlength, if_pos hlength]
        exact h.fail hfs _ line

theorem evalArguments {after : List Expr} (h : w.StateFits t own scopes st st')
    (hfs : w.FramesFit t own scopes st.env fs fs') (hafter : Expr.BoundAll t own scopes after)
    (callee : Value) (before : List Value) (line : Nat) (clock : Nat → Float) :
    ConfigFits t own (st.evalArguments ⟨t, clock⟩ callee before after line fs)
      (st'.evalArguments clock callee before after line fs') := by
  cases after with
  | nil => exact h.call hfs callee before.reverse line clock
  | cons e es =>
      obtain ⟨he, hes⟩ := List.forall_mem_cons.1 hafter
      exact .mk h (.eval he (.plain (.argument callee before line hes) hfs))

/-- A call gives the same value, whatever was returned. -/
theorem yielded_eq {yield : Yield EnvId} {yield' : Yield View} (h : w.StateFits t own scopes st st')
    (hyield : w.YieldFits yield yield') (returned : Value) :
    st'.yielded yield' returned = st.yielded yield returned := by
  cases hyield with
  | receiver hcell hview =>
      have hread := h.store.vars.lookupIn?_eq hcell
      rw [State.yielded, Lox.State.yielded, hview, Lox.Store.getAt?, Lox.Store.ancestor?]
      simp only [hread, Option.map_some]
  | _ => rfl

/-- A property of a value is read with the same result. -/
theorem giveProperty (h : w.StateFits t own scopes st st')
    (hfs : w.FramesFit t own scopes st.env fs fs') (object : Value) (property : Name) :
    ConfigFits t own (st.giveProperty object property fs)
      (st'.giveProperty object property fs') := by
  cases object with
  | instanceRef i =>
      rw [Lox.State.giveProperty, State.giveProperty]
      rcases h.store.heap.property_cases i property with
        ⟨e, hp, hp'⟩ | ⟨p, p', hp, hp', hproperty⟩
      · rw [hp, hp']
        exact .mk h (.failing e hfs)
      · rw [hp, hp']
        cases hproperty with
        | field v => exact h.give hfs v
        | method hm => exact h.giveBound hfs hm i
  | _ => exact h.fail hfs _ property.line

/-! ## Declarations -/

/-- What is declared gets its value again, as a function or a class does once it is made. -/
theorem putDeclared {n : Name} (h : w.StateFits t own (scopes.define n.text) st st')
    (hn : n.Ordinary) (v : Value) :
    w.StateFits t own (scopes.define n.text) (st.define n.text v) (st'.put n.text v) :=
  h.put (scopes.isEmpty_or_isReady_define n.text) (.of_ordinary hn v)

/-- A function is declared. In the machine with environments its name gets one value, here two:
of these the later one counts. -/
theorem declareFunction {f : Function} (h : w.StateFits t own scopes st st')
    (hsettled : scopes.Settled) (hname : f.name.Declarable scopes)
    (hf : f.Bound t own (scopes.define f.name.text)) :
    ∃ w', w.Grows w' st.env ∧ w'.StateFits t own (scopes.define f.name.text)
      ({ st with store := (st.store.newFunction ⟨f, st.env, false⟩).2 }.define f.name.text
        (.functionRef (st.store.newFunction ⟨f, st.env, false⟩).1))
      (st'.declareFunction f) := by
  obtain ⟨w', hgrows, h'⟩ := h.declare (Scopes.isReady_eq_false_of_new hname.new)
    (.of_ordinary hname.ordinary .nil)
  have hfunction : w'.FunctionFits t own ⟨f, st.env, false⟩
      ⟨f, (st'.declare f.name.text .nil).view, false⟩ :=
    ⟨rfl, rfl, ⟨_, h'.place.sees, hsettled.define _, hf⟩, fun hinit => nomatch hinit⟩
  have hstore := h'.withStore (.refl w' _) (h'.store.newFunction hfunction) (Nat.le_refl _)
  have hid : ((st'.declare f.name.text .nil).store.newFunction
      ⟨f, (st'.declare f.name.text .nil).view, false⟩).1 = (st.store.newFunction
        ⟨f, st.env, false⟩).1 := h'.store.heap.functions.size_eq.symm
  refine ⟨w', hgrows, ?_⟩
  rw [State.declareFunction]
  simp only [hid]
  -- One machine declares the name after it makes the function, the other one before and after.
  have hdefine := Lox.Store.define_define (st.store.newFunction ⟨f, st.env, false⟩).2 st.env
    f.name.text .nil (.functionRef (st.store.newFunction ⟨f, st.env, false⟩).1)
  rw [Lox.State.define, ← hdefine]
  exact hstore.putDeclared hname.ordinary _

theorem methods_of_boundAll {fs : List Function} (h : Function.BoundAll t own scopes fs) :
    ∀ f ∈ fs, f.Bound t own scopes := by
  induction fs with
  | nil => exact fun f hf => nomatch hf
  | cons f fs ih => exact List.forall_mem_cons.2 ⟨h.1, ih h.2⟩

/-- The methods of a class are closed over the same place. -/
theorem methodTable_fits {e : EnvId} {view : View} {methods : List Function}
    (hsees : w.Sees scopes e view) (hsettled : scopes.Settled)
    (hmethods : Function.BoundAll t own ([("this", true)] :: scopes) methods) :
    List.Forall₂ (fun m m' => m'.1 = m.1 ∧ w.MethodFits t own m.2 m'.2)
      (Lox.State.methodTable e methods) (Lox.State.methodTable view methods) := by
  rw [Lox.State.methodTable, Lox.State.methodTable, List.forall₂_reverse_iff,
    List.forall₂_map_left_iff, List.forall₂_map_right_iff, List.forall₂_same]
  exact fun f hf => ⟨rfl, rfl, rfl, scopes, hsees, hsettled, methods_of_boundAll hmethods f hf⟩

/-- A class is made, and its name gets it as its value. -/
theorem putClass {n : Name} {cls : ClassObject EnvId} {cls' : ClassObject View}
    (h : w.StateFits t own (scopes.define n.text) st st') (hn : n.Ordinary)
    (hcls : w.ClassFits t own cls cls') :
    w.StateFits t own (scopes.define n.text)
      ({ st with store := (st.store.newClass cls).2 }.define n.text
        (.classRef (st.store.newClass cls).1))
      ({ st' with store := (st'.store.newClass cls').2 }.put n.text
        (.classRef (st'.store.newClass cls').1)) := by
  have hid : (st'.store.newClass cls').1 = (st.store.newClass cls).1 :=
    h.store.heap.classes.size_eq.symm
  rw [hid]
  exact (h.withStore (.refl w _) (h.store.newClass hcls) (Nat.le_refl _)).putDeclared hn _

/-- A class is declared, and `super` around its methods if it has a superclass. -/
theorem declareClass {name : Name} {methods : List Function} (superclass : Option ClassId)
    (h : w.StateFits t own scopes st st') (hsettled : scopes.Settled)
    (hname : name.Declarable scopes)
    (hmethods : Function.BoundAll t own
      ((scopes.define name.text).ofMethods superclass.isSome) methods) :
    ∃ w', w.Grows w' st.env ∧ w'.StateFits t own (scopes.define name.text)
      (st.declareClass name superclass methods) (st'.declareClass name superclass methods) := by
  obtain ⟨w₁, hgrows₁, h₁⟩ := h.declare (Scopes.isReady_eq_false_of_new hname.new)
    (.of_ordinary hname.ordinary .nil)
  have hsettled₁ := hsettled.define name.text
  cases superclass with
  | none =>
      have hclass := methodTable_fits h₁.place.sees hsettled₁ hmethods
      exact ⟨w₁, hgrows₁, h₁.putClass hname.ordinary ⟨rfl, rfl, hclass⟩⟩
  | some above =>
      -- The methods are closed over a scope of their own, which has nothing but `super`.
      obtain ⟨w₂, hgrows₂, h₂, hplace₂⟩ := h₁.store.newScope h₁.place.sees hsettled₁
      have hv : SelfValue "super" (.classRef above) :=
        ⟨fun heq => absurd heq (by decide), fun _ => ⟨above, rfl⟩⟩
      obtain ⟨w₃, hgrows₃, h₃, hplace₃⟩ := h₂.newVariable hplace₂ rfl rfl hv
      have hgrows := hgrows₂.trans hgrows₃
      have hle : (st.define name.text .nil).store.environments.size ≤
          (((st.define name.text .nil).store.newEnvironment
            (some (st.define name.text .nil).env)).2.define
              (st.define name.text .nil).store.environments.size "super"
                (.classRef above)).environments.size := by
        rw [Lox.Store.size_define, Lox.Store.size_newEnvironment]
        exact Nat.le_succ _
      have hclass := methodTable_fits hplace₃.sees ((Scopes.settled_block _).define "super")
        hmethods
      refine ⟨w₃, hgrows₁.trans (hgrows.of_le (Nat.le_of_lt h₁.place.lt)), ?_⟩
      exact (h₁.withStore hgrows h₃ hle).putClass hname.ordinary ⟨rfl, rfl, hclass⟩

end Lox.Lexical.World.StateFits
