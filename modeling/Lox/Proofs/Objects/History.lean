import Lox.Proofs.Objects.Reached

set_option autoImplicit false

/-! # What a session has declared and stored

The steps that a session has made tell which classes it has declared, in order
(`Config.declarations`), and what it has stored last in each field (`Config.lastStored?`). The store
holds this and nothing else, so a method is found where the declarations say (`Resolves`).
-/

namespace Lox

/-- A class as it was declared: its name, what its superclass clause gave, and its methods in
order. -/
structure ClassDeclaration where
  name : String
  superclass : Option ClassId
  methods : List Function

/-- The method that was declared last under a name. -/
def ClassDeclaration.method? (d : ClassDeclaration) (name : String) : Option Function :=
  d.methods.reverse.find? fun f => name == f.name.text

/-- What looking a name up in a class comes to: the method of the first class that declares the
name, going from class to superclass, or nothing if none does. -/
inductive Resolves (ds : Array ClassDeclaration) (name : String) : ClassId → Option Function → Prop
  | own {cls : ClassId} {d : ClassDeclaration} {f : Function} (hd : ds[cls]? = some d)
      (hf : d.method? name = some f) : Resolves ds name cls (some f)
  | above {cls above : ClassId} {d : ClassDeclaration} {found : Option Function}
      (hd : ds[cls]? = some d) (hnone : d.method? name = none)
      (habove : d.superclass = some above) (h : Resolves ds name above found) :
      Resolves ds name cls found
  | root {cls : ClassId} {d : ClassDeclaration} (hd : ds[cls]? = some d)
      (hnone : d.method? name = none) (hroot : d.superclass = none) : Resolves ds name cls none

namespace Config

/-- The class that the next step declares. -/
def declared? : Config → Option ClassDeclaration
  | ⟨.exec (.classDecl name none methods), _, _⟩ => some ⟨name.text, none, methods⟩
  | ⟨.give (.classRef above), .superclass name _ methods :: _, _⟩ =>
    some ⟨name.text, some above, methods⟩
  | _ => none

/-- What the next step stores in this field of this instance. -/
def stored? (i : InstanceId) (name : String) : Config → Option Value
  | ⟨.give v, .setValue object property :: _, _⟩ =>
    if i = object ∧ name = property.text then some v else none
  | _ => none

/-- The classes that were declared, by their identities. -/
def declarations : List Config → Array ClassDeclaration
  | [] => #[]
  | c :: past =>
    match c.declared? with
    | some d => (declarations past).push d
    | none => declarations past

/-- What was stored last in this field of this instance. -/
def lastStored? (past : List Config) (i : InstanceId) (name : String) : Option Value :=
  past.findSome? (stored? i name)

theorem lastStored?_cons (c : Config) (past : List Config) (i : InstanceId) (name : String) :
    lastStored? (c :: past) i name = (c.stored? i name).or (lastStored? past i name) := by
  rw [lastStored?, List.findSome?_cons]
  cases c.stored? i name <;> rfl

end Config

/-- The class is as it was declared, its methods closed over one environment. -/
structure ClassDeclaration.Fits (d : ClassDeclaration) (c : ClassObject EnvId) : Prop where
  name : c.name = d.name
  superclass : c.superclass = d.superclass
  methods : ∃ e, c.methods = State.methodTable e d.methods

/-! ## What no other step changes -/

/-- No class is declared, and no field changes. -/
structure Store.SameObjects (st st' : Store) : Prop where
  classes : st'.classes = st.classes
  fields : ∀ (i : InstanceId) (name : String), st'.field? i name = st.field? i name

theorem Store.SameObjects.refl (st : Store) : st.SameObjects st := ⟨rfl, fun _ _ => rfl⟩

theorem Store.SameObjects.of_toHeap {st st' : Store} (h : st'.toHeap = st.toHeap) :
    st.SameObjects st' :=
  ⟨congrArg Heap.classes h, fun i name => by rw [h]⟩

namespace State

variable (st : State) (s : Setting) (fs : List (Frame EnvId))

theorem sameObjects_giveOrFail (line : Nat) (result : Except RuntimeError.Cause Value) :
    st.store.SameObjects (st.giveOrFail line fs result).state.store := by
  cases result <;> exact .refl _

theorem sameObjects_enter (c : Closure EnvId) (arguments : List Value) (yield : Yield EnvId) :
    st.store.SameObjects (st.enter c arguments yield fs).state.store :=
  .of_toHeap (Store.toHeap_defineAll ..)

/-- A new instance has no fields, and its initializer has not run yet. -/
theorem sameObjects_call (callee : Value) (arguments : List Value) (line : Nat) :
    st.store.SameObjects (st.call s callee arguments line fs).state.store := by
  have hmade : ∀ cls, st.store.SameObjects (st.store.newInstance cls).2 := fun cls =>
    ⟨rfl, fun i name => st.store.field?_newInstance i name cls⟩
  have hcalls := st.calls_call s callee arguments line fs
  generalize st.call s callee arguments line fs = c at hcalls ⊢
  cases hcalls with
  | notCallable | wrongArity | noRoom | clock => exact .refl _
  | function => exact sameObjects_enter ..
  | @plain cls => exact hmade cls
  | @initialized cls m =>
      have hentered := sameObjects_enter
        { st with store := ((st.store.newInstance cls).2.bind m st.store.instances.size).2 } fs
        ((st.store.newInstance cls).2.bind m st.store.instances.size).1 arguments
        (.made st.store.instances.size)
      exact ⟨hentered.classes,
        fun i name => (hentered.fields i name).trans ((hmade cls).fields i name)⟩

theorem sameObjects_evalArguments (callee : Value) (before : List Value) (after : List Expr)
    (line : Nat) :
    st.store.SameObjects (st.evalArguments s callee before after line fs).state.store := by
  cases after with
  | nil => exact sameObjects_call ..
  | cons e es => exact .refl _

theorem sameObjects_eval (e : Expr) : st.store.SameObjects (st.eval s fs e).state.store := by
  cases e with
  | «variable» name | this name =>
      rw [eval]
      split <;> exact .refl _
  | super keyword method =>
      rw [eval]
      split
      · exact ⟨rfl, fun _ _ => rfl⟩
      · exact .refl _
  | _ => exact .refl _

theorem sameObjects_exec {stmt : Stmt}
    (h : (Config.mk (.exec stmt) fs st).declared? = none) :
    st.store.SameObjects (st.exec fs stmt).state.store := by
  cases stmt with
  | var name initial => cases initial <;> exact ⟨rfl, fun _ _ => rfl⟩
  | ret keyword value => cases value <;> exact .refl _
  | classDecl name superclass methods =>
      cases superclass with
      | none => cases h
      | some above => exact .refl _
  | block body | function f => exact ⟨rfl, fun _ _ => rfl⟩
  | _ => exact .refl _

theorem sameObjects_continueProgram (p : Program) :
    st.store.SameObjects (st.continueProgram fs p).state.store := by
  cases p <;> exact .refl _

theorem sameObjects_giveProperty (object : Value) (property : Name) :
    st.store.SameObjects (st.giveProperty object property fs).state.store := by
  cases object with
  | instanceRef i =>
      rw [giveProperty]
      split
      · rename_i found hfound
        cases found <;> exact ⟨rfl, fun _ _ => rfl⟩
      · exact .refl _
  | _ => exact .refl _

theorem sameObjects_leave (f : Frame EnvId) : st.store.SameObjects (f.leave st).store := by
  cases f <;> exact .refl _

theorem sameObjects_resume {v : Value} {f : Frame EnvId}
    (hdeclared : (Config.mk (.give v) (f :: fs) st).declared? = none)
    (hstored : ∀ i name, (Config.mk (.give v) (f :: fs) st).stored? i name = none) :
    st.store.SameObjects (st.resume s fs v f).state.store := by
  cases f with
  | unary op line => exact sameObjects_giveOrFail ..
  | binaryRight op line left => exact sameObjects_giveOrFail ..
  | callee arguments line => exact sameObjects_evalArguments ..
  | argument callee before after line => exact sameObjects_evalArguments ..
  | get property => exact sameObjects_giveProperty ..
  | program rest => exact sameObjects_continueProgram ..
  | assign name =>
      rw [resume]
      split
      · exact ⟨rfl, fun _ _ => rfl⟩
      · exact .refl _
  | logical | loopTest =>
      rw [resume]
      split <;> exact .refl _
  | setObject property value => cases v <;> exact .refl _
  | setValue i property =>
      have hnone := hstored i property.text
      rw [Config.stored?, if_pos ⟨rfl, rfl⟩] at hnone
      cases hnone
  | var name => exact ⟨rfl, fun _ _ => rfl⟩
  | branch yes no =>
      simp only [resume]
      cases v.isTruthy <;> cases no <;> exact .refl _
  | superclass name superclass methods =>
      cases v with
      | classRef above => cases hdeclared
      | _ => exact .refl _
  | scope outer => exact sameObjects_leave ..
  | call caller yield => exact sameObjects_leave ..
  | _ => exact .refl _

theorem sameObjects_unwindReturn (v : Value) (f : Frame EnvId) :
    st.store.SameObjects (st.unwindReturn fs v f).state.store := by
  cases f with
  | program rest => exact sameObjects_continueProgram ..
  | _ => exact sameObjects_leave ..

/-- A declaration adds its class, and changes no other object. -/
theorem declareClass_objects (name : Name) (superclass : Option ClassId)
    (methods : List Function) :
    ∃ e, (st.declareClass name superclass methods).store.classes =
        st.store.classes.push ⟨name.text, superclass, methodTable e methods⟩ ∧
      (st.declareClass name superclass methods).store.instances = st.store.instances := by
  cases superclass with
  | none => exact ⟨_, rfl, rfl⟩
  | some above => exact ⟨_, rfl, rfl⟩

end State

namespace Config

variable {c : Config}

/-- A step that neither declares a class nor stores a field changes no object. -/
theorem sameObjects_step (s : Setting) (hdeclared : c.declared? = none)
    (hstored : ∀ i name, c.stored? i name = none) :
    c.state.store.SameObjects (c.step s).state.store := by
  obtain ⟨control, fs, st⟩ := c
  cases control with
  | eval e => exact st.sameObjects_eval s fs e
  | exec stmt => exact st.sameObjects_exec fs hdeclared
  | execAll body => cases body <;> exact .refl _
  | give v =>
      cases fs with
      | nil => exact .refl _
      | cons f fs => exact st.sameObjects_resume s fs hdeclared hstored
  | returning v =>
      cases fs with
      | nil => exact .refl _
      | cons f fs => exact st.sameObjects_unwindReturn fs v f
  | failing e =>
      cases fs with
      | nil => exact .refl _
      | cons f fs => exact st.sameObjects_leave f

/-- The step that declares a class adds it as it is declared. -/
theorem step_of_declared {d : ClassDeclaration} (s : Setting) (h : c.declared? = some d) :
    (∃ o, (c.step s).state.store.classes = c.state.store.classes.push o ∧ d.Fits o) ∧
      (c.step s).state.store.instances = c.state.store.instances := by
  unfold declared? at h
  split at h
  · rename_i name methods fs st
    cases h
    obtain ⟨e, hclasses, hinstances⟩ := st.declareClass_objects name none methods
    exact ⟨⟨_, hclasses, rfl, rfl, e, rfl⟩, hinstances⟩
  · rename_i above name superclass methods fs st
    cases h
    obtain ⟨e, hclasses, hinstances⟩ := st.declareClass_objects name (some above) methods
    exact ⟨⟨_, hclasses, rfl, rfl, e, rfl⟩, hinstances⟩
  · cases h

/-- What a step that stores a field looks like. -/
theorem eq_of_stored {i : InstanceId} {name : String} {v : Value}
    (h : c.stored? i name = some v) :
    ∃ object property fs, c = ⟨.give v, .setValue object property :: fs, c.state⟩ ∧
      i = object ∧ name = property.text := by
  unfold stored? at h
  split at h
  · split at h
    · rename_i hfield
      cases h
      exact ⟨_, _, _, rfl, hfield⟩
    · cases h
  · cases h

/-- What a step does to a field. -/
theorem Sound.field?_step {base : Store} (h : c.Sound base) (s : Setting) (i : InstanceId)
    (name : String) :
    (c.step s).state.store.field? i name =
      (c.stored? i name).or (c.state.store.field? i name) := by
  by_cases hstored : ∃ j own v, c.stored? j own = some v
  · -- A step that stores anything stores this one field of an instance that is there.
    obtain ⟨j, own, v, hv⟩ := hstored
    obtain ⟨object, property, fs, hc, -⟩ := eq_of_stored hv
    rw [hc] at h ⊢
    obtain ⟨hst, -⟩ := h
    obtain ⟨_, hobject⟩ := hst.frames _ List.mem_cons_self
    refine (Store.field?_setField c.state.store i object name property.text v
      (Heap.lt_size_of_classOf? _ object hobject)).trans ?_
    rw [stored?]
    split <;> rfl
  · have hnone : ∀ j own, c.stored? j own = none := by
      intro j own
      rw [Option.eq_none_iff_forall_ne_some]
      exact fun v hv => hstored ⟨j, own, v, hv⟩
    rw [hnone, Option.none_or]
    cases hdeclared : c.declared? with
    | none => exact (sameObjects_step s hdeclared hnone).fields i name
    | some d =>
        obtain ⟨-, hinstances⟩ := step_of_declared s hdeclared
        rw [Heap.field?, Heap.field?, hinstances]

/-- What a step does to the classes. -/
theorem aligned_step {ds : Array ClassDeclaration}
    (h : Aligned ClassDeclaration.Fits ds c.state.store.classes) (s : Setting) :
    Aligned ClassDeclaration.Fits
      (match c.declared? with
        | some d => ds.push d
        | none => ds)
      (c.step s).state.store.classes := by
  cases hdeclared : c.declared? with
  | some d =>
      obtain ⟨⟨o, hclasses, hfits⟩, -⟩ := step_of_declared s hdeclared
      rw [hclasses]
      exact h.push hfits
  | none =>
      have hclasses : (c.step s).state.store.classes = c.state.store.classes := by
        by_cases hstored : ∃ j own v, c.stored? j own = some v
        · obtain ⟨j, own, v, hv⟩ := hstored
          obtain ⟨object, property, fs, hc, -⟩ := eq_of_stored hv
          rw [hc]
          rfl
        · refine (sameObjects_step s hdeclared fun j own => ?_).classes
          rw [Option.eq_none_iff_forall_ne_some]
          exact fun v hv => hstored ⟨j, own, v, hv⟩
      rw [hclasses]
      exact h

namespace Reached

variable {past : List Config}

/-- The classes of the store are those that were declared, as they were declared. -/
theorem declared (h : Reached past c) :
    Aligned ClassDeclaration.Fits (declarations past) c.state.store.classes := by
  induction h with
  | start => exact .empty
  | step h s ih => exact aligned_step ih s
  | next h hp ih =>
      rw [state_ofProgram]
      exact ih

/-- A field holds what was stored in it last. -/
theorem stored (h : Reached past c) (i : InstanceId) (name : String) :
    c.state.store.field? i name = lastStored? past i name := by
  induction h with
  | start => rfl
  | step h s ih =>
      rw [h.sound.field?_step s i name, ih, lastStored?_cons]
  | next h hp ih =>
      rw [state_ofProgram]
      exact ih

end Reached

end Config

/-! ## Looking methods up -/

theorem State.lookup_methodTable (e : EnvId) (methods : List Function) (name : String) :
    (State.methodTable e methods).lookup name =
      (methods.reverse.find? fun f => name == f.name.text).map fun f => ⟨f, e, f.isNamedInit⟩ := by
  rw [methodTable, ← List.map_reverse]
  induction methods.reverse with
  | nil => rfl
  | cons f fs ih =>
      rw [List.map_cons, List.lookup_cons, List.find?_cons]
      cases name == f.name.text with
      | true => rfl
      | false => exact ih

/-- What looking a name up comes to is one thing. -/
theorem Resolves.unique {ds : Array ClassDeclaration} {name : String} {cls : ClassId}
    {found found' : Option Function} (h : Resolves ds name cls found)
    (h' : Resolves ds name cls found') : found = found' := by
  induction h generalizing found' with
  | own hd hf =>
      cases h' with
      | own hd' hf' =>
          cases hd.symm.trans hd'
          exact hf.symm.trans hf'
      | above hd' hnone' | root hd' hnone' =>
          cases hd.symm.trans hd'
          cases hf.symm.trans hnone'
  | above hd hnone habove h ih =>
      cases h' with
      | own hd' hf' =>
          cases hd.symm.trans hd'
          cases hnone.symm.trans hf'
      | above hd' hnone' habove' h' =>
          cases hd.symm.trans hd'
          cases habove.symm.trans habove'
          exact ih h'
      | root hd' hnone' hroot' =>
          cases hd.symm.trans hd'
          cases habove.symm.trans hroot'
  | root hd hnone hroot =>
      cases h' with
      | own hd' hf' =>
          cases hd.symm.trans hd'
          cases hnone.symm.trans hf'
      | above hd' hnone' habove' =>
          cases hd.symm.trans hd'
          cases hroot.symm.trans habove'
      | root => rfl

/-- The search through classes comes to what their declarations say. -/
theorem Store.Sound.resolves {st : Store} {ds : Array ClassDeclaration} (h : st.Sound)
    (hds : Aligned ClassDeclaration.Fits ds st.classes) (name : String) {cls : ClassId}
    (hcls : ∃ o, st.classes[cls]? = some o) :
    Resolves ds name cls ((st.method? cls name).map Closure.decl) := by
  induction cls using Nat.strongRecOn with
  | ind cls ih =>
      obtain ⟨o, ho⟩ := hcls
      obtain ⟨d, hd, hfits⟩ := hds.exists_left ho
      obtain ⟨e, hmethods⟩ := hfits.methods
      -- The table has the last method first, and so has the search of the declaration.
      have hlookup : o.methods.lookup name =
          (d.method? name).map fun f => ⟨f, e, f.isNamedInit⟩ := by
        rw [hmethods, State.lookup_methodTable]
        rfl
      rw [Heap.method?, ho]
      simp only [hlookup]
      cases hf : d.method? name with
      | some f => exact .own hd hf
      | none =>
          cases habove : o.superclass with
          | none => exact .root hd hf (hfits.superclass.symm.trans habove)
          | some above =>
              have hlt := (h.classes cls o ho).superclass above habove
              obtain ⟨hsize, -⟩ := Array.getElem?_eq_some_iff.1 ho
              have hfound := ih above hlt
                ⟨_, Array.getElem?_eq_getElem (Nat.lt_trans hlt hsize)⟩
              simp only [Option.map_none, if_pos hlt]
              exact .above hd hf (hfits.superclass.symm.trans habove) hfound

/-- In what is reached, the search for a method of a class that is there comes to what the
declarations of the session say, and to nothing else. -/
theorem Config.Reached.resolves_iff {past : List Config} {c : Config} (h : Reached past c)
    (name : String) {cls : ClassId} (hcls : ∃ o, c.state.store.classes[cls]? = some o)
    {found : Option Function} :
    Resolves (declarations past) name cls found ↔
      found = (c.state.store.method? cls name).map Closure.decl := by
  have hresolves := h.sound.store.resolves h.declared name hcls
  constructor
  · exact fun hfound => hfound.unique hresolves
  · rintro rfl
    exact hresolves

end Lox
