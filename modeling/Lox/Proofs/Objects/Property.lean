import Lox.Proofs.Binding.Bound
import Lox.Proofs.Objects.History

set_option autoImplicit false

/-! # Reading properties

In every reachable state, a property of an instance is what was stored in it last, and otherwise the
method declared last in the nearest class of its chain, bound anew; classes stay as they were
declared (`Config.Reached.reads_property`).
-/

namespace Lox

/-! ## Bound methods -/

/-- A function was made that was not there before: the method, closed over an environment that was
not there before either. This lies inside the environment of the method, and has only `this`, which
is the instance. -/
structure Store.BindsFresh (st : Store) (m : Closure EnvId) (object : InstanceId)
    (f : FunctionId) (st' : Store) : Prop where
  fresh : st.functions[f]? = none
  closure : ∃ e, st.environments[e]? = none ∧ st'.functions[f]? = some { m with env := e } ∧
    st'.enclosing? e = some m.env ∧
    ∀ name : String,
      st'.lookupIn? e name = if name = "this" then some (.instanceRef object) else none
  grows : st.Grows st'
  same : st.SameObjects st'

namespace Store

variable (st : Store) (m : Closure EnvId) (object : InstanceId)

theorem lookupIn?_bind (name : String) :
    (st.bind m object).2.lookupIn? st.environments.size name =
      if name = "this" then some (.instanceRef object) else none :=
  lookupIn?_newVariable st m.env "this" name (.instanceRef object)

theorem enclosing?_bind :
    (st.bind m object).2.enclosing? st.environments.size = some m.env :=
  enclosing?_newVariable st m.env "this" (.instanceRef object)

theorem grows_bind : st.Grows (st.bind m object).2 :=
  .of_keeps (.bind st m object) rfl (Nat.le_of_lt (st.lt_size_bind m object))

theorem bindsFresh_bindValue :
    st.BindsFresh m object st.functions.size (st.bindValue m object).2 where
  fresh := Array.getElem?_eq_none (Nat.le_refl _)
  closure := ⟨st.environments.size, Array.getElem?_eq_none (Nat.le_refl _),
    Array.getElem?_push_size, enclosing?_bind st m object, lookupIn?_bind st m object⟩
  grows := (grows_bind st m object).trans (.newFunction _ _)
  same := ⟨rfl, fun _ _ => rfl⟩

end Store

/-! ## Properties -/

/-- A method is found as before in a class that was there before. -/
theorem Store.Grows.method?_eq {st st' : Store} (h : st.Grows st') (name : String) {cls : ClassId}
    (hcls : ∃ o, st.classes[cls]? = some o) : st'.method? cls name = st.method? cls name := by
  -- A superclass is older than the class, so it was there before too.
  induction cls using Nat.strongRecOn with
  | ind cls ih =>
      obtain ⟨o, ho⟩ := hcls
      rw [Heap.method?, Heap.method?, ho, h.classes cls o ho]
      simp only
      cases o.methods.lookup name with
      | some m => rfl
      | none =>
          cases o.superclass with
          | none => rfl
          | some above =>
              by_cases hlt : above < cls
              · obtain ⟨hsize, -⟩ := Array.getElem?_eq_some_iff.1 ho
                have habove := ih above hlt
                  ⟨_, Array.getElem?_eq_getElem (Nat.lt_trans hlt hsize)⟩
                simp only [if_pos hlt, habove]
              · simp only [if_neg hlt]

namespace Config.Reached

variable {past : List Config} {c : Config}

/-- Reading a property of an instance that is there. -/
theorem read_cases (h : Reached past c) (s : Setting) {i : InstanceId} {cls : ClassId}
    (hcls : c.state.store.classOf? i = some cls) (property : Name) (frames : List (Frame EnvId)) :
    (∃ v, lastStored? past i property.text = some v ∧
      Config.step s ⟨.give (.instanceRef i), .get property :: frames, c.state⟩ =
        c.state.give v frames) ∨
    lastStored? past i property.text = none ∧
      ((∃ m, c.state.store.method? cls property.text = some m ∧
        Config.step s ⟨.give (.instanceRef i), .get property :: frames, c.state⟩ =
          { c.state with store := (c.state.store.bindValue m i).2 }.give
            (.functionRef c.state.store.functions.size) frames) ∨
      c.state.store.method? cls property.text = none ∧
        Config.step s ⟨.give (.instanceRef i), .get property :: frames, c.state⟩ =
          ⟨.failing ⟨.undefinedProperty property.text, property.line⟩, frames, c.state⟩) := by
  have hstored := h.stored i property.text
  simp only [Config.step, State.resume, State.giveProperty, Heap.property, Heap.property?]
  rw [← hstored]
  cases c.state.store.field? i property.text with
  | some v => exact .inl ⟨v, rfl, rfl⟩
  | none =>
      rw [hcls]
      cases hm : c.state.store.method? cls property.text with
      | some m => exact .inr ⟨rfl, .inl ⟨m, rfl, by simp [hm]; rfl⟩⟩
      | none => exact .inr ⟨rfl, .inr ⟨rfl, by simp [hm]⟩⟩

/-- Properties and classes, in every reachable state. Reading a name on an instance gives what was
stored under it last in this very instance. If nothing was, it gives the method that was declared
last under the name in the nearest class that declares the name, going from the class of the
instance to its superclasses, bound to the instance in a function that was not there before. If
there is none, it fails. The classes are those that were declared, as they were declared, and none
changes later, nor do the class of an instance and what is found in a class. Storing a property
changes one field of one instance. -/
theorem reads_property (h : Reached past c) (s : Setting) :
    (∀ i cls, c.state.store.classOf? i = some cls → ∀ property frames, ∃ found,
      (∀ found', Resolves (declarations past) property.text cls found' ↔ found' = found) ∧
      match lastStored? past i property.text, found with
      | some v, _ =>
        Config.step s ⟨.give (.instanceRef i), .get property :: frames, c.state⟩ =
          c.state.give v frames
      | none, some f => ∃ m g store, c.state.store.method? cls property.text = some m ∧
          m.decl = f ∧ c.state.store.BindsFresh m i g store ∧
          (∀ earlier ∈ c :: past, ∀ w, earlier.Holds w →
            (Value.functionRef g).equals w = false) ∧
          Config.step s ⟨.give (.instanceRef i), .get property :: frames, c.state⟩ =
            { c.state with store }.give (.functionRef g) frames
      | none, none => ∃ e, e.line = property.line ∧
          e.cause.message = "Undefined property '" ++ property.text ++ "'." ∧
          Config.step s ⟨.give (.instanceRef i), .get property :: frames, c.state⟩ =
            ⟨.failing e, frames, c.state⟩) ∧
    (Aligned ClassDeclaration.Fits (declarations past) c.state.store.classes ∧
      ∀ earlier ∈ past,
        (∀ (cls : ClassId) (o : ClassObject EnvId),
          earlier.state.store.classes[cls]? = some o →
            c.state.store.classes[cls]? = some o ∧
              ∀ name, c.state.store.method? cls name = earlier.state.store.method? cls name) ∧
        ∀ i cls, earlier.state.store.classOf? i = some cls →
          c.state.store.classOf? i = some cls) ∧
    ∀ i cls, c.state.store.classOf? i = some cls → ∀ property v frames, ∃ store,
      Config.step s ⟨.give v, .setValue i property :: frames, c.state⟩ =
        { c.state with store }.give v frames ∧
      c.state.store.OverwritesField i property.text v store := by
  refine ⟨fun i cls hcls property frames => ?_, ⟨h.declared, fun earlier hearlier => ?_⟩,
    fun i cls hcls property v frames => ?_⟩
  · have hclass := h.sound.store.instances i cls hcls
    refine ⟨_, fun found' => h.resolves_iff property.text hclass, ?_⟩
    rcases h.read_cases s hcls property frames with
      ⟨v, hstored, hread⟩ | ⟨hstored, ⟨m, hm, hread⟩ | ⟨hm, hread⟩⟩
    · rw [hstored]
      exact hread
    · rw [hstored, hm]
      have hfresh := c.state.store.bindsFresh_bindValue m i
      have hnew :
          ¬ (Value.functionRef c.state.store.functions.size).Made c.state.store.toHeap := by
        rintro ⟨closure, hclosure⟩
        cases hfresh.fresh.symm.trans hclosure
      exact ⟨m, _, _, rfl, rfl, hfresh,
        fun earlier hearlier w hw => (h.made hearlier hw).equals_eq_false hnew, hread⟩
    · rw [hstored, hm]
      exact ⟨_, rfl, rfl, hread⟩
  · have hgrows := h.grows hearlier
    exact ⟨fun cls o ho => ⟨hgrows.classes cls o ho, fun name => hgrows.method?_eq name ⟨o, ho⟩⟩,
      hgrows.classOf⟩
  · exact ⟨_, rfl, Store.overwritesField_setField _ i property.text v
      (Heap.lt_size_of_classOf? _ i hcls)⟩

/-- A class that is declared anew: the instance of its subclass keeps the method of the first one,
and what was stored in it. -/
theorem reads_property_redeclared :
    ∃ p t past c, Session.start.accept ("class A \x7b m() \x7b \x7d \x7d class B < A \x7b \x7d " ++
        "var b = B(); b.x = true; class A \x7b \x7d") = .ok (p, t) ∧
      c = Session.start.runProgram Float.ofNat 21 p t ∧ Reached past c ∧
      (declarations past).size = 3 ∧ c.state.store.classOf? 0 = some 1 ∧
      lastStored? past 0 "x" = some (.bool true) ∧
      Config.step ⟨t, Float.ofNat⟩ ⟨.give (.instanceRef 0), [.get ⟨"x", 1, 0⟩], c.state⟩ =
        c.state.give (.bool true) [] ∧
      ∃ m g store, Resolves (declarations past) "m" 1 (some m.decl) ∧
        c.state.store.BindsFresh m 0 g store ∧
        Config.step ⟨t, Float.ofNat⟩ ⟨.give (.instanceRef 0), [.get ⟨"m", 1, 0⟩], c.state⟩ =
          { c.state with store }.give (.functionRef g) [] := by
  obtain ⟨p, t, haccept, hcheck⟩ := Session.exists_of_accept .start
    ("class A \x7b m() \x7b \x7d \x7d class B < A \x7b \x7d " ++
      "var b = B(); b.x = true; class A \x7b \x7d")
    (fun pt =>
      let st := (Session.start.runProgram Float.ofNat 21 pt.1 pt.2).state.store
      (st.classes.size == 3 && st.classOf? 0 == some 1) &&
        (((st.field? 0 "x").any (Value.equals (.bool true)) && (st.field? 0 "m").isNone) &&
          (st.method? 1 "m").isSome))
    (by decide +kernel)
  simp only [Bool.and_eq_true, beq_iff_eq] at hcheck
  obtain ⟨⟨hsize, hclass⟩, ⟨hx, hnone⟩, hmethod⟩ := hcheck
  have hstart : (Session.start.afterAll Float.ofNat 0 []).accept _ = .ok (p, t) := haccept
  obtain ⟨past, hreached⟩ := Session.exists_reached Float.ofNat 0 hstart 21
  replace hreached : Reached past (Session.start.runProgram Float.ofNat 21 p t) := hreached
  generalize hc : Session.start.runProgram Float.ofNat 21 p t = c at *
  obtain ⟨hreads, -⟩ := hreached.reads_property ⟨t, Float.ofNat⟩
  have hstored : lastStored? past 0 "x" = some (.bool true) := by
    obtain ⟨v, hv, htrue⟩ := (Option.any_eq_true _ _).1 hx
    rw [← hreached.stored, hv]
    cases v with
    | bool b =>
        obtain rfl : true = b := beq_iff_eq.1 htrue
        rfl
    | _ => cases htrue
  obtain ⟨_, -, hread⟩ := hreads 0 1 hclass ⟨"x", 1, 0⟩ []
  rw [hstored] at hread
  refine ⟨p, t, past, c, haccept, hc.symm, hreached, ?_, hclass, hstored, hread, ?_⟩
  · exact hreached.declared.size_eq.trans hsize
  · obtain ⟨found, hresolves, hread⟩ := hreads 0 1 hclass ⟨"m", 1, 0⟩ []
    have hunstored : lastStored? past 0 "m" = none := by
      rw [← hreached.stored]
      exact Option.isNone_iff_eq_none.1 hnone
    rw [hunstored] at hread
    obtain ⟨m', hm'⟩ := Option.isSome_iff_exists.1 hmethod
    have hfound : Resolves (declarations past) "m" 1 (some m'.decl) :=
      (hreached.resolves_iff "m" (hreached.sound.store.instances 0 1 hclass)).2 (by rw [hm']; rfl)
    cases (hresolves _).1 hfound
    obtain ⟨m, g, store, -, hm, hfresh, -, hstep⟩ := hread
    rw [← hm] at hfound
    exact ⟨m, g, store, hfound, hfresh, hstep⟩

end Config.Reached

end Lox
