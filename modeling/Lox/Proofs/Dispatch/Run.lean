import Lox.Proofs.Dispatch.Step
import Lox.Proofs.Session.Read

set_option autoImplicit false

/-! # `this` and `super` in a run

In every run of an accepted program, `this` is the instance on which the method was accessed that
the code stands in, and the search of `super` starts at what the superclass clause of the class of
that method gave (`Session.dispatches_lexically`).
-/

namespace Lox

namespace Dispatch

variable {t u : BindingTable} {clock : Nat → Float} {d : Dispatch}

/-! ## Runs -/

theorem Follows.after {c : Config} (h : Follows t d c) (steps : Nat) :
    Follows t (Dispatch.after ⟨t, clock⟩ d c steps) (c.run ⟨t, clock⟩ steps) := by
  induction steps with
  | zero => exact h
  | succ steps ih =>
      rw [Config.run_succ_eq_step]
      exact ih.step

theorem Follows.fitsStore {c : Config} (h : Follows t d c) : d.FitsStore t c.state.store := by
  obtain ⟨hfits, -⟩ := h
  exact hfits.store

/-- At the start there are no functions and no classes. -/
theorem fitsStore_start : start.FitsStore ∅ State.start.store where
  functions := .empty
  classes := .empty

/-- What is recorded goes on fitting when the table grows. -/
theorem FitsStore.grow {st : Store} (h : d.FitsStore t st) (hgrows : t.Grows u) :
    d.FitsStore u st where
  functions := by
    refine h.functions.mono fun receiver c hc => ?_
    obtain ⟨place, hplaced, hfits⟩ := hc
    exact ⟨place, hplaced.grow hgrows, hfits⟩
  classes := by
    refine h.classes.mono fun clause c hc m hm => ?_
    exact ⟨(hc m hm).placed.grow hgrows, (hc m hm).super⟩

end Dispatch

/-! ## Sessions -/

namespace Session

variable {session : Session} {d : Dispatch} {source : String} {p : Program} {t : BindingTable}
  (clock : Nat → Float) (steps : Nat)

/-- What is accepted adds to the table. -/
theorem HoldsRead.grows (h : session.HoldsRead) (haccept : session.accept source = .ok (p, t)) :
    session.bindings.Grows t := by
  obtain ⟨hparsed, hbind⟩ := of_accept haccept
  obtain ⟨herrors, rfl⟩ := Program.bind_eq_ok_iff.1 hbind
  intro n hops hhops
  have hlt : n.start < session.offset := by
    by_contra hle
    rw [BindingTable.hops?, h.bindings n.start (Nat.le_of_not_lt hle)] at hhops
    cases hhops
  have hnew := Program.le_of_mem_bindings hparsed herrors
  exact (BindingTable.getElem?_extend_of_lt hnew hlt).trans hhops

theorem HoldsRead.follows (h : session.HoldsRead)
    (hfits : d.FitsStore session.bindings session.state.store)
    (haccept : session.accept source = .ok (p, t)) :
    (session.dispatchProgram clock steps d p t).Follows t
      (session.runProgram clock steps p t) := by
  obtain ⟨hparsed, hbind⟩ := of_accept haccept
  have hstart : d.Fits t none { session.state with output := "" } [] :=
    ⟨hfits.grow (h.grows haccept), .none, .nil ..⟩
  have hplaced := Program.placed_of_bind hparsed h.bindings hbind
  exact (hstart.continueProgram hplaced).after steps

theorem HoldsRead.fitsStore_run (h : session.HoldsRead)
    (hfits : d.FitsStore session.bindings session.state.store) (source : String) :
    (session.dispatch clock steps d source).FitsStore (session.run clock steps source).2.bindings
      (session.run clock steps source).2.state.store := by
  rcases session.run_cases clock steps source with ⟨_, haccept, hrun⟩ | ⟨p, t, haccept, hrun⟩
  · rw [hrun, dispatch, haccept]
    exact hfits
  · rw [hrun, dispatch, haccept]
    exact (h.follows clock steps hfits haccept).fitsStore.turn none []

theorem HoldsRead.fitsStore_afterAll (h : session.HoldsRead)
    (hfits : d.FitsStore session.bindings session.state.store) (lines : List String) :
    (session.dispatchAll clock steps d lines).FitsStore
      (session.afterAll clock steps lines).bindings
      (session.afterAll clock steps lines).state.store := by
  induction lines generalizing session d with
  | nil => exact hfits
  | cons line lines ih =>
      exact ih (h.run clock steps line) (h.fitsStore_run clock steps hfits line)

end Session

/-- In every run of a program that is accepted, whatever the session has run before: `this` gives
the instance on which the method was accessed that `this` stands in. `super` searches from what the
superclass clause of the class of that method gave, and gives what it finds bound to the same
instance; it fails only if it finds nothing. -/
theorem Session.dispatches_lexically (clock : Nat → Float) (steps : Nat) (lines : List String)
    {source : String} {p : Program} {t : BindingTable}
    (haccept : (start.afterAll clock steps lines).accept source = .ok (p, t)) (more : Nat) :
    let session := start.afterAll clock steps lines
    let d := session.dispatchProgram clock more (start.dispatchAll clock steps .start lines) p t
    (∀ keyword frames st,
      session.runProgram clock more p t = ⟨.eval (.this keyword), frames, st⟩ →
        ∃ r, d.current = some r ∧ r.Encloses st.store ⟨.this, keyword⟩ ∧
          (session.runProgram clock more p t).step ⟨t, clock⟩ =
            st.give (.instanceRef r.object) frames) ∧
    ∀ keyword method frames st,
      session.runProgram clock more p t = ⟨.eval (.super keyword method), frames, st⟩ →
        ∃ r above, d.current = some r ∧ r.Encloses st.store ⟨.super, keyword⟩ ∧
          d.clauses[r.holder]? = some (some above) ∧
          (session.runProgram clock more p t).step ⟨t, clock⟩ =
            match st.store.method? above method.text with
            | some m =>
              { st with store := (st.store.bindValue m r.object).2 }.give
                (st.store.bindValue m r.object).1 frames
            | none => ⟨.failing ⟨.undefinedProperty method.text, method.line⟩, frames, st⟩ := by
  intro session d
  have hread : session.HoldsRead := holdsRead_start.afterAll clock steps lines
  have hfollows : d.Follows t (session.runProgram clock more p t) :=
    hread.follows clock more
      (holdsRead_start.fitsStore_afterAll clock steps Dispatch.fitsStore_start lines) haccept
  refine ⟨fun keyword frames st hc => ?_, fun keyword method frames st hc => ?_⟩
  · rw [hc] at hfollows ⊢
    obtain ⟨hfits, hcontrol⟩ := hfollows
    obtain ⟨r, hr, hencloses, hthis⟩ :=
      hfits.read_this clock (hcontrol _ (List.mem_singleton_self _))
    refine ⟨r, hr, hencloses, ?_⟩
    rw [Config.step, State.eval, hthis]
  · rw [hc] at hfollows ⊢
    obtain ⟨hfits, hcontrol⟩ := hfollows
    obtain ⟨r, above, hr, hencloses, habove, hsuper⟩ :=
      hfits.superMethod_eq clock (hcontrol _ (List.mem_singleton_self _)) method
    refine ⟨r, above, hr, hencloses, habove, ?_⟩
    rw [Config.step, State.eval, hsuper]
    cases st.store.method? above method.text <;> rfl

/-- The method that is about to be read through a superclass. -/
def Control.superMethod? : Control → Option Name
  | .eval (.super _ method) => some method
  | _ => none

/-- A method that is inherited, accessed after the variable of the superclass was assigned. -/
theorem Session.dispatches_lexically_assigned :
    ∃ session p t, session = start.afterAll Float.ofNat 100
        ["class A \x7b m() \x7b \x7d \x7d class B < A \x7b m() \x7b super.m(); \x7d \x7d"] ∧
      session.accept "class C < B \x7b \x7d A = C; C().m();" = .ok (p, t) ∧
      ∃ keyword method frames st m, ∃ r : Receiver,
        session.runProgram Float.ofNat 20 p t = ⟨.eval (.super keyword method), frames, st⟩ ∧
          r.object = 0 ∧ r.holder = 1 ∧ r.Encloses st.store ⟨.super, keyword⟩ ∧
          st.store.method? 0 method.text = some m ∧
          (session.runProgram Float.ofNat 20 p t).step ⟨t, Float.ofNat⟩ =
            { st with store := (st.store.bindValue m r.object).2 }.give
              (st.store.bindValue m r.object).1 frames := by
  let lines := ["class A \x7b m() \x7b \x7d \x7d class B < A \x7b m() \x7b super.m(); \x7d \x7d"]
  let session := start.afterAll Float.ofNat 100 lines
  let before := start.dispatchAll Float.ofNat 100 .start lines
  let dispatch : Program × BindingTable → Dispatch := fun pt =>
    session.dispatchProgram Float.ofNat 20 before pt.1 pt.2
  let isSuper : Config → Bool := fun c =>
    (c.control.superMethod?.bind fun method => c.state.store.method? 0 method.text).isSome
  obtain ⟨p, t, haccept, hcheck⟩ := session.exists_of_accept
    "class C < B \x7b \x7d A = C; C().m();"
    (fun pt => isSuper (session.runProgram Float.ofNat 20 pt.1 pt.2) &&
      ((dispatch pt).current.map fun r => (r.object, r.holder)) = some (0, 1) &&
      (dispatch pt).clauses[1]? = some (some 0))
    (by decide +kernel)
  simp only [Bool.and_eq_true, decide_eq_true_eq] at hcheck
  obtain ⟨⟨hisSuper, hcurrent⟩, hclause⟩ := hcheck
  obtain ⟨-, hsuper⟩ := Session.dispatches_lexically Float.ofNat 100 lines haccept 20
  generalize hc : session.runProgram Float.ofNat 20 p t = c at hisSuper
  obtain ⟨control, frames, st⟩ := c
  cases control with
  | eval e =>
      cases e with
      | super keyword method =>
          obtain ⟨r, above, hr, hencloses, habove, hstep⟩ := hsuper keyword method frames st hc
          obtain ⟨r', hr', hids⟩ := Option.map_eq_some_iff.1 hcurrent
          cases hr.symm.trans hr'
          obtain ⟨hobject, hholder⟩ := Prod.mk.inj hids
          rw [hholder] at habove
          cases hclause.symm.trans habove
          obtain ⟨m, hm⟩ : ∃ m, st.store.method? 0 method.text = some m :=
            Option.isSome_iff_exists.1 hisSuper
          rw [hm] at hstep
          exact ⟨_, p, t, rfl, haccept, keyword, method, frames, st, m, r, hc, hobject, hholder,
            hencloses, hm, hstep⟩
      | _ => cases hisSuper
  | _ => cases hisSuper

end Lox
