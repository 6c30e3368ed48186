import Lox.Proofs.Lexical.Refinement

set_option autoImplicit false

/-! # Local references find their variables

A reference with an entry finds its variable in the environment that the entry leads to, whenever
it is evaluated in a run (`Config.Finds`). Assignments to a variable in its own initializer are the
one exception: they have an entry, but the variable is not there yet.
-/

namespace Lox

/-- The variable that is reported as undefined. -/
def RuntimeError.Cause.variable? : RuntimeError.Cause → Option String
  | undefined name => some name
  | unbound name => some name
  | _ => none

namespace Config

/-- The variable of a name can be read and assigned to a number of links out. -/
def Finds (c : Config) (hops : Nat) (name : Name) : Prop :=
  (∃ v, c.state.store.getAt? c.state.env hops name.text = some v) ∧
    ∀ v, ∃ st, c.state.store.assignAt? c.state.env hops name.text v = some st

/-- The variable that an error on its way out reports as undefined. -/
def undefined? (c : Config) : Option String :=
  match c.control with
  | .failing e => e.cause.variable?
  | _ => none

theorem finds_of_lookup {c : Config} {hops : Nat} {name : Name} {a : EnvId} {v : Value}
    (ha : c.state.store.ancestor? c.state.env hops = some a)
    (hv : c.state.store.lookupIn? a name.text = some v) : c.Finds hops name := by
  refine ⟨⟨v, ?_⟩, fun value => ⟨c.state.store.define a name.text value, ?_⟩⟩
  · rw [Store.getAt?, ha]
    exact hv
  · rw [Store.assignAt?, Store.binderAt?, ha]
    simp only [hv, Option.isSome_some, if_true]

end Config

namespace State

variable {s : Setting} {st : State} {fs : List (Frame EnvId)}

/-! ## Other errors

No step but the evaluation of a reference reports an undefined variable. -/

theorem undefined?_giveOrFail {line : Nat} {result : Except RuntimeError.Cause Value}
    (h : ∀ cause, result = .error cause → cause.variable? = none) :
    (st.giveOrFail line fs result).undefined? = none := by
  cases result with
  | ok v => rfl
  | error cause => exact h cause rfl

theorem variable?_unary (op : UnaryOp) (v : Value) :
    ∀ cause, op.apply v = .error cause → cause.variable? = none := by
  intro cause h
  cases op <;> cases v <;> cases h <;> rfl

theorem variable?_ofNumbers (f : Float → Float → Value) (left right : Value) :
    ∀ cause, Value.ofNumbers f left right = .error cause → cause.variable? = none := by
  intro cause h
  unfold Value.ofNumbers at h
  split at h <;> cases h
  rfl

theorem variable?_add (left right : Value) :
    ∀ cause, left.add right = .error cause → cause.variable? = none := by
  intro cause h
  unfold Value.add at h
  split at h <;> cases h
  rfl

theorem variable?_binary (op : BinaryOp) (left right : Value) :
    ∀ cause, op.apply left right = .error cause → cause.variable? = none := by
  cases op with
  | add => exact variable?_add left right
  | equal | notEqual => exact fun cause h => nomatch h
  | _ => exact variable?_ofNumbers _ left right

theorem undefined?_call (callee : Value) (arguments : List Value) (line : Nat) :
    (st.call s callee arguments line fs).undefined? = none := by
  unfold call
  split
  · rfl
  · split
    · rfl
    · split
      · rfl
      · unfold invoke
        split
        · split <;> rfl
        · split <;> rfl
        · unfold instantiate
          dsimp only
          split <;> rfl
        · rfl

theorem undefined?_evalArguments (callee : Value) (before : List Value) (after : List Expr)
    (line : Nat) : (st.evalArguments s callee before after line fs).undefined? = none := by
  cases after with
  | nil => exact undefined?_call _ _ _
  | cons e es => rfl

theorem undefined?_giveProperty (object : Value) (property : Name) :
    (st.giveProperty object property fs).undefined? = none := by
  unfold giveProperty
  split
  · split
    · rfl
    · rename_i e he
      unfold Heap.property at he
      split at he <;> cases he
      rfl
  · rfl

theorem undefined?_continueProgram (p : Program) :
    (st.continueProgram fs p).undefined? = none := by
  cases p <;> rfl

theorem undefined?_exec (stmt : Stmt) : (st.exec fs stmt).undefined? = none := by
  unfold exec
  split <;> rfl

/-- A frame that takes its value reports no undefined variable, unless it assigns to it. -/
theorem undefined?_resume (v : Value) {f : Frame EnvId} (h : ∀ name, f ≠ .assign name) :
    (st.resume s fs v f).undefined? = none := by
  cases f with
  | assign name => exact absurd rfl (h name)
  | unary op line => exact undefined?_giveOrFail (variable?_unary op v)
  | binaryRight op line left => exact undefined?_giveOrFail (variable?_binary op left v)
  | callee arguments line => exact undefined?_evalArguments _ _ _ _
  | argument callee before after line => exact undefined?_evalArguments _ _ _ _
  | get property => exact undefined?_giveProperty v property
  | program rest => exact undefined?_continueProgram rest
  | logical | setObject | branch | loopTest | superclass =>
      simp only [resume]
      split <;> first | rfl | (split <;> rfl)
  | _ => rfl

theorem undefined?_unwindReturn (v : Value) (f : Frame EnvId) :
    (st.unwindReturn fs v f).undefined? = none := by
  cases f with
  | program rest => exact undefined?_continueProgram rest
  | _ => rfl

end State

namespace Lexical.World

variable {t : BindingTable} {own : List Name} {w : World} {scopes : Scopes} {st : Lox.State}
  {st' : State} {clock : Nat → Float}

/-! ## References -/

/-- What a configuration is about to evaluate is bound. -/
theorem ConfigFits.reference {c : Lox.Config} {c' : Config} {r : Reference}
    (h : ConfigFits t own c c') (hr : c.reference? = some r) :
    ∃ (w : World) (scopes : Scopes),
      w.StateFits t own scopes c.state c'.state ∧ r.Bound t own scopes := by
  obtain ⟨hstate, hcontrol⟩ := h
  refine ⟨_, _, hstate, ?_⟩
  cases hcontrol with
  | @eval expr he hfs =>
      cases expr with
      | «variable» | this | super =>
          cases hr
          exact bound_reference he rfl
      | _ => cases hr
  | give v hfs =>
      cases hfs with
      | plain hf =>
          cases hf with
          | assign hname =>
              cases hr
              exact hname
          | _ => cases hr
      | _ => cases hr
  | _ => cases hr

/-- What is pending in the innermost scope is not yet in the current environment. -/
theorem StateFits.of_own {r : Reference} (h : w.StateFits t own scopes st st')
    (hr : r.Bound t own scopes) (hown : r.role = .assign ∧ r.name ∈ own) :
    t.hops? r.name = some 0 ∧ st.store.lookupIn? st.env r.name.text = none := by
  -- The name is pending, so it is declared no links out but not ready there.
  have hpending := hr.pending.2 hown
  refine ⟨hr.hops.trans (Scopes.hops?_of_isPending hpending), ?_⟩
  cases scopes with
  | nil => cases hpending
  | cons s outer =>
      rw [h.store.vars.locals _ _ (h.store.ne_global h.place rfl), Option.map_eq_none_iff]
      cases hcell : w.cell st.env r.name.text with
      | none => rfl
      | some c =>
          have hready : s.isReady r.name.text = true := h.place.exact _ _ hcell
          have hs : s.isPending r.name.text = true := hpending
          rw [Scope.isReady, beq_iff_eq] at hready
          rw [Scope.isPending, hready] at hs
          cases hs

/-- A bound reference with an entry finds its variable, unless a variable is assigned to in its own
initializer. -/
theorem StateFits.finds_iff {c : Lox.Config} {r : Reference} {hops : Nat}
    (h : w.StateFits t own scopes c.state st') (hr : r.Bound t own scopes)
    (hhops : t.hops? r.name = some hops) :
    c.Finds hops r.name ↔ ¬ (r.role = .assign ∧ r.name ∈ own) := by
  constructor
  · rintro ⟨⟨v, hv⟩, -⟩ hown
    obtain ⟨hzero, hnone⟩ := h.of_own hr hown
    rw [hhops] at hzero
    cases hzero
    have hread : c.state.store.lookupIn? c.state.env r.name.text = some v := hv
    rw [hnone] at hread
    cases hread
  · intro hown
    rcases h.variable_cases hr hown with ⟨hnone, -⟩ | ⟨n, a, cell, hn, ha, hc, -⟩
    · rw [hhops] at hnone
      cases hnone
    · rw [hhops] at hn
      cases hn
      exact Config.finds_of_lookup ha (h.store.vars.lookupIn?_eq hc)

/-! ## Undefined variables -/

/-- A name that cannot be read has no entry. -/
theorem StateFits.read_error {role : Reference.Role} {name : Name} {e : RuntimeError}
    (h : w.StateFits t own scopes st st') (hr : Reference.Bound t own scopes ⟨role, name⟩)
    (hrole : role ≠ .assign) (he : st.read ⟨t, clock⟩ name = .error e) :
    t.hops? name = none ∧ e = ⟨.undefined name.text, name.line⟩ := by
  rw [Lox.State.read] at he
  rcases h.variable_cases hr fun heq => hrole heq.1 with
    ⟨hhops, -⟩ | ⟨hops, a, c, hhops, ha, hc, -⟩
  · refine ⟨hhops, ?_⟩
    simp only [hhops, Lox.Store.get] at he
    split at he <;> cases he
    rfl
  · simp only [hhops, Lox.Store.getAt?, ha, h.store.vars.lookupIn?_eq hc] at he
    cases he

/-- A name that cannot be assigned to has no entry, or is assigned to in its own initializer. -/
theorem StateFits.binder_error {name : Name} {e : RuntimeError}
    (h : w.StateFits t own scopes st st') (hr : Reference.Bound t own scopes ⟨.assign, name⟩)
    (he : st.binder ⟨t, clock⟩ name = .error e) :
    (t.hops? name = none ∨ name ∈ own) ∧ e.cause.variable? = some name.text ∧
      e.line = name.line := by
  have herror : e.cause.variable? = some name.text ∧ e.line = name.line := by
    rw [Lox.State.binder] at he
    split at he
    · split at he <;> cases he
      exact ⟨rfl, rfl⟩
    · split at he <;> cases he
      exact ⟨rfl, rfl⟩
  refine ⟨?_, herror⟩
  by_cases hown : name ∈ own
  · exact .inr hown
  · rcases h.assign_cases hr hown .nil clock with ⟨_, _, hassign⟩ | ⟨a, _, hbinder, _⟩
    · left
      rcases h.variable_cases hr fun heq => hown heq.2 with
        ⟨hhops, -⟩ | ⟨hops, a, c, hhops, ha, hc, -⟩
      · exact hhops
      · rw [Lox.State.binder] at he
        simp only [hhops, Lox.Store.binderAt?, ha, h.store.vars.lookupIn?_eq hc] at he
        cases he
    · rw [hbinder] at he
      cases he

/-- What an error that reports an undefined variable says of the reference that was evaluated. -/
structure Blames (t : BindingTable) (own : List Name) (e : RuntimeError) (name : String)
    (r : Reference) : Prop where
  text : r.name.text = name
  line : r.name.line = e.line
  cause : t.hops? r.name = none ∨ r.role = .assign ∧ r.name ∈ own

/-- An expression that starts reports no undefined variable but its own. -/
theorem StateFits.blames_of_eval {expr : Expr} {fs : List (Frame EnvId)} {e : RuntimeError}
    {name : String} (h : w.StateFits t own scopes st st') (hexpr : expr.Bound t own scopes)
    (he : (st.eval ⟨t, clock⟩ fs expr).control = .failing e)
    (hname : e.cause.variable? = some name) :
    ∃ r, Lox.Config.reference? ⟨.eval expr, fs, st⟩ = some r ∧ Blames t own e name r := by
  cases expr with
  | «variable» n | this n =>
      rw [Lox.State.eval] at he
      cases hread : st.read ⟨t, clock⟩ n with
      | ok v =>
          rw [hread] at he
          cases he
      | error e' =>
          rw [hread] at he
          cases he
          obtain ⟨hhops, rfl⟩ := h.read_error (bound_reference hexpr rfl) (by decide) hread
          cases hname
          exact ⟨_, rfl, rfl, rfl, .inl hhops⟩
  | super keyword method =>
      -- A bound `super` is there, and only its method may be missing.
      rw [Lox.State.eval] at he
      rcases h.superMethod_cases (bound_reference hexpr rfl) method clock
        with ⟨line, hm, -⟩ | ⟨m, -, object, hm, -⟩
      · rw [hm] at he
        cases he
        cases hname
      · rw [hm] at he
        cases he
  | _ => cases he

/-- A frame that takes its value reports no undefined variable but the one that it assigns to. -/
theorem StateFits.blames_of_resume {f : Frame EnvId} {fs : List (Frame EnvId)}
    {fs' : List (Frame View)} {v : Value} {e : RuntimeError} {name : String}
    (h : w.StateFits t own scopes st st') (hfs : w.FramesFit t own scopes st.env (f :: fs) fs')
    (he : (st.resume ⟨t, clock⟩ fs v f).control = .failing e)
    (hname : e.cause.variable? = some name) :
    ∃ r, Lox.Config.reference? ⟨.give v, f :: fs, st⟩ = some r ∧ Blames t own e name r := by
  by_cases hf : ∃ n, f = .assign n
  · obtain ⟨n, rfl⟩ := hf
    cases hfs with
    | plain hf =>
        cases hf with
        | assign hr =>
            rw [Lox.State.resume] at he
            cases hbinder : st.binder ⟨t, clock⟩ n with
            | ok a =>
                rw [hbinder] at he
                cases he
            | error e' =>
                rw [hbinder] at he
                cases he
                obtain ⟨hhops, hvariable, hline⟩ := h.binder_error hr hbinder
                rw [hvariable] at hname
                exact ⟨⟨.assign, n⟩, rfl, Option.some.inj hname, hline.symm,
                  hhops.imp_right fun hown => ⟨rfl, hown⟩⟩
  · have hundefined : (st.resume ⟨t, clock⟩ fs v f).undefined? = none :=
      Lox.State.undefined?_resume v (not_exists.1 hf)
    rw [Lox.Config.undefined?, he] at hundefined
    exact absurd (hname.symm.trans hundefined) (by simp)

/-- A step reports an undefined variable only for a reference that has no entry, or for an
assignment to a variable in its own initializer. -/
theorem ConfigFits.blames_of_step {c : Lox.Config} {c' : Config} {e : RuntimeError}
    {name : String} (h : ConfigFits t own c c') (hc : ∀ e, c.control ≠ .failing e)
    (he : (c.step ⟨t, clock⟩).control = .failing e) (hname : e.cause.variable? = some name) :
    ∃ r, c.reference? = some r ∧ Blames t own e name r := by
  have hundefined : (c.step ⟨t, clock⟩).undefined? = some name := by
    rw [Lox.Config.undefined?, he]
    exact hname
  obtain ⟨hstate, hcontrol⟩ := h
  rename_i w scopes control fs fs' st st'
  cases hcontrol with
  | eval hexpr hfs => exact hstate.blames_of_eval hexpr he hname
  | exec =>
      rw [Lox.Config.step, State.undefined?_exec] at hundefined
      cases hundefined
  | @execAll body => cases body <;> cases he
  | give v hfs =>
      cases fs with
      | nil => cases he
      | cons f fs => exact hstate.blames_of_resume hfs he hname
  | returning v hfs =>
      cases fs with
      | nil => cases he
      | cons f fs =>
          rw [Lox.Config.step, State.undefined?_unwindReturn] at hundefined
          cases hundefined
  | failing e' => exact absurd rfl (hc e')

/-- A run is at a point of the reference run, or an error is on its way out. -/
def Sound (t : BindingTable) (own : List Name) (c : Lox.Config) : Prop :=
  (∃ c', ConfigFits t own c c') ∨ ∃ e, c.control = .failing e

/-- An error stays what it is. -/
theorem step_of_failing {c : Lox.Config} {e : RuntimeError} (h : c.control = .failing e) :
    (c.step ⟨t, clock⟩).control = .failing e := by
  obtain ⟨control, fs, st⟩ := c
  cases h
  cases fs <;> rfl

/-- A variable that is assigned to in its own initializer is not there yet. -/
theorem StateFits.binder_of_own {name : Name} (h : w.StateFits t own scopes st st')
    (hr : Reference.Bound t own scopes ⟨.assign, name⟩) (hown : name ∈ own) :
    st.binder ⟨t, clock⟩ name = .error ⟨.unbound name.text, name.line⟩ := by
  obtain ⟨hhops, hnone⟩ := h.of_own hr ⟨rfl, hown⟩
  rw [Lox.State.binder]
  simp only [hhops, Lox.Store.binderAt?, Lox.Store.ancestor?, hnone, Option.isSome_none]
  rfl

theorem ConfigFits.step_of_own {c : Lox.Config} {c' : Config} {r : Reference}
    (h : ConfigFits t own c c') (hr : c.reference? = some r)
    (hown : r.role = .assign ∧ r.name ∈ own) :
    (c.step ⟨t, clock⟩).control = .failing ⟨.unbound r.name.text, r.name.line⟩ := by
  obtain ⟨w, scopes, hstate, hbound⟩ := h.reference hr
  obtain ⟨control, fs, st⟩ := c
  unfold Lox.Config.reference? at hr
  split at hr <;> cases hr
  case h_4 v name fs st' heq =>
      cases heq
      simp only [Lox.Config.step, Lox.State.resume, hstate.binder_of_own hbound hown.2]
  all_goals cases hown.1

theorem Sound.step {c : Lox.Config} (h : Sound t own c) : Sound t own (c.step ⟨t, clock⟩) := by
  rcases h with ⟨c', h⟩ | ⟨e, he⟩
  · by_cases hown : ∃ r, c.reference? = some r ∧ r.role = .assign ∧ r.name ∈ own
    · -- Here the reference run would assign to a variable further out.
      obtain ⟨r, hr, hassign⟩ := hown
      exact .inr ⟨_, h.step_of_own hr hassign⟩
    · exact .inl ⟨_, h.step fun r hr hrole hmem => hown ⟨r, hr, hrole, hmem⟩⟩
  · exact .inr ⟨e, step_of_failing he⟩

theorem Sound.run {c : Lox.Config} (h : Sound t own c) (clock : Nat → Float) (steps : Nat) :
    Sound t own (c.run ⟨t, clock⟩ steps) := by
  induction steps with
  | zero => exact h
  | succ steps ih =>
      rw [Lox.Config.run_succ_eq_step]
      exact ih.step

/-- What is about to be evaluated is not an error. -/
theorem not_failing_of_reference {c : Lox.Config} {r : Reference} (h : c.reference? = some r)
    (e : RuntimeError) : c.control ≠ .failing e := by
  rintro he
  obtain ⟨control, fs, st⟩ := c
  cases he
  cases h

/-- An undefined variable that is reported goes back to a reference that has no entry, or to an
assignment to a variable in its own initializer. -/
theorem ConfigFits.exists_reference {c : Lox.Config} {c' : Config} (h : ConfigFits t own c c')
    (hc : ∀ e, c.control ≠ .failing e) {steps : Nat} {e : RuntimeError} {name : String}
    (he : (c.run ⟨t, clock⟩ steps).control = .failing e) (hname : e.cause.variable? = some name) :
    ∃ before < steps, ∃ r, (c.run ⟨t, clock⟩ before).reference? = some r ∧
      Blames t own e name r := by
  induction steps generalizing e with
  | zero => exact absurd he (hc e)
  | succ steps ih =>
      rw [Lox.Config.run_succ_eq_step] at he
      have hstart : Sound t own c := .inl ⟨c', h⟩
      have hsound := hstart.run clock steps
      -- The last step either passes on an error or is the one that reports it.
      by_cases hfailing : ∃ e', (c.run ⟨t, clock⟩ steps).control = .failing e'
      · obtain ⟨e', he'⟩ := hfailing
        rw [step_of_failing he'] at he
        cases he
        obtain ⟨before, hlt, hr⟩ := ih he' hname
        exact ⟨before, Nat.lt_succ_of_lt hlt, hr⟩
      · obtain ⟨c'', hfits⟩ := hsound.resolve_right hfailing
        exact ⟨steps, Nat.lt_succ_self steps,
          hfits.blames_of_step (not_exists.1 hfailing) he hname⟩

end Lexical.World

/-! ## Accepted programs -/

/-- In a run of an accepted program, a reference with an entry finds its variable whenever it is
evaluated, unless it assigns to a variable in its own initializer. So an undefined variable that is
reported goes back to a reference without an entry, or to such an assignment. -/
theorem Program.finds_iff_not_own {source : String} {p : Program} {t : BindingTable}
    (haccept : Session.start.accept source = .ok (p, t)) (clock : Nat → Float) (steps : Nat) :
    (∀ r hops, (Session.start.runProgram clock steps p t).reference? = some r →
      t.hops? r.name = some hops →
        ((Session.start.runProgram clock steps p t).Finds hops r.name ↔
          ¬ (r.role = .assign ∧ r.name ∈ p.ownAssignments))) ∧
    ∀ e name, (Session.start.runProgram clock steps p t).control = .failing e →
      e.cause.variable? = some name →
        ∃ before < steps, ∃ r, (Session.start.runProgram clock before p t).reference? = some r ∧
          r.name.text = name ∧ r.name.line = e.line ∧
            (t.hops? r.name = none ∨ r.role = .assign ∧ r.name ∈ p.ownAssignments) := by
  have hfits := Lexical.World.ofProgram_fits (Program.bound_of_accept haccept)
  have hstart : ∀ e, (Config.ofProgram p .start).control ≠ .failing e := by
    intro e
    cases p <;> exact fun he => nomatch he
  refine ⟨fun r hops hr hhops => ?_, fun e name he hname => ?_⟩
  · -- A run with an error on its way out evaluates nothing any more.
    have hsound := Lexical.World.Sound.run (.inl ⟨_, hfits⟩) clock steps
    rcases hsound with ⟨c', hfits'⟩ | ⟨e, he⟩
    · obtain ⟨w, scopes, hstate, hbound⟩ := hfits'.reference hr
      exact hstate.finds_iff hbound hhops
    · exact absurd he (Lexical.World.not_failing_of_reference hr e)
  · obtain ⟨before, hlt, r, hr, hblames⟩ := hfits.exists_reference hstart he hname
    exact ⟨before, hlt, r, hr, hblames.text, hblames.line, hblames.cause⟩

/-- In `{ var x = nil; print x; }` the variable is found where it is printed. -/
theorem Program.finds_printed :
    ∃ p t r, Session.start.accept "\x7b var x = nil; print x; \x7d" = .ok (p, t) ∧
      (Session.start.runProgram Float.ofNat 8 p t).reference? = some r ∧
        t.hops? r.name = some 0 ∧ (Session.start.runProgram Float.ofNat 8 p t).Finds 0 r.name := by
  obtain ⟨p, t, haccept, hcheck⟩ := Session.exists_of_accept .start
    "\x7b var x = nil; print x; \x7d"
    (fun accepted =>
      let c := Session.start.runProgram Float.ofNat 8 accepted.1 accepted.2
      c.reference?.any fun r : Reference =>
        decide (r.role = .variable ∧ accepted.2.hops? r.name = some 0))
    (by decide +kernel)
  obtain ⟨r, hr, hcheck⟩ := (Option.any_eq_true _ _).1 hcheck
  obtain ⟨hrole, hhops⟩ := of_decide_eq_true hcheck
  have hfound := (Program.finds_iff_not_own haccept Float.ofNat 8).1 r 0 hr hhops
  refine ⟨p, t, r, haccept, hr, hhops, hfound.2 fun hown => ?_⟩
  rw [hrole] at hown
  cases hown.1

/-- In `{ var x = (x = nil); print x; }` the assignment has an entry, but finds no variable: not
every reference with an entry does. -/
theorem Program.not_finds_all :
    ¬ ∀ (source : String) (p : Program) (t : BindingTable) (clock : Nat → Float) (steps : Nat)
      (r : Reference) (hops : Nat), Session.start.accept source = .ok (p, t) →
        (Session.start.runProgram clock steps p t).reference? = some r →
          t.hops? r.name = some hops →
            (Session.start.runProgram clock steps p t).Finds hops r.name := by
  intro hall
  obtain ⟨p, t, haccept, hcheck⟩ := Session.exists_of_accept .start
    "\x7b var x = (x = nil); print x; \x7d"
    (fun accepted =>
      let c := Session.start.runProgram Float.ofNat 6 accepted.1 accepted.2
      c.reference?.any fun r : Reference =>
        decide (accepted.2.hops? r.name = some 0 ∧
          (c.state.store.getAt? c.state.env 0 r.name.text).isNone = true))
    (by decide +kernel)
  obtain ⟨r, hr, hcheck⟩ := (Option.any_eq_true _ _).1 hcheck
  obtain ⟨hhops, hnone⟩ := of_decide_eq_true hcheck
  obtain ⟨⟨v, hv⟩, -⟩ := hall _ p t Float.ofNat 6 r 0 haccept hr hhops
  rw [hv] at hnone
  cases hnone

end Lox
