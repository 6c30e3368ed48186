import Lox.Proofs.Lexical.Steps

set_option autoImplicit false

/-! # Steps of configurations that fit

One step of the machine with environments is one step of the machine with cells
(`ConfigFits.step`), as long as no variable is assigned to in its own initializer. There is one
lemma for each kind of step, with one case for each form of expression, statement or frame.
-/

namespace Lox

/-- The reference that a configuration is about to read, or to assign to. -/
def Config.reference? (c : Config) : Option Reference :=
  match c with
  | ⟨.eval (.variable name), _, _⟩ => some ⟨.variable, name⟩
  | ⟨.eval (.this keyword), _, _⟩ => some ⟨.this, keyword⟩
  | ⟨.eval (.super keyword _), _, _⟩ => some ⟨.super, keyword⟩
  | ⟨.give _, .assign name :: _, _⟩ => some ⟨.assign, name⟩
  | _ => none

namespace Lexical.World

open StateFits

variable {t : BindingTable} {own : List Name} {w : World} {scopes : Scopes} {st : Lox.State}
  {st' : State} {fs : List (Frame EnvId)} {fs' : List (Frame View)} {clock : Nat → Float}

/-- A reference that is the whole of an expression. -/
theorem bound_reference {e : Expr} {r : Reference} (h : e.Bound t own scopes)
    (hr : e.references = [r]) : r.Bound t own scopes :=
  h r (by rw [hr]; exact List.mem_singleton_self r)

theorem boundAll_of_references {es : List Expr}
    (h : ∀ r ∈ Expr.referencesAll es, r.Bound t own scopes) : Expr.BoundAll t own scopes es := by
  induction es with
  | nil => exact fun e he => nomatch he
  | cons e es ih =>
      obtain ⟨he, hes⟩ := List.forall_mem_append.1 h
      exact List.forall_mem_cons.2 ⟨he, ih hes⟩

/-! ## Expressions and statements -/

/-- A name is read. -/
theorem read_fits {role : Reference.Role} {name : Name} (h : w.StateFits t own scopes st st')
    (hfs : w.FramesFit t own scopes st.env fs fs')
    (hr : Reference.Bound t own scopes ⟨role, name⟩) (hrole : role ≠ .assign) :
    ConfigFits t own (st.eval ⟨t, clock⟩ fs (.variable name)) (st'.eval fs' (.variable name)) := by
  rw [Lox.State.eval, State.eval, h.read_eq hr hrole clock]
  cases st.read ⟨t, clock⟩ name with
  | ok v => exact h.give hfs v
  | error e => exact .mk h (.failing e hfs)

/-- An expression starts. -/
theorem eval_fits {e : Expr} (h : w.StateFits t own scopes st st')
    (hfs : w.FramesFit t own scopes st.env fs fs') (he : e.Bound t own scopes) :
    ConfigFits t own (st.eval ⟨t, clock⟩ fs e) (st'.eval fs' e) := by
  cases e with
  | literal l => exact h.give hfs _
  | grouping inner => exact .mk h (.eval he hfs)
  | unary op line operand => exact .mk h (.eval he (.plain (.unary op line) hfs))
  | binary op line left right =>
      obtain ⟨hleft, hright⟩ := List.forall_mem_append.1 he
      exact .mk h (.eval hleft (.plain (.binaryLeft op line hright) hfs))
  | logical op left right =>
      obtain ⟨hleft, hright⟩ := List.forall_mem_append.1 he
      exact .mk h (.eval hleft (.plain (.logical op hright) hfs))
  | «variable» name => exact read_fits h hfs (bound_reference he rfl) (by decide)
  -- `this` is read as a variable is.
  | this keyword => exact read_fits h hfs (bound_reference he rfl) (by decide)
  | assign name value =>
      obtain ⟨hname, hvalue⟩ := List.forall_mem_cons.1 he
      exact .mk h (.eval hvalue (.plain (.assign hname) hfs))
  | call callee arguments line =>
      obtain ⟨hcallee, harguments⟩ := List.forall_mem_append.1 he
      exact .mk h (.eval hcallee (.plain (.callee line (boundAll_of_references harguments)) hfs))
  | get object property => exact .mk h (.eval he (.plain (.get property) hfs))
  | set object property value =>
      obtain ⟨hobject, hvalue⟩ := List.forall_mem_append.1 he
      exact .mk h (.eval hobject (.plain (.setObject property hvalue) hfs))
  | super keyword method =>
      rw [Lox.State.eval, State.eval]
      rcases h.superMethod_cases (bound_reference he rfl) method clock with
        ⟨line, hm, hm'⟩ | ⟨m, m', object, hm, hm', hmethod⟩
      · rw [hm, hm']
        exact .mk h (.failing _ hfs)
      · rw [hm, hm']
        exact h.giveBound hfs hmethod object

/-- A statement starts. -/
theorem exec_fits {s : Stmt} (h : w.StateFits t own scopes st st') (hsettled : scopes.Settled)
    (hfs : w.FramesFit t own (s.scopesAfter scopes) st.env fs fs') (hs : s.Bound t own scopes) :
    ConfigFits t own (st.exec fs s) (st'.exec fs' s) := by
  cases s with
  | expression e => exact .mk h (.eval hs hfs)
  | print e => exact .mk h (.eval hs (.plain .print hfs))
  | var name initial =>
      obtain ⟨hname, hinitial⟩ := hs
      -- The name is pending from here on, until its initializer has a value.
      have hdeclared : w.StateFits t own (scopes.declare name.text) st st' :=
        ⟨h.store, h.place.declare name.text, h.calls, h.output, h.ticks⟩
      cases initial with
      | some e => exact .mk hdeclared (.eval (hinitial e rfl) (.var hname hfs))
      | none =>
          obtain ⟨w', hgrows, h'⟩ := hdeclared.declare (Scopes.isReady_declare_of_new hname.new)
            (.of_ordinary hname.ordinary .nil)
          exact h'.give (hfs.grow hgrows) .nil
  | block body =>
      obtain ⟨w', hgrows, hstore, hplace⟩ := h.store.newScope h.place.sees hsettled
      have hinside : w'.StateFits t own ([] :: scopes)
          { st with
            store := (st.store.newEnvironment (some st.env)).2
            env := st.store.environments.size }
          { st' with view := st'.view.enter } := ⟨hstore, hplace, h.calls, h.output, h.ticks⟩
      refine .mk hinside (.execAll (Scopes.settled_block scopes) hs ?_)
      exact .scope (h.place.sees.grow hgrows) (h.place.exact.grow hgrows h.place.lt) h.place.lt
        (hfs.grow (hgrows.of_le (Nat.le_of_lt h.place.lt)))
  | branch condition yes no =>
      cases no with
      | none =>
          obtain ⟨hcondition, hyes⟩ := hs
          exact .mk h (.eval hcondition
            (.plain (.branch hsettled hyes fun s hs => nomatch hs) hfs))
      | some no =>
          obtain ⟨hcondition, hyes, hno⟩ := hs
          refine .mk h (.eval hcondition (.plain (.branch hsettled hyes fun s hs => ?_) hfs))
          cases hs
          exact hno
  | loop condition body =>
      obtain ⟨hcondition, hbody⟩ := hs
      exact .mk h (.eval hcondition (.plain (.loopTest hsettled hcondition hbody) hfs))
  | function f =>
      obtain ⟨hname, hf⟩ := hs
      obtain ⟨w', hgrows, h'⟩ := h.declareFunction hsettled hname hf
      exact h'.give (hfs.grow hgrows) .nil
  | ret keyword value =>
      cases value with
      | none => exact .mk h (.returning .nil hfs)
      | some e => exact .mk h (.eval (hs e rfl) (.plain .ret hfs))
  | classDecl name superclass methods =>
      obtain ⟨hname, hsuperclass, hmethods⟩ := hs
      cases superclass with
      | none =>
          obtain ⟨w', hgrows, h'⟩ := h.declareClass none hsettled hname hmethods
          exact h'.give (hfs.grow hgrows) .nil
      | some above =>
          have habove : (Expr.variable above).Bound t own scopes :=
            List.forall_mem_singleton.2 (hsuperclass above rfl).bound
          exact .mk h (.eval habove (.superclass hsettled hname hmethods hfs))

/-- The first of several statements starts. -/
theorem execAll_fits {body : List Stmt} (h : w.StateFits t own scopes st st')
    (hsettled : scopes.Settled)
    (hfs : w.FramesFit t own (Stmt.scopesAfterAll scopes body) st.env fs fs')
    (hbody : Stmt.BoundAll t own scopes body) :
    ConfigFits t own (st.execAll fs body) (st'.execAll fs' body) := by
  cases body with
  | nil => exact h.give hfs .nil
  | cons s body => exact .mk h (.exec hsettled hbody.1 (.rest (hsettled.after s) hbody.2 hfs))

/-- The next statement of the top level starts. -/
theorem continueProgram_fits {p : Program} (h : w.StateFits t own [] st st')
    (hfs : w.FramesFit t own [] st.env fs fs') (hp : Stmt.BoundAll t own [] p) :
    ConfigFits t own (st.continueProgram fs p) (st'.continueProgram fs' p) := by
  cases p with
  | nil => exact h.give hfs .nil
  | cons s p =>
      have htop : s.scopesAfter [] = [] := by cases s <;> rfl
      refine .mk h (.exec Scopes.settled_top hp.1 ?_)
      have hrest := hp.2
      rw [htop] at hrest ⊢
      exact .program h.top.1 hrest hfs

/-! ## Frames -/

/-- A frame that keeps no environment takes the value that it waits for. -/
theorem resume_plain_fits {f : Frame EnvId} {f' : Frame View}
    (h : w.StateFits t own scopes st st') (hf : PlainFits t own scopes f f')
    (hfs : w.FramesFit t own scopes st.env fs fs') (v : Value)
    (hown : ∀ name, f = .assign name → name ∉ own) :
    ConfigFits t own (st.resume ⟨t, clock⟩ fs v f) (st'.resume clock fs' v f') := by
  cases hf with
  | unary op line => exact h.giveOrFail hfs line _
  | binaryLeft op line hright => exact .mk h (.eval hright (.plain (.binaryRight op line v) hfs))
  | binaryRight op line left => exact h.giveOrFail hfs line _
  | logical op hright =>
      rw [Lox.State.resume, State.resume]
      by_cases hdecided : op.isDecidedBy v = true
      · rw [if_pos hdecided, if_pos hdecided]
        exact h.give hfs v
      · rw [if_neg hdecided, if_neg hdecided]
        exact .mk h (.eval hright hfs)
  | assign hname =>
      rw [Lox.State.resume, State.resume]
      rcases h.assign_cases hname (hown _ rfl) v clock with
        ⟨e, hbinder, hassign⟩ | ⟨a, st'', hbinder, hassign, h'⟩
      · rw [hbinder, hassign]
        exact .mk h (.failing e hfs)
      · rw [hbinder, hassign]
        exact h'.give hfs v
  | callee line harguments => exact h.evalArguments hfs harguments v [] line clock
  | argument callee before line hafter =>
      exact h.evalArguments hfs hafter callee (v :: before) line clock
  | get property => exact h.giveProperty hfs v property
  | setObject property hvalue =>
      cases v with
      | instanceRef i => exact .mk h (.eval hvalue (.plain (.setValue i property) hfs))
      | _ => exact h.fail hfs _ property.line
  | setValue object property =>
      exact (h.withStore (.refl w _) (h.store.setField object property.text v)
        (Nat.le_refl _)).give hfs v
  | print =>
      have hprinted : w.StateFits t own scopes
          { st with output := st.output ++ st.store.text v ++ "\n" }
          { st' with output := st'.output ++ st'.store.text v ++ "\n" } :=
        ⟨h.store, h.place, h.calls, by rw [h.output, h.store.heap.text_eq], h.ticks⟩
      exact hprinted.give hfs .nil
  | ret => exact .mk h (.returning v hfs)
  | branch hsettled hyes hno =>
      simp only [Lox.State.resume, State.resume]
      by_cases htruthy : v.isTruthy = true
      · rw [if_pos htruthy, if_pos htruthy]
        -- What waits is not told of the scopes after a branch, so a branch may not declare.
        refine .mk h (.exec hsettled hyes.2 ?_)
        rw [Stmt.scopesAfter_eq hyes.1]
        exact hfs
      · rw [if_neg htruthy, if_neg htruthy]
        rename_i no
        cases no with
        | none => exact h.give hfs .nil
        | some s =>
            refine .mk h (.exec hsettled (hno s rfl).2 ?_)
            rw [Stmt.scopesAfter_eq (hno s rfl).1]
            exact hfs
  | loopTest hsettled hcondition hbody =>
      rw [Lox.State.resume, State.resume]
      by_cases htruthy : v.isTruthy = true
      · rw [if_pos htruthy, if_pos htruthy]
        refine .mk h (.exec hsettled hbody.2 ?_)
        rw [Stmt.scopesAfter_eq hbody.1]
        exact .plain (.loopBody hsettled hcondition hbody) hfs
      · rw [if_neg htruthy, if_neg htruthy]
        exact h.give hfs .nil
  | loopBody hsettled hcondition hbody =>
      exact .mk h (.eval hcondition (.plain (.loopTest hsettled hcondition hbody) hfs))

/-- The state that a block goes back to. -/
theorem StateFits.leaveScope {around : Scopes} {outer : EnvId} {view : View}
    (h : w.StateFits t own scopes st st') (hsees : w.Sees around outer view)
    (hexact : w.Exact around outer) (hlt : outer < st.env) :
    w.StateFits t own around { st with env := outer } { st' with view } :=
  ⟨h.store, ⟨hsees, hexact, Nat.lt_trans hlt h.place.lt⟩, h.calls, h.output, h.ticks⟩

/-- The state that a call goes back to. -/
theorem StateFits.leaveCall {around : Scopes} {caller : EnvId} {view : View}
    (h : w.StateFits t own scopes st st') (hsees : w.Sees around caller view)
    (hexact : w.Exact around caller) (hlt : caller < st.env) :
    w.StateFits t own around { st with env := caller, calls := st.calls - 1 }
      { st' with view, calls := st'.calls - 1 } :=
  ⟨h.store, ⟨hsees, hexact, Nat.lt_trans hlt h.place.lt⟩, by rw [h.calls], h.output, h.ticks⟩

/-- A frame takes the value that it waits for. -/
theorem resume_fits {f : Frame EnvId} {f' : Frame View} (h : w.StateFits t own scopes st st')
    (hfs : w.FramesFit t own scopes st.env (f :: fs) (f' :: fs')) (v : Value)
    (hown : ∀ name, f = .assign name → name ∉ own) :
    ConfigFits t own (st.resume ⟨t, clock⟩ fs v f) (st'.resume clock fs' v f') := by
  cases hfs with
  | plain hf hfs => exact resume_plain_fits h hf hfs v hown
  | @var scopes _ name _ _ hname hfs =>
      obtain ⟨w', hgrows, h'⟩ := h.declare (Scopes.isReady_declare_of_new hname.new)
        (.of_ordinary hname.ordinary v)
      exact h'.give (hfs.grow hgrows) .nil
  | @superclass _ _ name superclass methods _ _ hsettled hname hmethods hfs =>
      cases v with
      | classRef above =>
          obtain ⟨w', hgrows, h'⟩ := h.declareClass (some above) hsettled hname hmethods
          exact h'.give (hfs.grow hgrows) .nil
      | _ => exact h.fail hfs _ superclass.line
  | rest hsettled hbody hfs => exact .mk h (.execAll hsettled hbody hfs)
  | scope hsees hexact hlt hfs => exact (h.leaveScope hsees hexact hlt).give hfs v
  | call hsees hexact hlt hyield hfs =>
      rw [Lox.State.resume, State.resume, h.yielded_eq hyield]
      exact (h.leaveCall hsees hexact hlt).give hfs _
  | program _ hrest hfs => exact continueProgram_fits h hfs hrest

/-- A `return` leaves a frame. -/
theorem unwindReturn_fits {after : Scopes} {f : Frame EnvId} {f' : Frame View}
    (h : w.StateFits t own scopes st st')
    (hfs : w.FramesFit t own after st.env (f :: fs) (f' :: fs')) (v : Value) :
    ConfigFits t own (st.unwindReturn fs v f) (st'.unwindReturn fs' v f') := by
  cases hfs with
  | plain hf hfs => cases hf <;> exact .mk h (.returning v hfs)
  | var _ hfs | superclass _ _ _ hfs | rest _ _ hfs => exact .mk h (.returning v hfs)
  | scope hsees hexact hlt hfs =>
      exact .mk (h.leaveScope hsees hexact hlt) (.returning v hfs)
  | call hsees hexact hlt hyield hfs =>
      rw [Lox.State.unwindReturn, State.unwindReturn, h.yielded_eq hyield]
      exact (h.leaveCall hsees hexact hlt).give hfs _
  | program htop hrest hfs =>
      cases hscopes : scopes.isEmpty with
      | true =>
          rw [List.isEmpty_iff] at hscopes
          subst hscopes
          exact continueProgram_fits h hfs hrest
      | false =>
          -- Blocks and calls have frames of their own, so the environment is the global one.
          exact absurd htop (h.store.ne_global h.place hscopes)

/-- An error leaves a frame. -/
theorem unwindError_fits {after : Scopes} {f : Frame EnvId} {f' : Frame View}
    (h : w.StateFits t own scopes st st')
    (hfs : w.FramesFit t own after st.env (f :: fs) (f' :: fs')) (e : RuntimeError) :
    ConfigFits t own (st.unwindError fs e f) ⟨.failing e, fs', st'.leave f'⟩ := by
  cases hfs with
  | plain hf hfs => cases hf <;> exact .mk h (.failing e hfs)
  | var _ hfs | superclass _ _ _ hfs | rest _ _ hfs | program _ _ hfs =>
      exact .mk h (.failing e hfs)
  | scope hsees hexact hlt hfs => exact .mk (h.leaveScope hsees hexact hlt) (.failing e hfs)
  | call hsees hexact hlt _ hfs => exact .mk (h.leaveCall hsees hexact hlt) (.failing e hfs)

/-! ## Steps and runs -/

/-- One step of one machine is one step of the other. -/
theorem ConfigFits.step {c : Lox.Config} {c' : Config} (h : ConfigFits t own c c')
    (hown : ∀ r, c.reference? = some r → r.role = .assign → r.name ∉ own) :
    ConfigFits t own (c.step ⟨t, clock⟩) (c'.step clock) := by
  obtain ⟨hstate, hcontrol⟩ := h
  cases hcontrol with
  | eval he hfs => exact eval_fits hstate hfs he
  | exec hsettled hs hfs => exact exec_fits hstate hsettled hfs hs
  | execAll hsettled hbody hfs => exact execAll_fits hstate hsettled hfs hbody
  | give v hfs =>
      rcases hfs.nil_or_cons with ⟨rfl, rfl⟩ | ⟨f, fs, f', fs', rfl, rfl⟩
      · exact hstate.give hfs v
      · refine resume_fits hstate hfs v fun name hf => ?_
        subst hf
        exact hown ⟨.assign, name⟩ rfl rfl
  | returning v hfs =>
      rcases hfs.nil_or_cons with ⟨rfl, rfl⟩ | ⟨f, fs, f', fs', rfl, rfl⟩
      · exact .mk hstate (.returning v hfs)
      · exact unwindReturn_fits hstate hfs v
  | failing e hfs =>
      rcases hfs.nil_or_cons with ⟨rfl, rfl⟩ | ⟨f, fs, f', fs', rfl, rfl⟩
      · exact .mk hstate (.failing e hfs)
      · exact unwindError_fits hstate hfs e

end Lexical.World

end Lox
