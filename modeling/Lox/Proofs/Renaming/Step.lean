import Lox.Proofs.Machine.Run
import Lox.Proofs.Renaming.Frames

set_option autoImplicit false

/-! # Renamed runs

A run of renamed code goes the same way, step by step, and prints the same. If it fails, then with
the same error, but for the spelling of a variable that is not bound (`Config.Renames`).
-/

namespace Lox

namespace Renaming

variable {r : Renaming} {t : BindingTable} {clock : Nat → Float} {M : Marking} {marks : Marks}
  {st : State} {f : Frame EnvId} {fs : List (Frame EnvId)}

theorem FitsFrames.keep {store store' : Store} {M' : Marking}
    (h : FitsFrames r t store M marks fs) (hkeeps : store.KeepsMarks M store' M') :
    FitsFrames r t store' M' marks fs := by
  induction h with
  | nil => exact .nil _
  | plain hf _ ih => exact .plain hf ih
  | scope marks hmarked _ ih => exact .scope marks (hmarked.keep hkeeps) ih
  | call marks yield hmarked _ ih => exact .call marks yield (hmarked.keep hkeeps) ih

theorem FitsFrames.of_isPlain {store : Store} (h : FitsFrames r t store M marks (f :: fs))
    (hf : f.isPlain = true) : f.Spelled r t marks ∧ FitsFrames r t store M marks fs := by
  cases h with
  | plain hspelled hfs => exact ⟨hspelled, hfs⟩
  | scope | call => cases hf

namespace Fits

/-! ## States -/

/-- Variables, environments and instances change, and no code. -/
theorem keep (h : r.Fits t M marks st fs) {store : Store} {M' : Marking}
    (hkeeps : st.store.KeepsMarks M store M') (hfunctions : store.functions = st.store.functions)
    (hclasses : store.classes = st.store.classes) : r.Fits t M' marks { st with store } fs :=
  ⟨h.ordinary, h.store.keep hkeeps hfunctions hclasses, h.env.keep hkeeps, h.frames.keep hkeeps⟩

theorem define (h : r.Fits t M marks st fs) (name : String) (v : Value) :
    r.Fits t M marks (st.define name v) fs :=
  h.keep (.define st.store M st.env name v) rfl rfl

/-- A variable is declared under the name that it has in the current environment. -/
theorem define_rename (h : r.Fits t M marks st fs) {name : Name}
    (hname : name.SpelledIn r marks (some 0)) (v : Value) :
    (st.rename r M).define (name.rename r).text v = (st.define name.text v).rename r M := by
  have hmark : M st.env = marks.isMarked (some 0) :=
    h.env.isMarked_of_ancestor? h.store.globalTop h.store.globalMark rfl
  have htext : (name.rename r).text = r.swap (M st.env) name.text := by
    rw [hmark]
    exact hname
  rw [htext, State.define, State.define]
  exact congrArg (fun store => { st with store }) (Store.define_rename r M st.store st.env _ v)

theorem newFunction (h : r.Fits t M marks st fs) {c : Closure EnvId}
    (hc : c.Spelled r t st.store M) :
    r.Fits t M marks { st with store := (st.store.newFunction c).2 } fs :=
  ⟨h.ordinary, h.store.newFunction hc, h.env.keep (.of_heap _), h.frames.keep (.of_heap _)⟩

theorem newClass (h : r.Fits t M marks st fs) {c : ClassObject EnvId}
    (hc : ∀ m ∈ c.methods, m.2.SpelledMethod r t st.store M) :
    r.Fits t M marks { st with store := (st.store.newClass c).2 } fs :=
  ⟨h.ordinary, h.store.newClass hc, h.env.keep (.of_heap _), h.frames.keep (.of_heap _)⟩

/-- Code that waits in a frame without an environment gets the spellings of the current one. -/
theorem push (h : r.Fits t M marks st fs) (hf : f.Spelled r t marks) :
    r.Fits t M marks st (f :: fs) :=
  ⟨h.ordinary, h.store, h.env, .plain hf h.frames⟩

/-! ## Results -/

/-- The configuration that does something in this state, and the renamed one. -/
theorem renames (h : r.Fits t M marks st fs) (control : Control)
    (hcontrol : control.Spelled r t marks) :
    Config.Renames r t ⟨control, fs, st⟩
      ⟨control.rename r, fs.map (Frame.rename r), st.rename r M⟩ :=
  .mk h hcontrol (.same control)

theorem failing (h : r.Fits t M marks st fs) {e e' : RuntimeError} (he : e.Renames r e') :
    Config.Renames r t ⟨.failing e, fs, st⟩
      ⟨.failing e', fs.map (Frame.rename r), st.rename r M⟩ :=
  .mk h trivial (.failing he)

theorem give (h : r.Fits t M marks st fs) (v : Value) :
    Config.Renames r t (st.give v fs) ((st.rename r M).give v (fs.map (Frame.rename r))) :=
  h.renames (.give v) trivial

theorem fail (h : r.Fits t M marks st fs) (cause : RuntimeError.Cause) (line : Nat) :
    Config.Renames r t (st.fail cause line fs)
      ((st.rename r M).fail cause line (fs.map (Frame.rename r))) :=
  h.failing (.same _)

theorem giveOrFail (h : r.Fits t M marks st fs) (line : Nat)
    (result : Except RuntimeError.Cause Value) :
    Config.Renames r t (st.giveOrFail line fs result)
      ((st.rename r M).giveOrFail line (fs.map (Frame.rename r)) result) := by
  cases result with
  | ok v => exact h.give v
  | error cause => exact h.fail cause line

/-- A method is bound in an environment of its own, which is not marked. -/
theorem bind (h : r.Fits t M marks st fs) (m : Closure EnvId) (object : InstanceId) :
    r.Fits t (M.add st.store false) marks { st with store := (st.store.bind m object).2 } fs ∧
      (st.store.rename r M).bind (m.rename r) object =
        ((st.store.bind m object).1.rename r,
          (st.store.bind m object).2.rename r (M.add st.store false)) := by
  constructor
  · exact h.keep (.newVariable st.store M m.env "this" (.instanceRef object)) rfl rfl
  · rw [← Store.rename_add false]
    exact Store.bind_rename (M.add st.store false) st.store h.ordinary m object

/-- A method is given, bound to an instance. -/
theorem giveBound (h : r.Fits t M marks st fs) {m : Closure EnvId}
    (hm : m.SpelledMethod r t st.store M) (object : InstanceId) :
    Config.Renames r t
      ({ st with store := (st.store.bindValue m object).2 }.give
        (st.store.bindValue m object).1 fs)
      ({ st.rename r M with store := ((st.rename r M).store.bindValue (m.rename r) object).2 }.give
        ((st.rename r M).store.bindValue (m.rename r) object).1 (fs.map (Frame.rename r))) := by
  obtain ⟨hbound, hbind⟩ := h.bind m object
  have hvalue : (st.rename r M).store.bindValue (m.rename r) object =
      ((st.store.bindValue m object).1,
        (st.store.bindValue m object).2.rename r (M.add st.store false)) := by
    simp only [State.rename, Store.bindValue, hbind, Store.newFunction_rename]
  rw [hvalue]
  exact (hbound.newFunction (hm.bind object)).give _

/-! ## Classes -/

/-- The object of a class is made, with methods that are closed over an environment, and defined. -/
theorem newClass_define (h : r.Fits t M marks st fs) {name : Name}
    (hname : name.SpelledIn r marks (some 0)) (hkept : name.Kept r) (superclass : Option ClassId)
    {e : EnvId} {inner : Marks} (he : st.store.Marked M e inner) {methods : List Function}
    (hmethods : Function.SpelledAll r t (false :: inner) methods) :
    let made := st.store.newClass ⟨name.text, superclass, State.methodTable e methods⟩
    let made' := (st.rename r M).store.newClass ⟨(name.rename r).text, superclass,
      State.methodTable e (methods.map (Function.rename r))⟩
    r.Fits t M marks ({ st with store := made.2 }.define name.text (.classRef made.1)) fs ∧
      { st.rename r M with store := made'.2 }.define (name.rename r).text (.classRef made'.1) =
        ({ st with store := made.2 }.define name.text (.classRef made.1)).rename r M := by
  intro made made'
  have hspelled := Function.spelledAll_iff.1 hmethods
  have htable : State.methodTable e (methods.map (Function.rename r)) =
      (State.methodTable e methods).map fun m => (m.1, m.2.rename r) := by
    rw [State.methodTable, State.methodTable, List.map_reverse, List.map_map, List.map_map]
    refine congrArg _ (List.map_congr_left fun f hf => ?_)
    have htext : (f.name.rename r).text = f.name.text := (hspelled f hf).kept_name
    simp [Closure.rename, htext, (hspelled f hf).isNamedInit_rename]
  have hmade : made' = (made.1, made.2.rename r M) := by
    have hclass : (name.rename r).text = name.text := hkept
    have hnew := Store.newClass_rename r M st.store
      ⟨name.text, superclass, State.methodTable e methods⟩
    rw [← hnew]
    show Store.newClass _ _ = Store.newClass _ _
    rw [hclass, htable]
    rfl
  have hmethod : ∀ m ∈ State.methodTable e methods, m.2.SpelledMethod r t st.store M := by
    intro m hm
    rw [State.methodTable, List.mem_reverse, List.mem_map] at hm
    obtain ⟨f, hf, rfl⟩ := hm
    exact ⟨inner, hspelled f hf, he⟩
  have hfits := h.newClass (c := ⟨name.text, superclass, State.methodTable e methods⟩) hmethod
  rw [hmade]
  exact ⟨hfits.define _ _, hfits.define_rename hname _⟩

/-- A class is declared. Methods of a subclass are closed over an environment for `super`. -/
theorem declareClass (h : r.Fits t M marks st fs) {name : Name}
    (hname : name.SpelledIn r marks (some 0)) (hkept : name.Kept r) (superclass : Option ClassId)
    {methods : List Function}
    (hmethods : Function.SpelledAll r t
      (false :: (if superclass.isSome then false :: marks else marks)) methods) :
    Config.Renames r t ((st.declareClass name superclass methods).give .nil fs)
      (((st.rename r M).declareClass (name.rename r) superclass
        (methods.map (Function.rename r))).give .nil (fs.map (Frame.rename r))) := by
  have hdefined := h.define name.text .nil
  have hdefine := h.define_rename hname .nil
  cases superclass with
  | none =>
      obtain ⟨hfits, hrename⟩ := hdefined.newClass_define hname hkept none hdefined.env hmethods
      have hdeclared : (st.rename r M).declareClass (name.rename r) none
          (methods.map (Function.rename r)) = (st.declareClass name none methods).rename r M := by
        rw [State.declareClass.eq_def, hdefine]
        exact hrename
      rw [hdeclared]
      exact hfits.give .nil
  | some above =>
      let store := (st.define name.text .nil).store
      let inside := (store.newEnvironment (some st.env)).2.define store.environments.size "super"
        (.classRef above)
      have hsize : (store.rename r M).environments.size = store.environments.size :=
        Store.size_environments_rename r M store
      have hvariable : ((store.rename r M).newEnvironment (some st.env)).2.define
          store.environments.size "super" (.classRef above) =
            inside.rename r (M.add store false) := by
        rw [← Store.rename_add false]
        exact Store.newVariable_rename _ store st.env h.ordinary.swap_super (.classRef above)
      have hinside : r.Fits t (M.add store false) marks { st with store := inside } fs :=
        hdefined.keep (.newVariable store M st.env _ _) rfl rfl
      have hmarked : inside.Marked (M.add store false) store.environments.size (false :: marks) :=
        (hdefined.env.newEnvironment false).keep (.define _ _ _ _ _)
      obtain ⟨hfits, hrename⟩ := hinside.newClass_define hname hkept (some above) hmarked hmethods
      -- What remains to be done with the environment for `super`, wherever it is made.
      let declare (e : EnvId) (store : Store) : State :=
        let made := store.newClass ⟨(name.rename r).text, some above,
          State.methodTable e (methods.map (Function.rename r))⟩
        { st.rename r M with store := made.2 }.define (name.rename r).text (.classRef made.1)
      have hdeclare : (st.rename r M).declareClass (name.rename r) (some above)
          (methods.map (Function.rename r)) =
            declare (store.rename r M).environments.size
              (((store.rename r M).newEnvironment (some st.env)).2.define
                (store.rename r M).environments.size "super" (.classRef above)) := by
        rw [State.declareClass.eq_def, hdefine]
        rfl
      rw [hsize, hvariable] at hdeclare
      rw [hdeclare.trans hrename]
      exact hfits.give .nil

/-! ## Calls -/

/-- The parameters of a function, with the spelling that they have in its environment. -/
theorem zip_parameters_rename {mark : Bool} {ns : List Name} (values : List Value)
    (h : ∀ n ∈ ns, n.SpelledIn r (mark :: marks) (some 0)) :
    ((ns.map (Name.rename r)).map Name.text).zip values =
      ((ns.map Name.text).zip values).map fun entry => (r.swap mark entry.1, entry.2) := by
  induction ns generalizing values with
  | nil => rfl
  | cons n ns ih =>
      obtain ⟨hn, hns⟩ := List.forall_mem_cons.1 h
      have htext : (n.rename r).text = r.swap mark n.text := hn
      cases values with
      | nil => rfl
      | cons v values => simp only [List.map_cons, List.zip_cons_cons, htext, ih values hns]

/-- The body of a function runs in a new environment, which is marked as its scope. -/
theorem enter (h : r.Fits t M marks st fs) {c : Closure EnvId} (hc : c.Spelled r t st.store M)
    (arguments : List Value) (yield : Yield EnvId) :
    Config.Renames r t (st.enter c arguments yield fs)
      ((st.rename r M).enter (c.rename r) arguments yield (fs.map (Frame.rename r))) := by
  obtain ⟨⟨name, parameters, body⟩, env, isInitializer⟩ := c
  obtain ⟨outer, ⟨-, mark, hparameters, hbody⟩, hmarked⟩ := hc
  let e := st.store.environments.size
  let entries := (parameters.map Name.text).zip arguments
  let made := (st.store.newEnvironment (some env)).2
  have hkeeps : st.store.KeepsMarks M (made.defineAll e entries) (M.add st.store mark) :=
    (Store.KeepsMarks.newEnvironment st.store M (some env) mark).trans (.defineAll _ _ _ _)
  have hheap : (made.defineAll e entries).toHeap = made.toHeap :=
    Store.toHeap_defineAll made e entries
  have hstarted := h.keep hkeeps (congrArg Heap.functions hheap) (congrArg Heap.classes hheap)
  have hinside : (made.defineAll e entries).Marked (M.add st.store mark) e (mark :: outer) :=
    (hmarked.newEnvironment mark).keep (.defineAll _ _ _ _)
  have hfits : r.Fits t (M.add st.store mark) (mark :: outer)
      { st with store := made.defineAll e entries, env := e, calls := st.calls + 1 }
      (.call st.env yield :: fs) :=
    ⟨h.ordinary, hstarted.store, hinside, .call _ yield hstarted.env hstarted.frames⟩
  -- The environment of the renamed call, which has the renamed parameters.
  have hstore : ((st.store.rename r M).newEnvironment (some env)).2.defineAll e
      (((parameters.map (Name.rename r)).map Name.text).zip arguments) =
        (made.defineAll e entries).rename r (M.add st.store mark) := by
    have hmark : M.add st.store mark e = mark := by rw [Marking.add, Function.update_self]
    have hentries := Store.defineAll_rename r (M.add st.store mark) made e entries
    rw [hmark] at hentries
    rw [zip_parameters_rename arguments hparameters, ← Store.rename_add mark,
      Store.newEnvironment_rename, hentries]
  have hsize : (st.store.rename r M).environments.size = e :=
    Store.size_environments_rename r M st.store
  have hentered : (st.rename r M).enter (Closure.rename r ⟨⟨name, parameters, body⟩, env,
      isInitializer⟩) arguments yield (fs.map (Frame.rename r)) =
        ⟨.execAll (Stmt.renameAll r body), .call st.env yield :: fs.map (Frame.rename r),
          { st.rename r M with
            store := ((st.store.rename r M).newEnvironment (some env)).2.defineAll
              (st.store.rename r M).environments.size
              (((parameters.map (Name.rename r)).map Name.text).zip arguments)
            env := (st.store.rename r M).environments.size
            calls := st.calls + 1 }⟩ := rfl
  rw [hsize, hstore, Stmt.renameAll_eq_map] at hentered
  rw [hentered]
  exact hfits.renames (.execAll body) hbody

/-- An instance is made, and the initializer of its class runs on it. -/
theorem instantiate (h : r.Fits t M marks st fs) (cls : ClassId) (arguments : List Value) :
    Config.Renames r t (st.instantiate cls arguments fs)
      ((st.rename r M).instantiate cls arguments (fs.map (Frame.rename r))) := by
  have hinit : (st.rename r M).store.initializer? cls =
      (st.store.initializer? cls).map (Closure.rename r) :=
    Store.initializer?_rename r M st.store cls
  let made := (st.store.newInstance cls).2
  have hmade : r.Fits t M marks { st with store := made } fs := h.keep (.of_heap _) rfl rfl
  rw [State.instantiate, State.instantiate, hinit]
  cases hm : st.store.initializer? cls with
  | none => exact hmade.give _
  | some m =>
      have hmethod : m.SpelledMethod r t made M := (h.store.method? hm).keep (.of_heap _)
      obtain ⟨hfits, hbind⟩ := hmade.bind m st.store.instances.size
      have hnew : (st.rename r M).store.newInstance cls =
          (st.store.instances.size, made.rename r M) := rfl
      have hentered := hfits.enter (hmethod.bind st.store.instances.size) arguments
        (.made st.store.instances.size)
      simp only [Option.map_some, hnew, hbind]
      exact hentered

theorem invoke (h : r.Fits t M marks st fs) (callee : Value) (arguments : List Value)
    (line : Nat) :
    Config.Renames r t (st.invoke ⟨t, clock⟩ callee arguments line fs)
      ((st.rename r M).invoke ⟨t, clock⟩ callee arguments line (fs.map (Frame.rename r))) := by
  cases callee with
  | nativeRef n =>
      have hnatives : (st.rename r M).store.natives = st.store.natives := rfl
      rw [State.invoke, State.invoke, hnatives]
      cases st.store.natives[n]? with
      | none => exact h.fail _ line
      | some native =>
          cases native
          have hticked : r.Fits t M marks { st with ticks := st.ticks + 1 } fs :=
            ⟨h.ordinary, h.store, h.env, h.frames⟩
          exact hticked.give _
  | functionRef f =>
      have hfunction : (st.rename r M).store.functions[f]? =
          (st.store.functions[f]?).map (Closure.rename r) :=
        Store.functions_rename r M st.store f
      rw [State.invoke, State.invoke, hfunction]
      cases hc : st.store.functions[f]? with
      | none => exact h.fail _ line
      | some c => exact h.enter (h.store.functions f c hc) arguments _
  | classRef cls => exact h.instantiate cls arguments
  | _ => exact h.fail _ line

theorem call (h : r.Fits t M marks st fs) (callee : Value) (arguments : List Value) (line : Nat) :
    Config.Renames r t (st.call ⟨t, clock⟩ callee arguments line fs)
      ((st.rename r M).call ⟨t, clock⟩ callee arguments line (fs.map (Frame.rename r))) := by
  have harity : (st.rename r M).store.arity? callee = st.store.arity? callee :=
    Store.arity?_rename r M st.store callee
  have hcalls : (st.rename r M).calls = st.calls := rfl
  rw [State.call, State.call, harity, hcalls]
  cases st.store.arity? callee with
  | none => exact h.fail _ line
  | some arity =>
      simp only
      split
      · exact h.fail _ line
      · split
        · exact h.fail _ line
        · exact h.invoke callee arguments line

theorem evalArguments (h : r.Fits t M marks st fs) (callee : Value) (before : List Value)
    {after : List Expr} (line : Nat) (hafter : Expr.SpelledAll r t marks after) :
    Config.Renames r t (st.evalArguments ⟨t, clock⟩ callee before after line fs)
      ((st.rename r M).evalArguments ⟨t, clock⟩ callee before (after.map (Expr.rename r)) line
        (fs.map (Frame.rename r))) := by
  cases after with
  | nil => exact h.call callee before.reverse line
  | cons e es =>
      have hpushed := h.push (f := .argument callee before es line) hafter.2
      exact hpushed.renames (.eval e) hafter.1

/-! ## Expressions -/

theorem eval (h : r.Fits t M marks st fs) {e : Expr} (he : e.Spelled r t marks) :
    Config.Renames r t (st.eval ⟨t, clock⟩ fs e)
      ((st.rename r M).eval ⟨t, clock⟩ (fs.map (Frame.rename r)) (e.rename r)) := by
  cases e with
  | literal l => exact h.give _
  | grouping inner => exact h.renames (.eval inner) he
  | unary op line operand =>
      have hpushed := h.push (f := .unary op line) trivial
      exact hpushed.renames (.eval operand) he
  | binary op line left right =>
      have hpushed := h.push (f := .binaryLeft op line right) he.2
      exact hpushed.renames (.eval left) he.1
  | logical op left right =>
      have hpushed := h.push (f := .logical op right) he.2
      exact hpushed.renames (.eval left) he.1
  | «variable» name | this name =>
      have hread := h.read_rename clock he
      rw [Expr.rename, State.eval, State.eval]
      generalize st.read ⟨t, clock⟩ name = result,
        (st.rename r M).read ⟨t, clock⟩ (name.rename r) = result' at hread
      cases hread with
      | ok v => exact h.give v
      | error herror => exact h.failing herror
  | assign name value =>
      have hpushed := h.push (f := .assign name) he.1
      exact hpushed.renames (.eval value) he.2
  | call callee arguments line =>
      have hpushed := h.push (f := .callee arguments line) he.2
      rw [Expr.rename, Expr.renameAll_eq_map]
      exact hpushed.renames (.eval callee) he.1
  | get object property =>
      have hpushed := h.push (f := .get property) he.2
      exact hpushed.renames (.eval object) he.1
  | set object property value =>
      have hpushed := h.push (f := .setObject property value) he.2
      exact hpushed.renames (.eval object) he.1
  | super keyword method =>
      have hfound := h.superMethod_rename clock he.1 he.2
      rw [Expr.rename, State.eval, State.eval]
      generalize hresult : st.superMethod ⟨t, clock⟩ keyword method = result,
        (st.rename r M).superMethod ⟨t, clock⟩ (keyword.rename r) (method.rename r) = result'
        at hfound
      cases hfound with
      | ok found =>
          obtain ⟨above, -, hm, -⟩ := State.exists_of_superMethod hresult
          exact h.giveBound (h.store.method? hm) found.2
      | error herror => exact h.failing herror

/-! ## Statements -/

/-- A block runs in a new environment, which is marked as its scope. -/
theorem execBlock (h : r.Fits t M marks st fs) {mark : Bool} {body : List Stmt}
    (hbody : Stmt.SpelledAll r t (mark :: marks) body) :
    Config.Renames r t (st.exec fs (.block body))
      ((st.rename r M).exec (fs.map (Frame.rename r)) ((Stmt.block body).rename r)) := by
  have hkeeps := Store.KeepsMarks.newEnvironment st.store M (some st.env) mark
  have houter := h.keep hkeeps rfl rfl
  have hinside : r.Fits t (M.add st.store mark) (mark :: marks)
      { st with
        store := (st.store.newEnvironment (some st.env)).2
        env := st.store.environments.size }
      (.scope st.env :: fs) :=
    ⟨h.ordinary, houter.store, h.env.newEnvironment mark, .scope _ houter.env houter.frames⟩
  have hnew : (st.rename r M).store.newEnvironment (some st.env) =
      (st.store.environments.size,
        (st.store.newEnvironment (some st.env)).2.rename r (M.add st.store mark)) := by
    show (st.store.rename r M).newEnvironment (some st.env) = _
    rw [← Store.rename_add mark, Store.newEnvironment_rename]
    rfl
  have henv : (st.rename r M).env = st.env := rfl
  rw [Stmt.rename, Stmt.renameAll_eq_map, State.exec, State.exec, henv, hnew]
  exact hinside.renames (.execAll body) hbody

/-- A function is made, closed over the current environment, and declared there. -/
theorem execFunction (h : r.Fits t M marks st fs) {f : Function}
    (hname : f.name.SpelledIn r marks (some 0)) (hf : f.Spelled r t marks) :
    Config.Renames r t (st.exec fs (.function f))
      ((st.rename r M).exec (fs.map (Frame.rename r)) ((Stmt.function f).rename r)) := by
  have hmade := h.newFunction (c := ⟨f, st.env, false⟩) ⟨marks, hf, h.env⟩
  have hnew : (st.rename r M).store.newFunction ⟨f.rename r, st.env, false⟩ =
      ((st.store.newFunction ⟨f, st.env, false⟩).1,
        (st.store.newFunction ⟨f, st.env, false⟩).2.rename r M) :=
    Store.newFunction_rename r M st.store ⟨f, st.env, false⟩
  have hdefine := hmade.define_rename hname
    (.functionRef (st.store.newFunction ⟨f, st.env, false⟩).1)
  have hgiven := (hmade.define f.name.text
    (.functionRef (st.store.newFunction ⟨f, st.env, false⟩).1)).give .nil
  have henv : (st.rename r M).env = st.env := rfl
  rw [Stmt.rename, State.exec, State.exec, henv, hnew, Function.rename_name]
  rw [← hdefine] at hgiven
  exact hgiven

theorem exec (h : r.Fits t M marks st fs) {stmt : Stmt} (hs : stmt.Spelled r t marks) :
    Config.Renames r t (st.exec fs stmt)
      ((st.rename r M).exec (fs.map (Frame.rename r)) (stmt.rename r)) := by
  cases stmt with
  | expression e => exact h.renames (.eval e) hs
  | print e =>
      have hpushed := h.push (f := .print) trivial
      exact hpushed.renames (.eval e) hs
  | var name initial =>
      cases initial with
      | none =>
          rw [Stmt.rename, Option.map_none, State.exec, State.exec, h.define_rename hs.1]
          exact (h.define name.text .nil).give _
      | some e =>
          have hpushed := h.push (f := .var name) hs.1
          exact hpushed.renames (.eval e) (hs.2 e rfl)
  | block body =>
      obtain ⟨mark, hbody⟩ := hs
      exact h.execBlock hbody
  | branch condition yes no =>
      rw [Stmt.rename_branch]
      cases no with
      | none =>
          have hpushed := h.push (f := .branch yes none) ⟨hs.2, nofun⟩
          exact hpushed.renames (.eval condition) hs.1
      | some no =>
          have hpushed := h.push (f := .branch yes (some no))
            ⟨hs.2.1, fun s hno => Option.some.inj hno ▸ hs.2.2⟩
          exact hpushed.renames (.eval condition) hs.1
  | loop condition body =>
      have hpushed := h.push (f := .loopTest condition body) hs
      exact hpushed.renames (.eval condition) hs.1
  | function f => exact h.execFunction hs.1 hs.2
  | ret keyword value =>
      cases value with
      | none => exact h.renames (.returning .nil) trivial
      | some e =>
          have hpushed := h.push (f := .ret) trivial
          exact hpushed.renames (.eval e) (hs e rfl)
  | classDecl name superclass methods =>
      obtain ⟨hname, hkept, habove, hmethods⟩ := hs
      rw [Stmt.rename, Function.renameAll_eq_map]
      cases superclass with
      | none => exact h.declareClass hname hkept none hmethods
      | some above =>
          have hpushed := h.push (f := .superclass name above methods) ⟨hname, hkept, hmethods⟩
          exact hpushed.renames (.eval (.variable above)) (habove above rfl)

theorem execAll (h : r.Fits t M marks st fs) {body : List Stmt}
    (hbody : Stmt.SpelledAll r t marks body) :
    Config.Renames r t (st.execAll fs body)
      ((st.rename r M).execAll (fs.map (Frame.rename r)) (body.map (Stmt.rename r))) := by
  cases body with
  | nil => exact h.give .nil
  | cons s body =>
      have hpushed := h.push (f := .rest body) hbody.2
      exact hpushed.renames (.exec s) hbody.1

theorem continueProgram (h : r.Fits t M marks st fs) {p : Program}
    (hp : Stmt.SpelledAll r t marks p) :
    Config.Renames r t (st.continueProgram fs p)
      ((st.rename r M).continueProgram (fs.map (Frame.rename r)) (p.map (Stmt.rename r))) := by
  cases p with
  | nil => exact h.give .nil
  | cons s p =>
      have hpushed := h.push (f := .program p) hp.2
      exact hpushed.renames (.exec s) hp.1

/-! ## Frames -/

/-- A property is read under the name that it has. -/
theorem giveProperty (h : r.Fits t M marks st fs) (v : Value) {property : Name}
    (hproperty : property.Kept r) :
    Config.Renames r t (st.giveProperty v property fs)
      ((st.rename r M).giveProperty v (property.rename r) (fs.map (Frame.rename r))) := by
  cases v with
  | instanceRef object =>
      have hrename : (st.rename r M).store.property object (property.rename r) =
          (st.store.property object property).map (Heap.Property.rename r) :=
        Store.property_rename r M st.store object hproperty
      rw [State.giveProperty, State.giveProperty, hrename]
      cases hfound : st.store.property object property with
      | error e => exact h.failing (.same e)
      | ok found =>
          cases found with
          | field v => exact h.give v
          | method m =>
              obtain ⟨cls, -, hm⟩ := Heap.method?_of_property hfound
              exact h.giveBound (h.store.method? hm) object
  | _ => exact h.fail _ property.line

/-- A variable is assigned in the environment that binds it, or is not bound. -/
theorem resumeAssign (h : r.Fits t M marks st fs) (v : Value) {name : Name}
    (hname : name.SpelledIn r marks (t.hops? name)) :
    Config.Renames r t (st.resume ⟨t, clock⟩ fs v (.assign name))
      ((st.rename r M).resume ⟨t, clock⟩ (fs.map (Frame.rename r)) v
        ((Frame.assign name).rename r)) := by
  have hbinder := h.binder_rename clock hname
  rw [Frame.rename, State.resume, State.resume]
  generalize hresult : st.binder ⟨t, clock⟩ name = result,
    (st.rename r M).binder ⟨t, clock⟩ (name.rename r) = result' at hbinder
  cases hbinder with
  | error herror => exact h.failing herror
  | ok a =>
      have hdefined := h.keep (.define st.store M a name.text v) rfl rfl
      have hdefine := Store.define_rename r M st.store a name.text v
      rw [← h.text_of_binder hname hresult] at hdefine
      have hstore : (st.rename r M).store.define a (name.rename r).text v =
          (st.store.define a name.text v).rename r M := hdefine
      simp only [id, hstore]
      exact hdefined.give v

/-- A frame that keeps no environment takes the value that it waits for. -/
theorem resume (h : r.Fits t M marks st fs) (v : Value) (hf : f.Spelled r t marks) :
    Config.Renames r t (st.resume ⟨t, clock⟩ fs v f)
      ((st.rename r M).resume ⟨t, clock⟩ (fs.map (Frame.rename r)) v (f.rename r)) := by
  cases f with
  | unary op line => exact h.giveOrFail line _
  | binaryLeft op line right =>
      have hpushed := h.push (f := .binaryRight op line v) trivial
      exact hpushed.renames (.eval right) hf
  | binaryRight op line left => exact h.giveOrFail line _
  | logical op right =>
      rw [Frame.rename, State.resume, State.resume]
      split
      · exact h.give v
      · exact h.renames (.eval right) hf
  | assign name => exact h.resumeAssign v hf
  | callee arguments line => exact h.evalArguments v [] line hf
  | argument callee before after line => exact h.evalArguments callee (v :: before) line hf
  | get property => exact h.giveProperty v hf
  | setObject property value =>
      cases v with
      | instanceRef i =>
          have hpushed := h.push (f := .setValue i property) hf.1
          exact hpushed.renames (.eval value) hf.2
      | _ => exact h.fail _ property.line
  | setValue object property =>
      have htext : (property.rename r).text = property.text := hf
      have hset : r.Fits t M marks
          { st with store := st.store.setField object property.text v } fs :=
        h.keep (.of_heap _) rfl rfl
      rw [Frame.rename, State.resume, State.resume, htext]
      exact hset.give v
  | print =>
      have htext : (st.rename r M).store.text v = st.store.text v :=
        Store.text_rename r M st.store h.store.kept_name v
      have hprinted : r.Fits t M marks
          { st with output := st.output ++ st.store.text v ++ "\n" } fs :=
        ⟨h.ordinary, h.store, h.env, h.frames⟩
      rw [Frame.rename, State.resume, State.resume, htext]
      exact hprinted.give .nil
  | var name =>
      rw [Frame.rename, State.resume, State.resume, h.define_rename hf]
      exact (h.define name.text v).give _
  | ret => exact h.renames (.returning v) trivial
  | branch yes no =>
      simp only [Frame.rename, State.resume]
      split
      · exact h.renames (.exec yes) hf.1
      · cases no with
        | none => exact h.give _
        | some no => exact h.renames (.exec no) (hf.2 no rfl)
  | loopTest condition body =>
      rw [Frame.rename, State.resume, State.resume]
      split
      · have hpushed := h.push (f := .loopBody condition body) hf
        exact hpushed.renames (.exec body) hf.2
      · exact h.give _
  | loopBody condition body =>
      have hpushed := h.push (f := .loopTest condition body) hf
      exact hpushed.renames (.eval condition) hf.1
  | superclass name superclass methods =>
      cases v with
      | classRef above => exact h.declareClass hf.1 hf.2.1 (some above) hf.2.2
      | _ => exact h.fail _ superclass.line
  | rest body => exact h.renames (.execAll body) hf
  | program rest => exact h.continueProgram hf
  | scope | call => exact hf.elim

/-- Leaving a frame goes back to an environment that is marked as it was there. -/
theorem leave (h : r.Fits t M marks st (f :: fs)) :
    ∃ around, r.Fits t M around (f.leave st) fs ∧
      (f.rename r).leave (st.rename r M) = (f.leave st).rename r M := by
  obtain ⟨hordinary, hstore, henv, hframes⟩ := h
  cases hframes with
  | plain hf hfs =>
      cases f with
      | scope | call => exact hf.elim
      | _ => exact ⟨marks, ⟨hordinary, hstore, henv, hfs⟩, rfl⟩
  | scope marks hmarked hfs => exact ⟨_, ⟨hordinary, hstore, hmarked, hfs⟩, rfl⟩
  | call marks yield hmarked hfs => exact ⟨_, ⟨hordinary, hstore, hmarked, hfs⟩, rfl⟩

/-- A frame that keeps no environment is taken off. -/
theorem plain (h : r.Fits t M marks st (f :: fs)) (hf : f.isPlain = true) :
    f.Spelled r t marks ∧ r.Fits t M marks st fs := by
  obtain ⟨hspelled, hfs⟩ := h.frames.of_isPlain hf
  exact ⟨hspelled, h.ordinary, h.store, h.env, hfs⟩

/-- A call gives the same: `this` is found where it was. -/
theorem yielded_rename (h : r.Fits t M marks st fs) (yield : Yield EnvId) (v : Value) :
    (st.rename r M).yielded yield v = st.yielded yield v := by
  cases yield with
  | receiver e =>
      have hlookup := Store.lookupIn?_rename r M st.store e "this"
      rw [h.ordinary.swap_this] at hlookup
      exact congrArg (Option.getD · Value.nil) hlookup
  | _ => rfl

/-- The top frame takes a value. A block or a call goes back to the environment that it keeps. -/
theorem resumeTop (h : r.Fits t M marks st (f :: fs)) (v : Value) :
    Config.Renames r t (st.resume ⟨t, clock⟩ fs v f)
      ((st.rename r M).resume ⟨t, clock⟩ (fs.map (Frame.rename r)) v (f.rename r)) := by
  obtain ⟨around, hleft, hleave⟩ := h.leave
  cases f with
  | scope outer => exact hleft.give v
  | call caller yield =>
      simp only [State.resume, Frame.rename, h.yielded_rename]
      exact hleft.give _
  | _ =>
      obtain ⟨hspelled, hrest⟩ := h.plain rfl
      exact hrest.resume v hspelled

theorem unwindReturn (h : r.Fits t M marks st (f :: fs)) (v : Value) :
    Config.Renames r t (st.unwindReturn fs v f)
      ((st.rename r M).unwindReturn (fs.map (Frame.rename r)) v (f.rename r)) := by
  obtain ⟨around, hleft, hleave⟩ := h.leave
  cases f with
  | call caller yield =>
      simp only [State.unwindReturn, Frame.rename, h.yielded_rename]
      exact hleft.give _
  | program rest =>
      obtain ⟨hspelled, hrest⟩ := h.plain rfl
      exact hrest.continueProgram hspelled
  | _ => exact hleft.renames (.returning v) trivial

theorem unwindError (h : r.Fits t M marks st (f :: fs)) {e e' : RuntimeError}
    (he : e.Renames r e') :
    Config.Renames r t (st.unwindError fs e f)
      ((st.rename r M).unwindError (fs.map (Frame.rename r)) e' (f.rename r)) := by
  obtain ⟨around, hleft, hleave⟩ := h.leave
  rw [State.unwindError, State.unwindError, hleave]
  exact hleft.failing he

end Fits

end Renaming

/-! ## Runs -/

namespace Config

variable {r : Renaming} {t : BindingTable} {c c' : Config}

/-- A step of the renamed configuration is the step, renamed. -/
theorem Renames.step (clock : Nat → Float) (h : c.Renames r t c') :
    (c.step ⟨t, clock⟩).Renames r t (c'.step ⟨t, clock⟩) := by
  obtain @⟨M, marks, control, control', fs, st, hfits, hcontrol, hrenames⟩ := h
  cases hrenames with
  | failing he =>
      cases fs with
      | nil => exact hfits.failing he
      | cons f fs => exact hfits.unwindError he
  | same =>
      cases control with
      | eval e => exact hfits.eval hcontrol
      | exec s => exact hfits.exec hcontrol
      | execAll body => exact hfits.execAll hcontrol
      | give v =>
          cases fs with
          | nil => exact hfits.give v
          | cons f fs => exact hfits.resumeTop v
      | returning v =>
          cases fs with
          | nil => exact hfits.renames (.returning v) trivial
          | cons f fs => exact hfits.unwindReturn v
      | failing e =>
          cases fs with
          | nil => exact hfits.failing (.same e)
          | cons f fs => exact hfits.unwindError (.same e)

/-- So is a run. -/
theorem Renames.run (clock : Nat → Float) (h : c.Renames r t c') (steps : Nat) :
    (c.run ⟨t, clock⟩ steps).Renames r t (c'.run ⟨t, clock⟩ steps) := by
  induction steps with
  | zero => exact h
  | succ steps ih =>
      rw [run_succ_eq_step, run_succ_eq_step]
      exact ih.step clock

end Config

end Lox
