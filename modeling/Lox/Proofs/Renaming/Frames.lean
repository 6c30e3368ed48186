import Lox.Machine.Step
import Lox.Proofs.Renaming.Marked

set_option autoImplicit false

/-! # Renamed configurations

All code that is running or waits gets the spellings of the environment that it will run in
(`Renaming.Fits`). Then a variable is found where it was. If it is not bound, the message has the
spelling that it has now (`RuntimeError.Renames`): an assignment to a variable in its own
initializer fails with its name.
-/

namespace Lox

/-! ## Configurations -/

/-- The error is the same, or it is that of a variable which has another name now. -/
inductive RuntimeError.Renames (r : Renaming) : RuntimeError → RuntimeError → Prop
  | same (e : RuntimeError) : Renames r e e
  | unbound (line : Nat) : Renames r ⟨.unbound r.old, line⟩ ⟨.unbound r.new, line⟩

/-- What is looked up is found in both, or both fail. -/
inductive Renaming.Results (r : Renaming) {α : Type} (g : α → α) :
    Except RuntimeError α → Except RuntimeError α → Prop
  | ok (a : α) : Results r g (.ok a) (.ok (g a))
  | error {e e' : RuntimeError} (h : e.Renames r e') : Results r g (.error e) (.error e')

/-- A variable that is not bound is not bound under its other name. -/
theorem Name.renames_unbound (r : Renaming) (n : Name) :
    RuntimeError.Renames r ⟨.unbound n.text, n.line⟩ ⟨.unbound (n.rename r).text, n.line⟩ := by
  rcases n.rename_text_cases r with hsame | ⟨hold, hnew⟩
  · rw [hsame]
    exact .same _
  · rw [hold, hnew]
    exact .unbound n.line

section Rename

variable (r : Renaming)

/-- What waits, with renamed code. -/
def Frame.rename : Frame EnvId → Frame EnvId
  | .unary op line => .unary op line
  | .binaryLeft op line right => .binaryLeft op line (right.rename r)
  | .binaryRight op line left => .binaryRight op line left
  | .logical op right => .logical op (right.rename r)
  | .assign name => .assign (name.rename r)
  | .callee arguments line => .callee (arguments.map (Expr.rename r)) line
  | .argument function before after line =>
    .argument function before (after.map (Expr.rename r)) line
  | .get property => .get (property.rename r)
  | .setObject property value => .setObject (property.rename r) (value.rename r)
  | .setValue object property => .setValue object (property.rename r)
  | .print => .print
  | .var name => .var (name.rename r)
  | .ret => .ret
  | .branch yes no => .branch (yes.rename r) (no.map (Stmt.rename r))
  | .loopTest condition body => .loopTest (condition.rename r) (body.rename r)
  | .loopBody condition body => .loopBody (condition.rename r) (body.rename r)
  | .superclass name above methods =>
    .superclass (name.rename r) (above.rename r) (methods.map (Function.rename r))
  | .rest body => .rest (body.map (Stmt.rename r))
  | .scope outer => .scope outer
  | .call caller yield => .call caller yield
  | .program body => .program (body.map (Stmt.rename r))

/-- What is to be done now, with renamed code. -/
def Control.rename : Control → Control
  | .eval e => .eval (e.rename r)
  | .exec s => .exec (s.rename r)
  | .execAll body => .execAll (body.map (Stmt.rename r))
  | .give v => .give v
  | .returning v => .returning v
  | .failing e => .failing e

/-- The state with renamed code and environments. -/
def State.rename (M : Marking) (st : State) : State := { st with store := st.store.rename r M }

end Rename

section Judgement

variable (r : Renaming) (t : BindingTable)

/-- The code of a frame that keeps no environment gets the spellings of its scopes. -/
def Frame.Spelled (marks : Marks) : Frame EnvId → Prop
  | .binaryLeft _ _ e | .logical _ e => e.Spelled r t marks
  | .setObject property e => property.Kept r ∧ e.Spelled r t marks
  | .get property | .setValue _ property => property.Kept r
  | .assign name => name.SpelledIn r marks (t.hops? name)
  | .callee es _ | .argument _ _ es _ => Expr.SpelledAll r t marks es
  | .var name => name.SpelledIn r marks (some 0)
  | .branch yes no => yes.Spelled r t marks ∧ ∀ s ∈ no, s.Spelled r t marks
  | .loopTest condition body | .loopBody condition body =>
    condition.Spelled r t marks ∧ body.Spelled r t marks
  | .superclass name _ methods =>
    name.SpelledIn r marks (some 0) ∧ name.Kept r ∧
      Function.SpelledAll r t (false :: false :: marks) methods
  | .rest body | .program body => Stmt.SpelledAll r t marks body
  | .scope _ | .call _ _ => False
  | .unary _ _ | .binaryRight _ _ _ | .print | .ret => True

/-- The code that is to be run now gets the spellings of its scopes. -/
def Control.Spelled (marks : Marks) : Control → Prop
  | .eval e => e.Spelled r t marks
  | .exec s => s.Spelled r t marks
  | .execAll body => Stmt.SpelledAll r t marks body
  | .give _ | .returning _ | .failing _ => True

namespace Renaming

/-- What waits gets the spellings of the environments in which it will run. -/
inductive FitsFrames (st : Store) (M : Marking) : Marks → List (Frame EnvId) → Prop
  | nil (marks : Marks) : FitsFrames st M marks []
  | plain {marks : Marks} {f : Frame EnvId} {fs : List (Frame EnvId)}
      (hf : f.Spelled r t marks) (hfs : FitsFrames st M marks fs) :
      FitsFrames st M marks (f :: fs)
  | scope (marks : Marks) {around : Marks} {outer : EnvId} {fs : List (Frame EnvId)}
      (hmarked : st.Marked M outer around) (hfs : FitsFrames st M around fs) :
      FitsFrames st M marks (.scope outer :: fs)
  | call (marks : Marks) {around : Marks} {caller : EnvId} (yield : Yield EnvId)
      {fs : List (Frame EnvId)} (hmarked : st.Marked M caller around)
      (hfs : FitsFrames st M around fs) : FitsFrames st M marks (.call caller yield :: fs)

/-- All code gets the spellings of its environments, of which the current one is marked so. -/
structure Fits (M : Marking) (marks : Marks) (st : State) (fs : List (Frame EnvId)) : Prop where
  ordinary : r.Ordinary
  store : st.store.Spelled r t M
  env : st.store.Marked M st.env marks
  frames : FitsFrames r t st.store M marks fs

end Renaming

/-- The control is renamed, but an error may be one of an unbound variable. -/
inductive Control.Renames : Control → Control → Prop
  | same (control : Control) : Renames control (control.rename r)
  | failing {e e' : RuntimeError} (h : e.Renames r e') : Renames (.failing e) (.failing e')

/-- The second configuration is the first one, renamed. -/
inductive Config.Renames : Config → Config → Prop
  | mk {M : Marking} {marks : Marks} {control control' : Control} {fs : List (Frame EnvId)}
      {st : State} (hfits : r.Fits t M marks st fs) (hcontrol : control.Spelled r t marks)
      (hrenames : control.Renames r control') :
      Renames ⟨control, fs, st⟩ ⟨control', fs.map (Frame.rename r), st.rename r M⟩

end Judgement

theorem Function.spelledAll_iff {r : Renaming} {t : BindingTable} {marks : Marks}
    {fs : List Function} : Function.SpelledAll r t marks fs ↔ ∀ f ∈ fs, f.Spelled r t marks := by
  induction fs with
  | nil => simp [Function.SpelledAll]
  | cons f fs ih => rw [Function.SpelledAll, List.forall_mem_cons, ih]

/-! ## Variables -/

namespace Store

variable {r : Renaming} {t : BindingTable} {st : Store} {M : Marking} {e : EnvId} {marks : Marks}

/-- A new environment makes no difference to those that there are. -/
theorem rename_add (mark : Bool) : st.rename r (M.add st mark) = st.rename r M := by
  refine st.rename_congr r fun e he => ?_
  rw [Marking.add, Function.update_of_ne (Nat.ne_of_lt he)]

/-- A variable some links out has the value that it had under its other name. -/
theorem Spelled.getAt?_rename (h : st.Spelled r t M) (he : st.Marked M e marks) (hops : Nat)
    (name : String) :
    (st.rename r M).getAt? e hops (r.swap (marks.isMarked (some hops)) name) =
      st.getAt? e hops name := by
  rw [getAt?, getAt?, ancestor?_rename]
  cases ha : st.ancestor? e hops with
  | none => rfl
  | some a =>
      rw [← he.isMarked_of_ancestor? h.globalTop h.globalMark ha]
      exact lookupIn?_rename r M st a name

/-- It is bound in the same environment, which is marked as it is. -/
theorem Spelled.binderAt?_rename (h : st.Spelled r t M) (he : st.Marked M e marks) (hops : Nat)
    (name : String) :
    (st.rename r M).binderAt? e hops (r.swap (marks.isMarked (some hops)) name) =
        st.binderAt? e hops name ∧
      ∀ a ∈ st.binderAt? e hops name, M a = marks.isMarked (some hops) := by
  rw [binderAt?, binderAt?, ancestor?_rename]
  cases ha : st.ancestor? e hops with
  | none => exact ⟨rfl, nofun⟩
  | some a =>
      have hmark := he.isMarked_of_ancestor? h.globalTop h.globalMark ha
      simp only [← hmark, lookupIn?_rename]
      refine ⟨trivial, fun a' ha' => ?_⟩
      split at ha'
      · cases ha'
        rfl
      · cases ha'

/-- Nothing is renamed in the global environment. -/
theorem Spelled.lookupIn?_global (h : st.Spelled r t M) (name : String) :
    (st.rename r M).lookupIn? globalEnv name = st.lookupIn? globalEnv name := by
  have hlookup := lookupIn?_rename r M st globalEnv name
  rwa [h.globalMark, r.swap_false] at hlookup

theorem Spelled.binder?_global (h : st.Spelled r t M) (name : String) :
    (st.rename r M).binder? globalEnv name = st.binder? globalEnv name := by
  have htop : (st.rename r M).enclosing? globalEnv = none := by rw [enclosing?_rename, h.globalTop]
  rw [binder?_of_enclosing?_eq_none _ _ _ htop, binder?_of_enclosing?_eq_none _ _ _ h.globalTop,
    h.lookupIn?_global]

theorem Spelled.get?_global (h : st.Spelled r t M) (name : String) :
    (st.rename r M).get? globalEnv name = st.get? globalEnv name := by
  have htop : (st.rename r M).enclosing? globalEnv = none := by rw [enclosing?_rename, h.globalTop]
  rw [get?_of_enclosing?_eq_none _ _ _ htop, get?_of_enclosing?_eq_none _ _ _ h.globalTop,
    h.lookupIn?_global]

end Store

namespace Renaming.Fits

variable {r : Renaming} {t : BindingTable} {M : Marking} {marks : Marks}
  {st : State} {f : Frame EnvId} {fs : List (Frame EnvId)}

/-- A reference is read as before. -/
theorem read_rename (h : r.Fits t M marks st fs) (clock : Nat → Float) {name : Name}
    (hn : name.SpelledIn r marks (t.hops? name)) :
    r.Results id (st.read ⟨t, clock⟩ name) ((st.rename r M).read ⟨t, clock⟩ (name.rename r)) := by
  have hhops' : t.hops? (name.rename r) = t.hops? name := rfl
  have htext : (name.rename r).text = r.swap (marks.isMarked (t.hops? name)) name.text := hn
  simp only [State.read, hhops']
  cases hhops : t.hops? name with
  | none =>
      rw [hhops, Marks.isMarked_none, r.swap_false] at htext
      have hget : (st.rename r M).store.get? globalEnv name.text =
          st.store.get? globalEnv name.text := h.store.get?_global name.text
      simp only [Store.get, htext, hget, Name.rename_line]
      cases st.store.get? globalEnv name.text with
      | none => exact .error (.same _)
      | some v => exact .ok v
  | some hops =>
      have hgetAt := h.store.getAt?_rename h.env hops name.text
      rw [hhops] at htext
      rw [← htext] at hgetAt
      simp only [State.rename, hgetAt]
      cases st.store.getAt? st.env hops name.text with
      | none => exact .error (name.renames_unbound r)
      | some v => exact .ok v

/-- The environment that binds a variable is the same. -/
theorem binder_rename (h : r.Fits t M marks st fs) (clock : Nat → Float) {name : Name}
    (hn : name.SpelledIn r marks (t.hops? name)) :
    r.Results id (st.binder ⟨t, clock⟩ name)
      ((st.rename r M).binder ⟨t, clock⟩ (name.rename r)) := by
  have hhops' : t.hops? (name.rename r) = t.hops? name := rfl
  have htext : (name.rename r).text = r.swap (marks.isMarked (t.hops? name)) name.text := hn
  simp only [State.binder, hhops']
  cases hhops : t.hops? name with
  | none =>
      rw [hhops, Marks.isMarked_none, r.swap_false] at htext
      have hbinder : (st.rename r M).store.binder? globalEnv name.text =
          st.store.binder? globalEnv name.text := h.store.binder?_global name.text
      simp only [htext, hbinder, Name.rename_line]
      cases st.store.binder? globalEnv name.text with
      | none => exact .error (.same _)
      | some a => exact .ok a
  | some hops =>
      have hbinder := (h.store.binderAt?_rename h.env hops name.text).1
      rw [hhops] at htext
      rw [← htext] at hbinder
      simp only [State.rename, hbinder]
      cases st.store.binderAt? st.env hops name.text with
      | none => exact .error (name.renames_unbound r)
      | some a => exact .ok a

/-- The variable is renamed as the environment that binds it. -/
theorem text_of_binder (h : r.Fits t M marks st fs) {clock : Nat → Float} {name : Name}
    (hn : name.SpelledIn r marks (t.hops? name)) {a : EnvId}
    (ha : st.binder ⟨t, clock⟩ name = .ok a) :
    (name.rename r).text = r.swap (M a) name.text := by
  have htext : (name.rename r).text = r.swap (marks.isMarked (t.hops? name)) name.text := hn
  simp only [State.binder] at ha
  cases hhops : t.hops? name with
  | none =>
      cases hfound : st.store.binder? globalEnv name.text with
      | none =>
          simp only [hhops, hfound] at ha
          cases ha
      | some b =>
          simp only [hhops, hfound] at ha
          cases ha
          rw [Store.binder?_of_enclosing?_eq_none _ _ _ h.store.globalTop,
            Option.ite_none_right_eq_some] at hfound
          rw [htext, hhops, ← Option.some.inj hfound.2, h.store.globalMark, Marks.isMarked_none]
  | some hops =>
      cases hfound : st.store.binderAt? st.env hops name.text with
      | none =>
          simp only [hhops, hfound] at ha
          cases ha
      | some b =>
          simp only [hhops, hfound] at ha
          cases ha
          rw [htext, hhops, (h.store.binderAt?_rename h.env hops name.text).2 a hfound]

/-- The method that `super` names is the same one, with its code renamed. -/
theorem superMethod_rename (h : r.Fits t M marks st fs) (clock : Nat → Float)
    {keyword method : Name} (hkeyword : keyword.SpelledIn r marks (t.hops? keyword))
    (hmethod : method.Kept r) :
    r.Results (fun found : Closure EnvId × InstanceId => (found.1.rename r, found.2))
      (st.superMethod ⟨t, clock⟩ keyword method)
      ((st.rename r M).superMethod ⟨t, clock⟩ (keyword.rename r) (method.rename r)) := by
  have hhops' : t.hops? (keyword.rename r) = t.hops? keyword := rfl
  have htext : (method.rename r).text = method.text := hmethod
  have hmethods : ∀ cls name, (st.rename r M).store.method? cls name =
      (st.store.method? cls name).map (Closure.rename r) := fun cls name =>
    Store.method?_rename r M st.store cls name
  -- Neither `this` nor `super` is renamed in any environment.
  have hgetAt : ∀ (hops : Nat) (name : String), (∀ mark, r.swap mark name = name) →
      (st.rename r M).store.getAt? (st.rename r M).env hops name =
        st.store.getAt? st.env hops name := by
    intro hops name hname
    have hsame := h.store.getAt?_rename h.env hops name
    rwa [hname] at hsame
  simp only [State.superMethod, hhops', htext]
  cases hhops : t.hops? keyword with
  | none =>
      have hsame : (keyword.rename r).text =
          r.swap (marks.isMarked (t.hops? keyword)) keyword.text := hkeyword
      rw [hhops, Marks.isMarked_none, r.swap_false] at hsame
      rw [hsame]
      exact .error (.same _)
  | some hops =>
      simp only [hgetAt _ _ h.ordinary.swap_super, hgetAt _ _ h.ordinary.swap_this, hmethods]
      cases st.store.getAt? st.env hops "super" with
      | none => exact .error (keyword.renames_unbound r)
      | some above =>
          cases above with
          | classRef above =>
              simp only
              cases (if hops = 0 then none else st.store.getAt? st.env (hops - 1) "this") with
              | none => exact .error (.same _)
              | some object =>
                  cases object with
                  | instanceRef object =>
                      simp only
                      cases st.store.method? above method.text with
                      | none => exact .error (.same _)
                      | some m => exact .ok (m, object)
                  | _ => exact .error (.same _)
          | _ => exact .error (keyword.renames_unbound r)

end Renaming.Fits

end Lox
