import Lox.Proofs.Lexical.Stack

set_option autoImplicit false

/-! # What is visible and what is in scope

A view has the variables that are visible, and says whether a declaration would make a local
variable. What declares nothing itself runs in the same way in two views with the same variables
(`Rebased`); and when it has ended, the view is again the one that it started in
(`Rebased.stepOwn` with the same view twice).

A block or a call that it starts has frames of its own above the one that keeps the view, so up to
the end of the block or call both runs are the same.
-/

namespace Lox

/-- A statement that declares nothing, except in blocks of its own. -/
def Stmt.DeclaresNothing : Stmt → Prop
  | .var .. | .function _ | .classDecl .. => False
  | .branch _ yes none => yes.DeclaresNothing
  | .branch _ yes (some no) => yes.DeclaresNothing ∧ no.DeclaresNothing
  | .loop _ body => body.DeclaresNothing
  | .expression _ | .print _ | .block _ | .ret .. => True

namespace Lexical

/-- What is to be done declares nothing in the current view. -/
def ControlDeclaresNothing : Control → Prop
  | .exec s => s.DeclaresNothing
  | .execAll _ => False
  | .eval _ | .give _ | .returning _ | .failing _ => True

/-- A frame that keeps no view, and goes on with nothing that declares. -/
def FrameDeclaresNothing : Frame View → Prop
  | .branch yes no => yes.DeclaresNothing ∧ ∀ s ∈ no, s.DeclaresNothing
  | .loopTest _ body | .loopBody _ body => body.DeclaresNothing
  | .var _ | .superclass .. | .rest _ | .scope _ | .call .. | .program _ => False
  | .unary .. | .binaryLeft .. | .binaryRight .. | .logical .. | .assign _ | .callee ..
  | .argument .. | .get _ | .setObject .. | .setValue .. | .print | .ret => True

/-- The second configuration is the first one with a view `v'` in place of the view `v`, which
nothing is declared in. -/
inductive Rebased (v v' : View) : Config → Config → Prop
  | base {control : Control} {frames : List (Frame View)} {store : Store} {calls : Nat}
      {output : String} {ticks : Nat} (hcontrol : ControlDeclaresNothing control)
      (hframes : ∀ f ∈ frames, FrameDeclaresNothing f) :
      Rebased v v' ⟨control, frames, ⟨store, v, calls, output, ticks⟩⟩
        ⟨control, frames, ⟨store, v', calls, output, ticks⟩⟩
  /-- In a block that goes back to the view. -/
  | block (c : Config) {frames : List (Frame View)}
      (hframes : ∀ f ∈ frames, FrameDeclaresNothing f) :
      Rebased v v' (c.under (.scope v :: frames)) (c.under (.scope v' :: frames))
  /-- In a call that goes back to the view. -/
  | call (c : Config) (yield : Yield View) {frames : List (Frame View)}
      (hframes : ∀ f ∈ frames, FrameDeclaresNothing f) :
      Rebased v v' (c.under (.call v yield :: frames)) (c.under (.call v' yield :: frames))

namespace Rebased

variable {v v' : View} {c c' : Config} {frames : List (Frame View)} {store : Store} {calls : Nat}
  {output : String} {ticks : Nat} {own : List Name} {clock : Nat → Float}

/-- What has ended has ended in the view. -/
theorem of_frames_eq_nil (h : Rebased v v' c c') (hframes : c.frames = []) :
    ∃ (control : Control) (st : State), c = ⟨control, [], { st with view := v }⟩ ∧
      c' = ⟨control, [], { st with view := v' }⟩ := by
  cases h with
  | @base control frames store calls output ticks =>
      cases hframes
      exact ⟨control, ⟨store, v, calls, output, ticks⟩, rfl, rfl⟩
  | block c =>
      exact absurd hframes (List.append_ne_nil_of_right_ne_nil _ (List.cons_ne_nil _ _))
  | call c =>
      exact absurd hframes (List.append_ne_nil_of_right_ne_nil _ (List.cons_ne_nil _ _))

theorem output_eq (h : Rebased v v' c c') : c'.state.output = c.state.output := by
  cases h <;> rfl

theorem isFinished_eq (h : Rebased v v' c c') : c'.isFinished = c.isFinished := by
  have hunder : ∀ (c : Config) (f f' : Frame View) (frames : List (Frame View)),
      (c.under (f' :: frames)).isFinished = (c.under (f :: frames)).isFinished := by
    intro c f f' frames
    obtain ⟨control, above, st⟩ := c
    cases control <;> cases above <;> rfl
  cases h with
  | base => rfl
  | block c => exact hunder ..
  | call c => exact hunder ..

/-! ## Steps in the view -/

section

variable (hframes : ∀ f ∈ frames, FrameDeclaresNothing f)

include hframes

theorem give (u : Value) :
    Rebased v v' (State.give ⟨store, v, calls, output, ticks⟩ u frames)
      (State.give ⟨store, v', calls, output, ticks⟩ u frames) :=
  .base trivial hframes

theorem fail (cause : RuntimeError.Cause) (line : Nat) :
    Rebased v v' (State.fail ⟨store, v, calls, output, ticks⟩ cause line frames)
      (State.fail ⟨store, v', calls, output, ticks⟩ cause line frames) :=
  .base trivial hframes

theorem eval (e : Expr) {f : Frame View} (hf : FrameDeclaresNothing f) :
    Rebased v v' ⟨.eval e, f :: frames, ⟨store, v, calls, output, ticks⟩⟩
      ⟨.eval e, f :: frames, ⟨store, v', calls, output, ticks⟩⟩ :=
  .base trivial (List.forall_mem_cons.2 ⟨hf, hframes⟩)

theorem giveOrFail (line : Nat) (result : Except RuntimeError.Cause Value) :
    Rebased v v' (State.giveOrFail ⟨store, v, calls, output, ticks⟩ line frames result)
      (State.giveOrFail ⟨store, v', calls, output, ticks⟩ line frames result) := by
  cases result with
  | ok u => exact .give hframes u
  | error cause => exact .fail hframes cause line

/-- The body of a function sees what the function is closed over. -/
theorem enter (m : Closure View) (arguments : List Value) (yield : Yield View) :
    Rebased v v' (State.enter ⟨store, v, calls, output, ticks⟩ m arguments yield frames)
      (State.enter ⟨store, v', calls, output, ticks⟩ m arguments yield frames) :=
  .call ⟨.execAll m.decl.body, [],
    State.declareAll ⟨store, m.env.enter, calls + 1, output, ticks⟩
      ((m.decl.parameters.map Name.text).zip arguments)⟩ yield hframes

theorem callValue (callee : Value) (arguments : List Value) (line : Nat) :
    Rebased v v' (State.call ⟨store, v, calls, output, ticks⟩ clock callee arguments line frames)
      (State.call ⟨store, v', calls, output, ticks⟩ clock callee arguments line frames) := by
  rw [State.call, State.call]
  cases store.arity? callee with
  | none => exact .fail hframes _ line
  | some arity =>
      dsimp only
      split
      · exact .fail hframes _ line
      · split
        · exact .fail hframes _ line
        · cases callee with
          | nativeRef n =>
              rw [State.invoke, State.invoke]
              cases store.natives[n]? with
              | none => exact .fail hframes _ line
              | some native => cases native; exact .give hframes _
          | functionRef f =>
              rw [State.invoke, State.invoke]
              cases store.functions[f]? with
              | none => exact .fail hframes _ line
              | some m => exact .enter hframes m arguments _
          | classRef cls =>
              rw [State.invoke, State.invoke, State.instantiate, State.instantiate]
              cases store.initializer? cls with
              | none => exact .give hframes _
              | some m => exact .enter hframes _ arguments _
          | _ => exact .fail hframes _ line

theorem evalArguments (callee : Value) (before : List Value) (after : List Expr) (line : Nat) :
    Rebased v v'
      (State.evalArguments ⟨store, v, calls, output, ticks⟩ clock callee before after line frames)
      (State.evalArguments ⟨store, v', calls, output, ticks⟩ clock callee before after line
        frames) := by
  cases after with
  | nil => exact .callValue hframes callee _ line
  | cons e es => exact .eval hframes e trivial

theorem giveProperty (object : Value) (property : Name) :
    Rebased v v' (State.giveProperty ⟨store, v, calls, output, ticks⟩ object property frames)
      (State.giveProperty ⟨store, v', calls, output, ticks⟩ object property frames) := by
  cases object with
  | instanceRef i =>
      rw [State.giveProperty, State.giveProperty]
      cases store.property i property with
      | error e => exact .base trivial hframes
      | ok p => exact .give hframes _
  | _ => exact .fail hframes _ property.line

end

section

variable (hcells : v'.cells = v.cells) (hframes : ∀ f ∈ frames, FrameDeclaresNothing f)

include hcells

theorem cell?_eq (name : String) : v'.cell? name = v.cell? name := by
  rw [View.cell?, View.cell?, hcells]

theorem enter_eq : v'.enter = v.enter := by
  rw [View.enter, View.enter, hcells]

include hframes

theorem read (name : Name) :
    Rebased v v' (State.eval ⟨store, v, calls, output, ticks⟩ frames (.variable name))
      (State.eval ⟨store, v', calls, output, ticks⟩ frames (.variable name)) := by
  have hread : State.read ⟨store, v', calls, output, ticks⟩ name =
      State.read ⟨store, v, calls, output, ticks⟩ name := by
    rw [State.read, State.read, cell?_eq hcells]
  rw [State.eval, State.eval, hread]
  cases State.read ⟨store, v, calls, output, ticks⟩ name with
  | ok u => exact .give hframes u
  | error e => exact .base trivial hframes

theorem evalStep (e : Expr) :
    Rebased v v' (State.eval ⟨store, v, calls, output, ticks⟩ frames e)
      (State.eval ⟨store, v', calls, output, ticks⟩ frames e) := by
  cases e with
  | literal l => exact .give hframes _
  | grouping inner => exact .base trivial hframes
  | «variable» name => exact read hcells hframes name
  -- `this` is read as a variable is.
  | this keyword => exact read hcells hframes keyword
  | super keyword method =>
      have hmethod : State.superMethod ⟨store, v', calls, output, ticks⟩ keyword method =
          State.superMethod ⟨store, v, calls, output, ticks⟩ keyword method := by
        rw [State.superMethod, State.superMethod, cell?_eq hcells, cell?_eq hcells]
      rw [State.eval, State.eval, hmethod]
      cases State.superMethod ⟨store, v, calls, output, ticks⟩ keyword method with
      | ok found => exact .give hframes _
      | error e => exact .base trivial hframes
  | _ => exact .eval hframes _ trivial

theorem execStep {s : Stmt} (hs : s.DeclaresNothing) :
    Rebased v v' (State.exec ⟨store, v, calls, output, ticks⟩ frames s)
      (State.exec ⟨store, v', calls, output, ticks⟩ frames s) := by
  cases s with
  | expression e => exact .base trivial hframes
  | print e => exact .eval hframes e trivial
  | block body =>
      rw [State.exec, State.exec]
      dsimp only
      rw [enter_eq hcells]
      exact .block ⟨.execAll body, [], ⟨store, v.enter, calls, output, ticks⟩⟩ hframes
  | branch condition yes no =>
      refine .eval hframes condition ?_
      cases no with
      | none => exact ⟨hs, nofun⟩
      | some no => exact ⟨hs.1, fun s hs' => by cases hs'; exact hs.2⟩
  | loop condition body => exact .eval hframes condition hs
  | ret keyword value =>
      cases value with
      | none => exact .base trivial hframes
      | some e => exact .eval hframes e trivial
  | var | function | classDecl => exact hs.elim

theorem assign (name : Name) (u : Value) :
    Rebased v v'
      (State.resumeOwn ⟨store, v, calls, output, ticks⟩ own clock frames u (.assign name))
      (State.resumeOwn ⟨store, v', calls, output, ticks⟩ own clock frames u (.assign name)) := by
  simp only [State.resumeOwn]
  split
  · exact .base trivial hframes
  · rw [State.resume, State.resume, State.assign, State.assign, cell?_eq hcells]
    simp only [State.put, cell?_eq hcells]
    cases v.cell? name.text with
    | some cell => exact .give hframes u
    | none =>
        cases store.globals.get? name.text with
        | none => exact .base trivial hframes
        | some old => exact .give hframes u

theorem resumeStep (u : Value) {f : Frame View} (hf : FrameDeclaresNothing f) :
    Rebased v v' (State.resumeOwn ⟨store, v, calls, output, ticks⟩ own clock frames u f)
      (State.resumeOwn ⟨store, v', calls, output, ticks⟩ own clock frames u f) := by
  cases f with
  | assign name => exact assign hcells hframes name u
  | unary op line => exact .giveOrFail hframes line _
  | binaryRight op line left => exact .giveOrFail hframes line _
  | binaryLeft op line right => exact .eval hframes right trivial
  | logical op right =>
      simp only [State.resumeOwn, State.resume]
      split
      · exact .give hframes u
      · exact .base trivial hframes
  | callee arguments line => exact .evalArguments hframes u [] arguments line
  | argument callee before after line =>
      exact .evalArguments hframes callee (u :: before) after line
  | get property => exact .giveProperty hframes u property
  | setObject property value =>
      cases u with
      | instanceRef i => exact .eval hframes value trivial
      | _ => exact .fail hframes _ property.line
  | setValue object property => exact .give hframes u
  | print => exact .give hframes .nil
  | ret => exact .base trivial hframes
  | branch yes no =>
      simp only [State.resumeOwn, State.resume]
      split
      · exact .base hf.1 hframes
      · cases no with
        | none => exact .give hframes .nil
        | some no => exact .base (hf.2 no rfl) hframes
  | loopTest condition body =>
      simp only [State.resumeOwn, State.resume]
      split
      · exact .base hf (List.forall_mem_cons.2 ⟨hf, hframes⟩)
      · exact .give hframes .nil
  | loopBody condition body => exact .eval hframes condition hf
  | var | superclass | rest | scope | call | program => exact hf.elim

omit hcells in
/-- A `return` or an error leaves a frame. -/
theorem unwindStep (u : Value) {f : Frame View} (hf : FrameDeclaresNothing f) :
    Rebased v v' (State.unwindReturn ⟨store, v, calls, output, ticks⟩ frames u f)
        (State.unwindReturn ⟨store, v', calls, output, ticks⟩ frames u f) ∧
      ∀ e, Rebased v v'
        ⟨.failing e, frames, State.leave ⟨store, v, calls, output, ticks⟩ f⟩
        ⟨.failing e, frames, State.leave ⟨store, v', calls, output, ticks⟩ f⟩ := by
  cases f with
  | var | superclass | rest | scope | call | program => exact hf.elim
  | _ => exact ⟨.base trivial hframes, fun e => .base trivial hframes⟩

end

/-- The step that leaves a block or a call, or the same step above both. -/
theorem under_stepOwn {f f' : Frame View}
    (hsame : ∀ c : Config, Rebased v v' (c.under (f :: frames)) (c.under (f' :: frames)))
    (hleave : ∀ (control : Control) (st : State),
      Config.isFinished ⟨control, [], st⟩ = true →
        Rebased v v' (Config.stepOwn own clock ⟨control, f :: frames, st⟩)
          (Config.stepOwn own clock ⟨control, f' :: frames, st⟩)) (c : Config) :
    Rebased v v' ((c.under (f :: frames)).stepOwn own clock)
      ((c.under (f' :: frames)).stepOwn own clock) := by
  cases hfinished : c.isFinished with
  | false =>
      rw [Config.stepOwn_under hfinished, Config.stepOwn_under hfinished]
      exact hsame _
  | true =>
      obtain ⟨control, above, st⟩ := c
      have habove : above = [] := Config.frames_eq_nil hfinished
      subst habove
      exact hleave control st hfinished

/-- Steps of the one run are steps of the other. -/
theorem stepOwn (hcells : v'.cells = v.cells) (h : Rebased v v' c c') :
    Rebased v v' (c.stepOwn own clock) (c'.stepOwn own clock) := by
  cases h with
  | @base control frames store calls output ticks hcontrol hframes =>
      cases control with
      | eval e => exact evalStep hcells hframes e
      | exec s => exact execStep hcells hframes hcontrol
      | execAll body => exact hcontrol.elim
      | give u =>
          cases frames with
          | nil => exact .base trivial nofun
          | cons f frames =>
              obtain ⟨hf, hframes⟩ := List.forall_mem_cons.1 hframes
              exact resumeStep hcells hframes u hf
      | returning u =>
          cases frames with
          | nil => exact .base trivial nofun
          | cons f frames =>
              obtain ⟨hf, hframes⟩ := List.forall_mem_cons.1 hframes
              exact (unwindStep hframes u hf).1
      | failing e =>
          cases frames with
          | nil => exact .base trivial nofun
          | cons f frames =>
              obtain ⟨hf, hframes⟩ := List.forall_mem_cons.1 hframes
              exact (unwindStep hframes .nil hf).2 e
  | block c hframes =>
      refine under_stepOwn (.block · hframes) (fun control st hfinished => ?_) c
      cases control with
      | give u => exact .base trivial hframes
      | returning u => exact .base trivial hframes
      | failing e => exact .base trivial hframes
      | eval | exec | execAll => cases hfinished
  | call c yield hframes =>
      refine under_stepOwn (.call · yield hframes) (fun control st hfinished => ?_) c
      cases control with
      | give u => exact .base trivial hframes
      | returning u => exact .base trivial hframes
      | failing e => exact .base trivial hframes
      | eval | exec | execAll => cases hfinished

end Rebased

end Lexical

end Lox
