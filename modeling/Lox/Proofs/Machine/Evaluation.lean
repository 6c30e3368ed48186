import Lox.Proofs.Machine.Call
import Lox.Proofs.Machine.Stack

set_option autoImplicit false

/-! # Evaluation without functions

Where no function and no class has been declared, no call starts the body of a function. So what an
expression does there is to be seen from its own frames (`Config.Evaluates`): it runs no statement,
it prints nothing, and it ends with a value or with an error.
-/

namespace Lox

/-- The frame waits for a part of an expression. -/
def Frame.isOperand {ε : Type} : Frame ε → Bool
  | .unary .. | .binaryLeft .. | .binaryRight .. | .logical .. | .assign .. | .callee ..
  | .argument .. | .get .. | .setObject .. | .setValue .. => true
  | _ => false

/-- An expression is to be evaluated or has ended. -/
def Control.isEvaluation : Control → Bool
  | .eval _ | .give _ | .failing _ => true
  | .exec _ | .execAll _ | .returning _ => false

/-- No function and no class has been declared. -/
structure State.HasNoCode (st : State) : Prop where
  functions : st.store.functions = #[]
  classes : st.store.classes = #[]

/-- The state and the frames of an evaluation: nothing was declared or printed. -/
structure State.Evaluates (st : State) (frames : List (Frame EnvId)) : Prop where
  frames : ∀ f ∈ frames, f.isOperand = true
  noCode : st.HasNoCode
  output : st.output = ""

/-- An expression is being evaluated. -/
structure Config.Evaluates (c : Config) : Prop where
  control : c.control.isEvaluation = true
  state : c.state.Evaluates c.frames

namespace State

variable {st : State} {s : Setting} {frames : List (Frame EnvId)}

namespace HasNoCode

theorem method? (h : st.HasNoCode) (cls : ClassId) (name : String) :
    st.store.method? cls name = none := by
  rw [Heap.method?, h.classes]
  rfl

theorem initializer? (h : st.HasNoCode) (cls : ClassId) : st.store.initializer? cls = none :=
  h.method? cls _

theorem functions_eq_none (h : st.HasNoCode) (f : FunctionId) : st.store.functions[f]? = none := by
  rw [h.functions]
  rfl

/-- A property can only be a field. -/
theorem property_cases (h : st.HasNoCode) (object : InstanceId) (name : Name) :
    (∃ v, st.store.property object name = .ok (.field v)) ∨
      ∃ e, st.store.property object name = .error e := by
  rw [Heap.property, Heap.property?]
  cases hfield : st.store.field? object name.text with
  | some v => exact .inl ⟨v, rfl⟩
  | none =>
      refine .inr ⟨⟨.undefinedProperty name.text, name.line⟩, ?_⟩
      cases st.store.classOf? object with
      | none => rfl
      | some cls => rw [Option.bind_some, h.method?]; rfl

/-- `super` finds no method. -/
theorem superMethod (h : st.HasNoCode) (keyword method : Name) :
    ∃ e, st.superMethod s keyword method = .error e := by
  rw [State.superMethod]
  split
  · exact ⟨_, rfl⟩
  · split
    · split
      · rw [h.method?]
        exact ⟨_, rfl⟩
      · exact ⟨_, rfl⟩
    · exact ⟨_, rfl⟩

end HasNoCode

namespace Evaluates

theorem give (h : st.Evaluates frames) (v : Value) : (st.give v frames).Evaluates :=
  ⟨rfl, h⟩

theorem failing (h : st.Evaluates frames) (e : RuntimeError) :
    Config.Evaluates ⟨.failing e, frames, st⟩ :=
  ⟨rfl, h⟩

theorem eval (h : st.Evaluates frames) (e : Expr) : Config.Evaluates ⟨.eval e, frames, st⟩ :=
  ⟨rfl, h⟩

theorem push (h : st.Evaluates frames) {f : Frame EnvId} (hf : f.isOperand = true) :
    st.Evaluates (f :: frames) :=
  ⟨List.forall_mem_cons.2 ⟨hf, h.frames⟩, h.noCode, h.output⟩

theorem giveOrFail (h : st.Evaluates frames) (line : Nat)
    (result : Except RuntimeError.Cause Value) : (st.giveOrFail line frames result).Evaluates := by
  cases result with
  | ok v => exact h.give v
  | error cause => exact h.failing _

/-- A value, after a change of variables, instances or ticks. -/
theorem giveAfter (h : st.Evaluates frames) (st' : State) (v : Value)
    (hfunctions : st'.store.functions = st.store.functions)
    (hclasses : st'.store.classes = st.store.classes) (houtput : st'.output = st.output) :
    (st'.give v frames).Evaluates := by
  have hnoCode : st'.HasNoCode :=
    ⟨hfunctions.trans h.noCode.functions, hclasses.trans h.noCode.classes⟩
  exact ⟨rfl, h.frames, hnoCode, houtput.trans h.output⟩

/-- Only natives and classes can be called, and classes have no initializers. -/
theorem call (h : st.Evaluates frames) (callee : Value) (arguments : List Value) (line : Nat) :
    (st.call s callee arguments line frames).Evaluates := by
  have hcalls := st.calls_call s callee arguments line frames
  generalize st.call s callee arguments line frames = c at hcalls ⊢
  cases hcalls with
  | notCallable | wrongArity | noRoom => exact h.failing _
  | clock => exact h.giveAfter { st with ticks := st.ticks + 1 } _ rfl rfl rfl
  | @function f c hcallee hc =>
      rw [h.noCode.functions_eq_none] at hc
      cases hc
  | @plain cls =>
      exact h.giveAfter { st with store := (st.store.newInstance cls).2 } _ rfl rfl rfl
  | @initialized cls m hcallee hinit =>
      rw [h.noCode.initializer?] at hinit
      cases hinit

theorem evalArguments (h : st.Evaluates frames) (callee : Value) (before : List Value)
    (after : List Expr) (line : Nat) :
    (st.evalArguments s callee before after line frames).Evaluates := by
  cases after with
  | nil => exact h.call callee before.reverse line
  | cons e es => exact (h.push rfl).eval e

theorem giveProperty (h : st.Evaluates frames) (object : Value) (property : Name) :
    (st.giveProperty object property frames).Evaluates := by
  cases object with
  | instanceRef i =>
      rw [State.giveProperty]
      rcases h.noCode.property_cases i property with ⟨v, hproperty⟩ | ⟨e, hproperty⟩
      · rw [hproperty]
        exact h.give v
      · rw [hproperty]
        exact h.failing e
  | _ => exact h.failing _

/-- Starting an expression. -/
theorem start (h : st.Evaluates frames) (e : Expr) : (st.eval s frames e).Evaluates := by
  cases e with
  | literal l => exact h.give _
  | grouping inner => exact h.eval inner
  | «variable» name | this name =>
      rw [State.eval]
      cases st.read s name with
      | ok v => exact h.give v
      | error e => exact h.failing e
  | super keyword method =>
      obtain ⟨e, he⟩ := h.noCode.superMethod (s := s) keyword method
      rw [State.eval, he]
      exact h.failing e
  | _ => exact (h.push rfl).eval _

/-- Handing a value to what waits for it. -/
theorem resume (h : st.Evaluates frames) (v : Value) {f : Frame EnvId} (hf : f.isOperand = true) :
    (st.resume s frames v f).Evaluates := by
  cases f with
  | unary op line => exact h.giveOrFail line _
  | binaryLeft op line right => exact (h.push rfl).eval right
  | binaryRight op line left => exact h.giveOrFail line _
  | logical op right =>
      rw [State.resume]
      split
      · exact h.give v
      · exact h.eval right
  | assign name =>
      rw [State.resume]
      cases st.binder s name with
      | ok e =>
          exact h.giveAfter { st with store := st.store.define e name.text v } v rfl rfl rfl
      | error e => exact h.failing e
  | callee arguments line => exact h.evalArguments v [] arguments line
  | argument callee before after line => exact h.evalArguments callee (v :: before) after line
  | get property => exact h.giveProperty v property
  | setObject property value =>
      cases v with
      | instanceRef i => exact (h.push rfl).eval value
      | _ => exact h.failing _
  | setValue i property =>
      exact h.giveAfter { st with store := st.store.setField i property.text v } v rfl rfl rfl
  | _ => cases hf

end Evaluates

end State

namespace Config

variable {c : Config} {s : Setting}

/-- A step of an evaluation goes on with it. -/
theorem Evaluates.step (h : c.Evaluates) : (c.step s).Evaluates := by
  have hst := h.state
  obtain ⟨control, frames, st⟩ := c
  cases control with
  | eval e => exact hst.start e
  | give v =>
      cases frames with
      | nil => exact h
      | cons f frames =>
          obtain ⟨hf, hframes⟩ := List.forall_mem_cons.1 hst.frames
          exact State.Evaluates.resume ⟨hframes, hst.noCode, hst.output⟩ v hf
  | failing e =>
      cases frames with
      | nil => exact h
      | cons f frames =>
          obtain ⟨hf, hframes⟩ := List.forall_mem_cons.1 hst.frames
          have hleave : f.leave st = st := by cases f <;> first | rfl | cases hf
          show Evaluates ⟨.failing e, frames, f.leave st⟩
          rw [hleave]
          exact State.Evaluates.failing ⟨hframes, hst.noCode, hst.output⟩ e
  | exec | execAll | returning => cases h.control

theorem Evaluates.run (h : c.Evaluates) (steps : Nat) : (c.run s steps).Evaluates := by
  induction steps with
  | zero => exact h
  | succ steps ih =>
      rw [run_succ_eq_step]
      exact ih.step

/-- An evaluation ends with a value or with an error. -/
theorem Evaluates.of_isFinished (h : c.Evaluates) (hfinished : c.isFinished = true) :
    (∃ v, c = ⟨.give v, [], c.state⟩) ∨ ∃ e, c = ⟨.failing e, [], c.state⟩ := by
  obtain ⟨control, frames, st⟩ := c
  obtain ⟨hframes, -⟩ := isFinished_iff.1 hfinished
  cases hframes
  cases control with
  | give v => exact .inl ⟨v, rfl⟩
  | failing e => exact .inr ⟨e, rfl⟩
  | exec | execAll | returning => cases h.control
  | eval => cases hfinished

/-! ## Evaluation above other frames -/

/-- Two runs that have ended have ended alike. -/
theorem run_eq_of_isFinished {m n : Nat} (hm : (c.run s m).isFinished = true)
    (hn : (c.run s n).isFinished = true) : c.run s m = c.run s n := by
  rcases Nat.le_total m n with hle | hle
  · exact (run_of_le hm hle).symm
  · exact run_of_le hn hle

/-- What ends by itself gets to its end above other frames too. -/
theorem exists_run_under {n : Nat} (h : (c.run s n).isFinished = true)
    (below : List (Frame EnvId)) : ∃ k, (c.under below).run s k = (c.run s n).under below := by
  have hex : ∃ k, (c.run s k).isFinished = true := ⟨n, h⟩
  have hbefore : ∀ m < Nat.find hex, (c.run s m).isFinished = false := by
    intro m hm
    rw [Bool.eq_false_iff]
    exact Nat.find_min hex hm
  refine ⟨Nat.find hex, ?_⟩
  rw [run_under hbefore below, run_eq_of_isFinished (Nat.find_spec hex) h]

/-- What has ended above other frames ends by itself. -/
theorem exists_isFinished_of_under {below : List (Frame EnvId)} (hbelow : below ≠ []) {n : Nat}
    (h : ((c.under below).run s n).isFinished = true) : ∃ k, (c.run s k).isFinished = true := by
  by_contra hnever
  have hgoes : ∀ m < n, (c.run s m).isFinished = false := by
    intro m _
    rw [Bool.eq_false_iff]
    exact fun hfinished => hnever ⟨m, hfinished⟩
  rw [run_under hgoes below, isFinished_iff] at h
  exact hbelow (List.append_eq_nil_iff.1 h.1).2

section Print

variable {e : Expr} {st st₁ : State} {n : Nat}

/-- A program that prints an expression evaluates it above two frames. -/
theorem step_ofProgram_print :
    (ofProgram [.print e] st).step s = (ofExpr e st).under [.print, .program []] :=
  rfl

theorem exists_run_print_value {v : Value} (h : (ofExpr e st).run s n = ⟨.give v, [], st₁⟩) :
    ∃ m, (ofProgram [.print e] st).run s m =
      ⟨.give .nil, [], { st₁ with output := st₁.output ++ st₁.store.text v ++ "\n" }⟩ := by
  have hfinished : ((ofExpr e st).run s n).isFinished = true := by rw [h]; rfl
  obtain ⟨k, hk⟩ := exists_run_under hfinished [.print, .program []]
  refine ⟨k + 2 + 1, ?_⟩
  rw [run_succ, step_ofProgram_print, run_add, hk, h]
  rfl

theorem exists_run_print_error {error : RuntimeError}
    (h : (ofExpr e st).run s n = ⟨.failing error, [], st₁⟩) :
    ∃ m, (ofProgram [.print e] st).run s m = ⟨.failing error, [], st₁⟩ := by
  have hfinished : ((ofExpr e st).run s n).isFinished = true := by rw [h]; rfl
  obtain ⟨k, hk⟩ := exists_run_under hfinished [.print, .program []]
  refine ⟨k + 2 + 1, ?_⟩
  rw [run_succ, step_ofProgram_print, run_add, hk, h]
  rfl

/-- If the program ends, the evaluation of its expression does. -/
theorem exists_isFinished_of_print (h : ((ofProgram [.print e] st).run s n).isFinished = true) :
    ∃ k, ((ofExpr e st).run s k).isFinished = true := by
  have hlater : ((ofProgram [.print e] st).run s (n + 1)).isFinished = true := by
    rw [run_of_le h (Nat.le_succ n)]
    exact h
  rw [run_succ, step_ofProgram_print] at hlater
  exact exists_isFinished_of_under (List.cons_ne_nil _ _) hlater

end Print

end Config

end Lox
