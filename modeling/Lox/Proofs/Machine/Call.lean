import Lox.Machine.Step

set_option autoImplicit false

/-! # What a call comes to

A call is refused, or it gives a value at once, or the body of a function starts: that of the
callee, or that of the initializer of a class for the instance just made. These are all its
outcomes, with what is known of the callee in each (`State.Calls`).
-/

namespace Lox

/-- The outcomes of a call. -/
inductive State.Calls (st : State) (s : Setting) (callee : Value) (arguments : List Value)
    (line : Nat) (frames : List (Frame EnvId)) : Config → Prop
  | notCallable (harity : st.store.arity? callee = none) :
      Calls st s callee arguments line frames (st.fail .notCallable line frames)
  | wrongArity {arity : Nat} (harity : st.store.arity? callee = some arity)
      (hlength : arguments.length ≠ arity) :
      Calls st s callee arguments line frames
        (st.fail (.wrongArity arity arguments.length) line frames)
  | noRoom (harity : st.store.arity? callee = some arguments.length)
      (hroom : maxCalls ≤ st.calls) :
      Calls st s callee arguments line frames (st.fail .stackOverflow line frames)
  | clock {n : NativeId} (hcallee : callee = .nativeRef n) :
      Calls st s callee arguments line frames
        ({ st with ticks := st.ticks + 1 }.give (.number (s.clock st.ticks)) frames)
  /-- The body of the callee starts. -/
  | function {f : FunctionId} {c : Closure EnvId} (hcallee : callee = .functionRef f)
      (hc : st.store.functions[f]? = some c) (hlength : arguments.length = c.arity)
      (hroom : st.calls < maxCalls) :
      Calls st s callee arguments line frames
        (st.enter c arguments (if c.isInitializer then .receiver c.env else .result) frames)
  /-- The instance is given at once. -/
  | plain {cls : ClassId} (hcallee : callee = .classRef cls)
      (hinit : st.store.initializer? cls = none) (hlength : arguments = []) :
      Calls st s callee arguments line frames
        ({ st with store := (st.store.newInstance cls).2 }.give
          (.instanceRef st.store.instances.size) frames)
  /-- The body of the initializer starts, bound to the instance. -/
  | initialized {cls : ClassId} {m : Closure EnvId} (hcallee : callee = .classRef cls)
      (hinit : st.store.initializer? cls = some m) (hlength : arguments.length = m.arity)
      (hroom : st.calls < maxCalls) :
      Calls st s callee arguments line frames
        (State.enter
          { st with store := ((st.store.newInstance cls).2.bind m st.store.instances.size).2 }
          ((st.store.newInstance cls).2.bind m st.store.instances.size).1 arguments
          (.made st.store.instances.size) frames)

/-- Each call comes to one of these. -/
theorem State.calls_call (st : State) (s : Setting) (callee : Value) (arguments : List Value)
    (line : Nat) (frames : List (Frame EnvId)) :
    st.Calls s callee arguments line frames (st.call s callee arguments line frames) := by
  rw [call]
  cases harity : st.store.arity? callee with
  | none => exact .notCallable harity
  | some arity =>
      by_cases hlength : arguments.length = arity
      · subst hlength
        by_cases hroom : maxCalls ≤ st.calls
        · simp only [ne_eq, not_true_eq_false, if_false, if_pos hroom]
          exact .noRoom harity hroom
        · simp only [ne_eq, not_true_eq_false, if_false, if_neg hroom]
          replace hroom : st.calls < maxCalls := Nat.lt_of_not_le hroom
          cases callee with
          | nativeRef n =>
              simp only [invoke]
              cases hn : st.store.natives[n]? with
              | some native =>
                  cases native
                  exact .clock rfl
              | none =>
                  rw [Heap.arity?, hn] at harity
                  cases harity
          | functionRef f =>
              simp only [invoke]
              cases hc : st.store.functions[f]? with
              | some c =>
                  rw [Heap.arity?, hc] at harity
                  exact .function rfl hc (Option.some.inj harity).symm hroom
              | none =>
                  rw [Heap.arity?, hc] at harity
                  cases harity
          | classRef cls =>
              simp only [invoke, instantiate]
              cases hinit : st.store.initializer? cls with
              | some m =>
                  rw [Heap.arity?, hinit] at harity
                  exact .initialized rfl hinit (Option.some.inj harity).symm hroom
              | none =>
                  rw [Heap.arity?, hinit] at harity
                  exact .plain rfl hinit (List.length_eq_zero_iff.1 (Option.some.inj harity).symm)
          | _ => cases harity
      · simp only [ne_eq, hlength, not_false_eq_true, if_true]
        exact .wrongArity harity hlength

end Lox
