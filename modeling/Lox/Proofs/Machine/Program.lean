import Lox.Proofs.Machine.Stack

set_option autoImplicit false

/-! # Programs one after the other

When the run of a program has ended without an error, a run of this program with more statements
after it has come to where the run of these statements starts, in the state that there is then.
-/

namespace Lox.Config

variable {s : Setting}

theorem isFinished_of_outcome? {c : Config} {result : Except RuntimeError Value}
    (h : c.outcome? = some result) : c.isFinished = true := by
  obtain ⟨control, frames, st⟩ := c
  cases control <;> cases frames <;> first | rfl | cases h

/-- After the first statement of a program the others follow, unless it fails. -/
theorem run_first {a : Stmt} {st : State} {n : Nat} {rest : Program}
    (h : (ofProgram (a :: rest) st).EndsAt s n) :
    (∃ st₁, ∀ q, (ofProgram (a :: q) st).run s (n + 1) = ofProgram q st₁) ∨
      ∃ e st₁, (ofProgram (a :: rest) st).run s (n + 1) = ⟨.failing e, [], st₁⟩ := by
  have hunder : ∀ q, ofProgram (a :: q) st =
      (⟨.exec a, [], st⟩ : Config).under [.program q] := fun _ => rfl
  rw [hunder, endsAt_under_iff rfl] at h
  have hafter : ∀ q, (ofProgram (a :: q) st).run s (n + 1) =
      ((Config.run s n ⟨.exec a, [], st⟩).under [.program q]).step s := fun q => by
    rw [run_succ_eq_step, hunder, run_under h.2]
  obtain ⟨hframes, hresult⟩ := isFinished_iff.1 h.1
  cases hend : Config.run s n ⟨.exec a, [], st⟩ with
  | mk control frames st₁ =>
      rw [hend] at hframes hresult hafter
      cases hframes
      cases control with
      | give v | returning v => exact .inl ⟨st₁, hafter⟩
      | failing e => exact .inr ⟨e, st₁, hafter rest⟩
      | _ => cases hresult

/-- What a program does at its end, a longer program does before it goes on. -/
theorem exists_run_append {p : Program} {st : State} {steps : Nat} {v : Value}
    (h : ((ofProgram p st).run s steps).outcome? = some (.ok v)) (q : Program) :
    ∃ m, (ofProgram (p ++ q) st).run s m = ofProgram q ((ofProgram p st).run s steps).state := by
  induction p generalizing st steps with
  | nil => exact ⟨0, by rw [run_of_isFinished s (ofProgram [] st) steps rfl]; rfl⟩
  | cons a p ih =>
      have hfinished := isFinished_of_outcome? h
      have hframes := (isFinished_iff.1 hfinished).1
      rcases endsAt_or_waits s (ofProgram (a :: p) st) steps with ⟨n, hn, hends⟩ | ⟨above, hwaits⟩
      · have hlt : n < steps := by
          refine Nat.lt_of_le_of_ne hn fun heq => ?_
          -- When the first statement has ended, the others still wait.
          subst heq
          cases hframes.symm.trans hends.1.1
        obtain ⟨more, rfl⟩ := Nat.exists_eq_add_of_lt hlt
        rw [Nat.add_right_comm, run_add] at h ⊢
        rcases run_first hends with ⟨st₁, hnext⟩ | ⟨e, st₁, hfails⟩
        · rw [hnext] at h ⊢
          obtain ⟨m, hm⟩ := ih h
          exact ⟨n + 1 + m, by rw [List.cons_append, run_add, hnext, hm]⟩
        · rw [hfails, run_of_isFinished s _ more rfl] at h
          cases h
      · rw [hframes] at hwaits
        cases above <;> cases hwaits

end Lox.Config
