import Lox.Proofs.Objects.Step
import Lox.Proofs.Session.Lines

set_option autoImplicit false

/-! # Reachable configurations

What a session comes to, with all that it has come through (`Config.Reached`). The table that a
program runs with may be any, also an empty one, so runs without resolving are among these. In every
reachable configuration nothing dangles, and the store has grown from all that it was before.
-/

namespace Lox

/-- A configuration that a session reaches, with those that it has made steps from, the last one
first. A session starts with nothing to be done. The next program is one that was read from a text,
and it runs in the state that the programs before it have left, whether or not they have ended. -/
inductive Config.Reached : List Config → Config → Prop
  | start : Reached [] ⟨.give .nil, [], .start⟩
  | step {past : List Config} {c : Config} (h : Reached past c) (s : Setting) :
      Reached (c :: past) (c.step s)
  | next {past : List Config} {c : Config} (h : Reached past c) {source : String} {offset : Nat}
      {p : Program} (hp : (Program.ofText source offset).parsed = .ok p) :
      Reached past (.ofProgram p { c.state with output := "" })

namespace Config.Reached

variable {past : List Config} {c : Config}

theorem run (h : Reached past c) (s : Setting) (steps : Nat) :
    ∃ passed, Reached (passed ++ past) (c.run s steps) := by
  induction steps with
  | zero => exact ⟨[], h⟩
  | succ steps ih =>
      obtain ⟨passed, hrun⟩ := ih
      rw [run_succ_eq_step]
      exact ⟨c.run s steps :: passed, hrun.step s⟩

end Config.Reached

/-! ## Sessions -/

namespace Session

variable (session : Session) (clock : Nat → Float) (steps : Nat)

/-- A program that runs in a session, with whatever table. -/
theorem exists_reached_runProgram {past : List Config} {c : Config} (h : Config.Reached past c)
    (hstate : c.state = session.state) {source : String} {offset : Nat} {p : Program}
    (hp : (Program.ofText source offset).parsed = .ok p) (t : BindingTable) :
    ∃ passed, Config.Reached (passed ++ past) (session.runProgram clock steps p t) := by
  have hnext := h.next hp
  rw [hstate] at hnext
  exact hnext.run ⟨t, clock⟩ steps

/-- The state of a session is that of a configuration that it has reached. -/
theorem exists_reached_afterAll {past : List Config} {c : Config} (h : Config.Reached past c)
    (hstate : c.state = session.state) (lines : List String) :
    ∃ past c, Config.Reached past c ∧ c.state = (session.afterAll clock steps lines).state := by
  induction lines generalizing session past c with
  | nil => exact ⟨past, c, h, hstate⟩
  | cons line lines ih =>
      rcases session.run_cases clock steps line with ⟨_, -, hrun⟩ | ⟨p, t, haccept, hrun⟩
      · refine ih _ h ?_
        rw [hstate, hrun]
      · obtain ⟨-, hp, -⟩ := accept_eq_ok_iff.1 haccept
        obtain ⟨passed, hreached⟩ := session.exists_reached_runProgram clock steps h hstate hp t
        refine ih _ hreached ?_
        rw [hrun]

/-- Whatever an accepted program of a session comes to is reachable. -/
theorem exists_reached {lines : List String} {source : String} {p : Program} {t : BindingTable}
    (haccept : (start.afterAll clock steps lines).accept source = .ok (p, t)) (more : Nat) :
    ∃ past, Config.Reached past
      ((start.afterAll clock steps lines).runProgram clock more p t) := by
  obtain ⟨past, c, hreached, hstate⟩ :=
    start.exists_reached_afterAll clock steps .start rfl lines
  obtain ⟨-, hp, -⟩ := accept_eq_ok_iff.1 haccept
  obtain ⟨passed, hrun⟩ := exists_reached_runProgram _ clock more hreached hstate hp t
  exact ⟨_, hrun⟩

/-- Whatever a program comes to that is run without being resolved is reachable. -/
theorem exists_reached_unresolved {source : String} {p : Program}
    (hp : (Program.ofText source 0).parsed = .ok p) :
    ∃ past, Config.Reached past (start.runProgram clock steps p ∅) := by
  obtain ⟨passed, hrun⟩ :=
    start.exists_reached_runProgram clock steps .start rfl hp ∅
  exact ⟨_, hrun⟩

end Session

/-! ## What is reached -/

/-- The next program starts where nothing dangles. -/
theorem Config.Sound.next {base : Store} {c : Config} (h : c.Sound base) {source : String}
    {offset : Nat} {p : Program} (hp : (Program.ofText source offset).parsed = .ok p) :
    (Config.ofProgram p { c.state with output := "" }).Sound base := by
  obtain @⟨control, fs, st, hst, hcontrol⟩ := h
  have hcleared : State.Sound base { st with output := "" } [] :=
    ⟨hst.store, hst.env, fun _ hf => nomatch hf⟩
  exact hcleared.continueProgram (Program.ordinary_of_ofText hp)

namespace Config.Reached

variable {past : List Config} {c : Config}

/-- Nothing dangles in what is reached, and the store has grown from each that was there before. -/
theorem sound_past (h : Reached past c) :
    c.Sound c.state.store ∧ ∀ earlier ∈ past, c.Sound earlier.state.store := by
  -- Each earlier store is one to have grown from, so all are carried through the induction.
  induction h with
  | start =>
      have hstart : State.start.Sound State.start.store [] :=
        ⟨.refl State.sound_start, Nat.zero_lt_one, fun _ hf => nomatch hf⟩
      exact ⟨hstart.give (v := .nil) trivial, fun _ hearlier => nomatch hearlier⟩
  | step h s ih =>
      refine ⟨(ih.1.step s).refl, List.forall_mem_cons.2 ⟨ih.1.step s, fun earlier hearlier => ?_⟩⟩
      exact (ih.2 earlier hearlier).step s
  | next h hp ih =>
      exact ⟨(ih.1.next hp).refl, fun earlier hearlier => (ih.2 earlier hearlier).next hp⟩

theorem sound (h : Reached past c) : c.Sound c.state.store := h.sound_past.1

theorem grows (h : Reached past c) {earlier : Config} (hearlier : earlier ∈ past) :
    earlier.state.store.Grows c.state.store := (h.sound_past.2 earlier hearlier).grows

/-- What was come through was reached. -/
theorem exists_of_mem (h : Reached past c) {earlier : Config} (hearlier : earlier ∈ past) :
    ∃ past, Reached past earlier := by
  induction h with
  | start => cases hearlier
  | step h s ih =>
      rcases List.mem_cons.1 hearlier with rfl | hpast
      · exact ⟨_, h⟩
      · exact ih hpast
  | next h hp ih => exact ih hearlier

/-- Each value that there is, or that there was before, was made. -/
theorem made (h : Reached past c) {earlier : Config} (hearlier : earlier ∈ c :: past) {v : Value}
    (hv : earlier.Holds v) : v.Made c.state.store.toHeap := by
  rcases List.mem_cons.1 hearlier with rfl | hpast
  · exact h.sound.made hv
  · obtain ⟨_, hreached⟩ := h.exists_of_mem hpast
    exact (hreached.sound.made hv).grow (h.grows hpast)

end Config.Reached

end Lox
