import Lox.Proofs.Lexical.Rebased
import Lox.Proofs.Loop.Direct

set_option autoImplicit false

/-! # The tree of a `for` loop and what the loop means

A run of the tree of a `for` loop goes through the parts of the loop, each with the frames of the
tree below it (`ForLoop.frames`). Between two parts it takes some steps that print nothing. The
blocks of the tree may make the view of a part local where the scope of the loop is already that, or
where there is no scope at all, since nothing is declared; this makes no difference to a part, which
declares nothing itself (`Rebased`).
-/

namespace Lox.Lexical

/-! ## Steps that print nothing -/

/-- The second configuration comes some steps after the first one, and nothing is printed until
then. -/
def Quiet (own : List Name) (clock : Nat → Float) (c c' : Config) : Prop :=
  ∃ n, c.runOwn own clock n = c' ∧
    ∀ m ≤ n, (c.runOwn own clock m).state.output = c.state.output

section

variable {own : List Name} {clock : Nat → Float} {c c₁ c' : Config}

theorem Quiet.refl (c : Config) : Quiet own clock c c :=
  ⟨0, rfl, fun m hm => by rw [Nat.le_zero.1 hm]; rfl⟩

theorem Quiet.head (hstep : c.stepOwn own clock = c₁) (houtput : c₁.state.output = c.state.output)
    (h : Quiet own clock c₁ c') : Quiet own clock c c' := by
  obtain ⟨n, hrun, hquiet⟩ := h
  refine ⟨n + 1, ?_, fun m hm => ?_⟩
  · rw [Config.runOwn_succ, hstep, hrun]
  · cases m with
    | zero => rfl
    | succ m =>
        rw [Config.runOwn_succ, hstep, hquiet m (Nat.le_of_succ_le_succ hm), houtput]

/-- A frame that a `return` leaves as an error does. -/
def PassesReturn (f : Frame View) : Prop :=
  ∀ (st : State) (frames : List (Frame View)) (v : Value),
    st.unwindReturn frames v f = ⟨.returning v, frames, st.leave f⟩

theorem quiet_returning (v : Value) {frames : List (Frame View)}
    (hframes : ∀ f ∈ frames, PassesReturn f) (st : State) :
    Quiet own clock ⟨.returning v, frames, st⟩ ⟨.returning v, [], frames.foldl State.leave st⟩ := by
  induction frames generalizing st with
  | nil => exact .refl _
  | cons f frames ih =>
      obtain ⟨hf, hframes⟩ := List.forall_mem_cons.1 hframes
      refine .head (hf st frames v) ?_ (ih hframes (st.leave f))
      cases f <;> rfl

/-- An error leaves all frames. -/
theorem quiet_failing (e : RuntimeError) (frames : List (Frame View)) (st : State) :
    Quiet own clock ⟨.failing e, frames, st⟩ ⟨.failing e, [], frames.foldl State.leave st⟩ := by
  induction frames generalizing st with
  | nil => exact .refl _
  | cons f frames ih =>
      refine .head rfl ?_ (ih (st.leave f))
      cases f <;> rfl

end

namespace ForLoop

variable (l : ForLoop)

/-! ## The tree -/

/-- The condition of the plain loop. -/
def test : Expr := l.condition.getD (.literal (.bool true))

/-- The body of the plain loop. -/
def turn : Stmt :=
  match l.increment with
  | some e => .block [l.body, .expression e]
  | none => l.body

/-- The plain loop. -/
def rounds : Stmt := .loop l.test l.turn

theorem tree_eq_rounds (h : l.initial = none) : l.tree = l.rounds := by
  obtain ⟨initial, condition, increment, body, hbody⟩ := l
  cases h
  cases increment <;> rfl

theorem tree_eq_block {s : Stmt} (h : l.initial = some s) : l.tree = .block [s, l.rounds] := by
  obtain ⟨initial, condition, increment, body, hbody⟩ := l
  cases h
  cases increment <;> rfl

/-- The frames below the plain loop. -/
def outerFrames (outer : View) : List (Frame View) :=
  match l.initial with
  | some _ => [.rest [], .scope outer]
  | none => []

/-- The frames below a part of the loop, `inner` being the view of the plain loop. -/
def frames (outer inner : View) : Phase → List (Frame View)
  | .initial => [.rest [l.rounds], .scope outer]
  | .condition => .loopTest l.test l.turn :: l.outerFrames outer
  | .body =>
    match l.increment with
    | some e =>
      .rest [.expression e] :: .scope inner :: .loopBody l.test l.turn :: l.outerFrames outer
    | none => .loopBody l.test l.turn :: l.outerFrames outer
  | .increment => .rest [] :: .scope inner :: .loopBody l.test l.turn :: l.outerFrames outer

/-- The view of a part of the loop. -/
def view (inner : View) : Phase → View
  | .initial | .condition => inner
  | .body =>
    match l.increment with
    | some _ => inner.enter
    | none => inner
  | .increment => inner.enter

/-- The view of the plain loop has the variables of the scope of the loop, and without an
initializer it is what is visible around the loop. -/
structure Inside (outer scope inner : View) : Prop where
  cells : inner.cells = scope.cells
  outer : l.initial = none → inner = outer

/-- A run of the tree is at the same point as the loop. -/
inductive Follows (outer : View) : Config → Loop → Prop
  | initial (c : Config) (hinitial : l.initial.isSome = true) :
      Follows outer (c.under (l.frames outer outer .initial))
        (.running .initial outer.enter c)
  | part {phase : Phase} {scope inner : View} {c c' : Config} (hphase : phase ≠ .initial)
      (hinside : l.Inside outer scope inner) (h : Rebased scope (l.view inner phase) c c') :
      Follows outer (c'.under (l.frames outer inner phase)) (.running phase scope c)
  | ended (outcome : Outcome) (st : State) :
      Follows outer ⟨outcome.control, [], st⟩ (.ended outcome st)

variable {l} {own : List Name} {clock : Nat → Float} {outer scope inner : View}

theorem Inside.view_cells (h : l.Inside outer scope inner) (phase : Phase) :
    (l.view inner phase).cells = scope.cells := by
  unfold ForLoop.view
  split
  · exact h.cells
  · exact h.cells
  · split <;> exact h.cells
  · exact h.cells

/-- Leaving a part leaves the loop. -/
theorem leave_frames (h : l.Inside outer scope inner) {phase : Phase} (hphase : phase ≠ .initial)
    (st : State) :
    (l.frames outer inner phase).foldl State.leave { st with view := l.view inner phase } =
      { st with view := outer } := by
  have houter : ∀ st : State, (l.initial = none → st.view = outer) →
      (l.outerFrames outer).foldl State.leave st = { st with view := outer } := by
    intro st hview
    unfold outerFrames
    split
    · rfl
    · rename_i hnone
      obtain ⟨store, view, calls, output, ticks⟩ := st
      cases hview hnone
      rfl
  cases phase with
  | initial => exact absurd rfl hphase
  | condition => exact houter { st with view := inner } h.outer
  | body =>
      simp only [frames, ForLoop.view]
      cases l.increment <;> exact houter { st with view := inner } h.outer
  | increment => exact houter { st with view := inner } h.outer

theorem passesReturn_frames (phase : Phase) : ∀ f ∈ l.frames outer inner phase, PassesReturn f := by
  have houter : ∀ f ∈ l.outerFrames outer, PassesReturn f := by
    unfold outerFrames
    split
    · exact List.forall_mem_cons.2 ⟨fun _ _ _ => rfl, List.forall_mem_singleton.2 fun _ _ _ => rfl⟩
    · nofun
  have hloop : ∀ f ∈ .loopBody l.test l.turn :: l.outerFrames outer, PassesReturn f :=
    List.forall_mem_cons.2 ⟨fun _ _ _ => rfl, houter⟩
  have hblock : ∀ body : List Stmt, ∀ f ∈ .rest body :: .scope inner ::
      .loopBody l.test l.turn :: l.outerFrames outer, PassesReturn f := fun body =>
    List.forall_mem_cons.2 ⟨fun _ _ _ => rfl, List.forall_mem_cons.2 ⟨fun _ _ _ => rfl, hloop⟩⟩
  cases phase with
  | initial =>
      exact List.forall_mem_cons.2 ⟨fun _ _ _ => rfl, List.forall_mem_singleton.2 fun _ _ _ => rfl⟩
  | condition => exact List.forall_mem_cons.2 ⟨fun _ _ _ => rfl, houter⟩
  | body =>
      simp only [frames]
      cases l.increment with
      | some e => exact hblock [.expression e]
      | none => exact hloop
  | increment => exact hblock []

/-! ## From one part to the next one -/

/-- The tree is at the same point as the loop, some steps later. -/
def Reaches (l : ForLoop) (own : List Name) (clock : Nat → Float) (outer : View) (c : Config)
    (d : Loop) : Prop :=
  ∃ c', Quiet own clock c c' ∧ l.Follows outer c' d

theorem Reaches.head {c c₁ : Config} {d : Loop} (hstep : c.stepOwn own clock = c₁)
    (houtput : c₁.state.output = c.state.output) (h : l.Reaches own clock outer c₁ d) :
    l.Reaches own clock outer c d := by
  obtain ⟨c', hquiet, hfollows⟩ := h
  exact ⟨c', .head hstep houtput hquiet, hfollows⟩

theorem Follows.reaches {c : Config} {d : Loop} (h : l.Follows outer c d) :
    l.Reaches own clock outer c d :=
  ⟨c, .refl c, h⟩

/-- A part starts. -/
theorem follows_part (phase : Phase) (control : Control) (st : State) (hphase : phase ≠ .initial)
    (hinside : l.Inside outer scope inner) (hcontrol : ControlDeclaresNothing control) :
    l.Follows outer
      ⟨control, l.frames outer inner phase, { st with view := l.view inner phase }⟩
      (.part phase scope control st) := by
  have hpart : Rebased scope (l.view inner phase) ⟨control, [], { st with view := scope }⟩
      ⟨control, [], { st with view := l.view inner phase }⟩ :=
    .base hcontrol (fun _ hf => nomatch hf)
  exact .part hphase hinside hpart

/-- The body starts. -/
theorem reaches_body (hbody : l.body.DeclaresNothing) (hinside : l.Inside outer scope inner)
    (st : State) :
    l.Reaches own clock outer
      ⟨.exec l.turn, .loopBody l.test l.turn :: l.outerFrames outer, { st with view := inner }⟩
      (.part .body scope (.exec l.body) st) := by
  have hfollows := follows_part .body (.exec l.body) st (by rintro ⟨⟩) hinside hbody
  cases hincrement : l.increment with
  | none =>
      simp only [frames, ForLoop.view, hincrement] at hfollows
      have hturn : l.turn = l.body := by rw [turn, hincrement]
      rw [hturn] at hfollows ⊢
      exact hfollows.reaches
  | some e =>
      simp only [frames, ForLoop.view, hincrement] at hfollows
      have hturn : l.turn = .block [l.body, .expression e] := by rw [turn, hincrement]
      rw [hturn] at hfollows ⊢
      exact .head rfl rfl (.head rfl rfl hfollows.reaches)

/-- A round starts. -/
theorem reaches_round (hbody : l.body.DeclaresNothing) (hinside : l.Inside outer scope inner)
    (st : State) :
    l.Reaches own clock outer
      ⟨.eval l.test, .loopTest l.test l.turn :: l.outerFrames outer, { st with view := inner }⟩
      (l.round scope st) := by
  rw [round]
  cases hcondition : l.condition with
  | some e =>
      have hfollows := follows_part .condition (.eval e) st (by rintro ⟨⟩) hinside trivial
      have htest : l.test = e := by rw [test, hcondition]; rfl
      rw [frames, htest] at hfollows
      rw [htest]
      exact hfollows.reaches
  | none =>
      -- The literal that stands for the missing condition is true.
      have htest : l.test = .literal (.bool true) := by rw [test, hcondition]; rfl
      have hreaches : l.Reaches own clock outer _ _ := reaches_body hbody hinside st
      rw [htest] at hreaches ⊢
      exact .head rfl rfl (.head rfl rfl hreaches)

/-- The plain loop is left when it has ended. -/
theorem reaches_ended (hinside : l.Inside outer scope inner) (st : State) :
    l.Reaches own clock outer ⟨.give .nil, l.outerFrames outer, { st with view := inner }⟩
      (.ended .normal { st with view := outer }) := by
  have hended : l.Reaches own clock outer ⟨.give .nil, [], { st with view := outer }⟩
      (.ended .normal { st with view := outer }) := (Follows.ended .normal _).reaches
  rw [outerFrames]
  cases hinitial : l.initial with
  | none =>
      rw [hinside.outer hinitial]
      exact hended
  | some s => exact .head rfl rfl (.head rfl rfl (.head rfl rfl hended))

/-- A part that ended with a value is followed by the next one. -/
theorem reaches_next (hbody : l.body.DeclaresNothing) (hinside : l.Inside outer scope inner)
    {phase : Phase} (hphase : phase ≠ .initial) (v : Value) (st : State) :
    l.Reaches own clock outer
      (Config.stepOwn own clock
        ⟨.give v, l.frames outer inner phase, { st with view := l.view inner phase }⟩)
      (l.next outer phase scope v { st with view := scope }) := by
  cases phase with
  | initial => exact absurd rfl hphase
  | condition =>
      have hstep : Config.stepOwn own clock
          ⟨.give v, l.frames outer inner .condition, { st with view := inner }⟩ =
          if v.isTruthy then
            ⟨.exec l.turn, .loopBody l.test l.turn :: l.outerFrames outer,
              { st with view := inner }⟩
          else ⟨.give .nil, l.outerFrames outer, { st with view := inner }⟩ := rfl
      simp only [next]
      rw [ForLoop.view, hstep]
      cases v.isTruthy with
      | true => exact reaches_body hbody hinside st
      | false => exact reaches_ended hinside st
  | body =>
      have hround : l.Reaches own clock outer _ _ := reaches_round hbody hinside st
      cases hincrement : l.increment with
      | none =>
          simp only [next, frames, ForLoop.view, hincrement]
          exact hround
      | some e =>
          have hfollows := follows_part .increment (.eval e) st (by rintro ⟨⟩) hinside trivial
          simp only [next, frames, ForLoop.view, hincrement] at hfollows ⊢
          exact .head rfl rfl (.head rfl rfl hfollows.reaches)
  | increment =>
      have hround : l.Reaches own clock outer _ _ := reaches_round hbody hinside st
      exact .head rfl rfl (.head rfl rfl (.head rfl rfl hround))

/-- A `return` leaves the loop. -/
theorem reaches_returned (v : Value) (fs : List (Frame View)) (hfs : fs ≠ [])
    (hpasses : ∀ f ∈ fs, PassesReturn f) (st : State) :
    l.Reaches own clock outer (Config.stepOwn own clock ⟨.returning v, fs, st⟩)
      (.ended (.returned v) (fs.foldl State.leave st)) := by
  cases fs with
  | nil => exact absurd rfl hfs
  | cons f fs =>
      obtain ⟨hf, hfs⟩ := List.forall_mem_cons.1 hpasses
      have hstep : Config.stepOwn own clock ⟨.returning v, f :: fs, st⟩ =
          ⟨.returning v, fs, st.leave f⟩ := hf st fs v
      rw [hstep]
      exact ⟨_, quiet_returning v hfs (st.leave f), .ended (.returned v) _⟩

/-- An error leaves the loop. -/
theorem reaches_failed (e : RuntimeError) (fs : List (Frame View)) (hfs : fs ≠ []) (st : State) :
    l.Reaches own clock outer (Config.stepOwn own clock ⟨.failing e, fs, st⟩)
      (.ended (.failed e) (fs.foldl State.leave st)) := by
  cases fs with
  | nil => exact absurd rfl hfs
  | cons f fs => exact ⟨_, quiet_failing e fs (st.leave f), .ended (.failed e) _⟩

theorem frames_ne_nil (phase : Phase) : l.frames outer inner phase ≠ [] := by
  cases phase with
  | body =>
      simp only [frames]
      cases l.increment <;> exact List.cons_ne_nil _ _
  | _ => exact List.cons_ne_nil _ _

/-- What has not ended takes a step. -/
theorem step_running {phase : Phase} {c : Config} (h : c.isFinished = false) :
    l.step own clock outer (.running phase scope c) = .running phase scope (c.stepOwn own clock) := by
  obtain ⟨control, frames, st⟩ := c
  cases control <;> cases frames <;> first | rfl | cases h

/-- The initializer takes a step, or the first round starts after it. -/
theorem reaches_of_initial (hbody : l.body.DeclaresNothing) (hinitial : l.initial.isSome = true)
    (c : Config) :
    l.Reaches own clock outer ((c.under (l.frames outer outer .initial)).stepOwn own clock)
      (l.step own clock outer (.running .initial outer.enter c)) := by
  cases hfinished : c.isFinished with
  | false =>
      rw [Config.stepOwn_under hfinished, step_running hfinished]
      exact (Follows.initial _ hinitial).reaches
  | true =>
      obtain ⟨control, fs, st⟩ := c
      cases control with
      | give v =>
          cases fs with
          | cons => cases hfinished
          | nil =>
              have hinside : l.Inside outer st.view st.view :=
                ⟨rfl, fun hnone => by rw [hnone] at hinitial; cases hinitial⟩
              have hround : l.Reaches own clock outer _ _ := reaches_round hbody hinside st
              obtain ⟨s, hs⟩ := Option.isSome_iff_exists.1 hinitial
              rw [outerFrames, hs] at hround
              exact .head rfl rfl (.head rfl rfl hround)
      | returning v =>
          cases fs with
          | cons => cases hfinished
          | nil =>
              exact reaches_returned v (l.frames outer outer .initial) (frames_ne_nil .initial)
                (passesReturn_frames .initial) st
      | failing e =>
          cases fs with
          | cons => cases hfinished
          | nil =>
              exact reaches_failed e (l.frames outer outer .initial) (frames_ne_nil .initial) st
      | eval | exec | execAll => cases hfinished

/-- A part of a round takes a step, or the next part starts after it. -/
theorem reaches_of_part (hbody : l.body.DeclaresNothing) {phase : Phase} {c c' : Config}
    (hphase : phase ≠ .initial) (hinside : l.Inside outer scope inner)
    (h : Rebased scope (l.view inner phase) c c') :
    l.Reaches own clock outer ((c'.under (l.frames outer inner phase)).stepOwn own clock)
      (l.step own clock outer (.running phase scope c)) := by
  cases hfinished : c.isFinished with
  | false =>
      rw [Config.stepOwn_under (h.isFinished_eq.trans hfinished), step_running hfinished]
      exact (Follows.part hphase hinside (h.stepOwn (hinside.view_cells phase))).reaches
  | true =>
      obtain ⟨control, st, rfl, rfl⟩ := h.of_frames_eq_nil (Config.frames_eq_nil hfinished)
      cases control with
      | give v => exact reaches_next hbody hinside hphase v st
      | returning v =>
          have hended : l.Reaches own clock outer _ _ :=
            reaches_returned v (l.frames outer inner phase) (frames_ne_nil phase)
              (passesReturn_frames phase) { st with view := l.view inner phase }
          rw [leave_frames hinside hphase st] at hended
          exact hended
      | failing e =>
          have hended : l.Reaches own clock outer _ _ :=
            reaches_failed e (l.frames outer inner phase) (frames_ne_nil phase)
              { st with view := l.view inner phase }
          rw [leave_frames hinside hphase st] at hended
          exact hended
      | eval | exec | execAll => cases hfinished

/-- A step of the loop is one step of its tree, and then maybe some that print nothing. -/
theorem Follows.step (hbody : l.body.DeclaresNothing) {c : Config} {d : Loop}
    (h : l.Follows outer c d) :
    l.Reaches own clock outer (c.stepOwn own clock) (l.step own clock outer d) := by
  cases h with
  | initial c hinitial => exact reaches_of_initial hbody hinitial c
  | part hphase hinside h => exact reaches_of_part hbody hphase hinside h
  | ended outcome st =>
      cases outcome with
      | normal => exact (Follows.ended .normal st).reaches
      | returned v => exact (Follows.ended (.returned v) st).reaches
      | failed e => exact (Follows.ended (.failed e) st).reaches

/-- The tree starts with what the loop starts with. -/
theorem reaches_start (hbody : l.body.DeclaresNothing) (st : State) :
    l.Reaches own clock st.view ⟨.exec l.tree, [], st⟩ (l.start st) := by
  rw [start]
  cases hinitial : l.initial with
  | none =>
      have hinside : l.Inside st.view st.view.enter st.view := ⟨rfl, fun _ => rfl⟩
      have hround : l.Reaches own clock st.view _ _ := reaches_round hbody hinside st
      rw [outerFrames, hinitial] at hround
      rw [l.tree_eq_rounds hinitial]
      exact .head rfl rfl hround
  | some s =>
      have hfollows : l.Follows st.view _ _ :=
        .initial ⟨.exec s, [], { st with view := st.view.enter }⟩ (by rw [hinitial]; rfl)
      rw [l.tree_eq_block hinitial]
      exact .head rfl rfl (.head rfl rfl hfollows.reaches)

/-! ## Runs -/

theorem Follows.output_eq {c : Config} {d : Loop} (h : l.Follows outer c d) :
    c.state.output = d.output := by
  cases h with
  | initial c => rfl
  | part _ _ h => exact h.output_eq
  | ended outcome st => rfl

/-- What has ended on no frames is a loop that has ended. -/
theorem Follows.eq_ended {c : Config} {d : Loop} (h : l.Follows outer c d) (hframes : c.frames = []) :
    ∃ outcome st, c = ⟨Outcome.control outcome, [], st⟩ ∧ d = .ended outcome st := by
  cases h with
  | initial c =>
      exact absurd hframes (List.append_ne_nil_of_right_ne_nil _ (frames_ne_nil .initial))
  | @part phase =>
      exact absurd hframes (List.append_ne_nil_of_right_ne_nil _ (frames_ne_nil phase))
  | ended outcome st => exact ⟨outcome, st, rfl, rfl⟩

/-- After every number of steps of the loop its tree comes to the same point, and until then it has
printed what the loop had printed at some point before. -/
theorem follows_run (hbody : l.body.DeclaresNothing) (own : List Name) (clock : Nat → Float)
    (st : State) (n : Nat) :
    ∃ m ≥ n, l.Follows st.view (Config.runOwn own clock m ⟨.exec l.tree, [], st⟩)
        (l.run own clock st n) ∧
      ∀ k ≤ m, ∃ i ≤ n, (Config.runOwn own clock k ⟨.exec l.tree, [], st⟩).state.output =
        (l.run own clock st i).output := by
  induction n with
  | zero =>
      have hstart : l.Reaches own clock st.view _ _ := reaches_start hbody st
      obtain ⟨_, ⟨m, rfl, hquiet⟩, hfollows⟩ := hstart
      refine ⟨m, Nat.zero_le m, hfollows, fun k hk => ⟨0, Nat.le_refl 0, ?_⟩⟩
      rw [hquiet k hk, ← hquiet m (Nat.le_refl m)]
      exact hfollows.output_eq
  | succ n ih =>
      obtain ⟨m, hm, hfollows, hbefore⟩ := ih
      have hstep : l.Reaches own clock st.view _ _ := hfollows.step hbody
      obtain ⟨_, ⟨more, rfl, hquiet⟩, hnext⟩ := hstep
      have hrun : ∀ k, Config.runOwn own clock (m + (k + 1)) ⟨.exec l.tree, [], st⟩ =
          ((Config.runOwn own clock m ⟨.exec l.tree, [], st⟩).stepOwn own clock).runOwn own clock
            k := by
        intro k
        rw [Config.runOwn_add, Config.runOwn_succ]
      refine ⟨m + (more + 1), by omega, ?_, fun k hk => ?_⟩
      · rw [hrun]
        exact hnext
      · rcases Nat.lt_or_ge m k with hlt | hle
        · obtain ⟨k, rfl⟩ : ∃ k', k = m + (k' + 1) := ⟨k - m - 1, by omega⟩
          refine ⟨n + 1, Nat.le_refl _, ?_⟩
          rw [hrun, hquiet k (by omega), ← hquiet more (Nat.le_refl more)]
          exact hnext.output_eq
        · obtain ⟨i, hi, houtput⟩ := hbefore k hle
          exact ⟨i, Nat.le_succ_of_le hi, houtput⟩

/-- A loop that has ended is a run of its tree that has ended so. -/
theorem exists_runOwn_of_run (hbody : l.body.DeclaresNothing) {n : Nat} {outcome : Outcome}
    {st s : State} (h : l.run own clock st n = .ended outcome s) :
    ∃ m, Config.runOwn own clock m ⟨.exec l.tree, [], st⟩ = ⟨outcome.control, [], s⟩ := by
  obtain ⟨m, -, hfollows, -⟩ := follows_run hbody own clock st n
  rw [h] at hfollows
  refine ⟨m, ?_⟩
  generalize Config.runOwn own clock m ⟨.exec l.tree, [], st⟩ = c at hfollows
  cases hfollows
  rfl

/-- A run of the tree that has ended is a loop that has ended. -/
theorem exists_run_of_isFinished (hbody : l.body.DeclaresNothing) {m : Nat} {st : State}
    (h : (Config.runOwn own clock m ⟨.exec l.tree, [], st⟩).isFinished = true) :
    ∃ n outcome s, l.run own clock st n = .ended outcome s ∧
      Config.runOwn own clock m ⟨.exec l.tree, [], st⟩ = ⟨outcome.control, [], s⟩ := by
  obtain ⟨k, hk, hfollows, -⟩ := follows_run hbody own clock st m
  obtain ⟨more, rfl⟩ := Nat.exists_eq_add_of_le hk
  -- Nothing changes any more after it has ended.
  rw [Config.runOwn_add, Config.runOwn_of_isFinished h] at hfollows
  obtain ⟨outcome, s, hc, hd⟩ := hfollows.eq_ended (Config.frames_eq_nil h)
  exact ⟨m, outcome, s, hd, hc⟩

end ForLoop

end Lox.Lexical
