import Lox.Proofs.Lexical.Sessions
import Lox.Proofs.Loop.Desugared
import Lox.Proofs.Loop.Occurrence

set_option autoImplicit false

/-! # A `for` loop is its tree

In every accepted program the tree that a `for` loop is read as does what the loop means: it ends if
and only if the loop does, in the same way and in the same state, and until then it prints the
same (`Session.runs_forLoop`). What the loop means is said with cells and names; environments and
distances fit them wherever the loop starts (`ConfigFits`).
-/

namespace Lox

namespace Lexical

variable {t : BindingTable} {own : List Name}

/-- A bound statement that is not a declaration declares nothing. -/
theorem declaresNothing_of_bound {s : Stmt} {scopes : Scopes} (hs : s.Bound t own scopes)
    (hdeclaration : s.isDeclaration = false) : s.DeclaresNothing := by
  induction s using Stmt.DeclaresNothing.induct with
  | case1 | case2 | case3 => cases hdeclaration
  | case4 condition yes ih => exact ih hs.2.2 hs.2.1
  | case5 condition yes no ihyes ihno => exact ⟨ihyes hs.2.1.2 hs.2.1.1, ihno hs.2.2.2 hs.2.2.1⟩
  | case6 condition body ih => exact ih hs.2.2 hs.2.1
  | _ => trivial

namespace ForLoop

variable (l : ForLoop)

theorem bound_body_of_rounds {scopes : Scopes} (h : l.rounds.Bound t own scopes) :
    ∃ inner, l.body.Bound t own inner := by
  obtain ⟨-, -, hturn⟩ := h
  rw [turn] at hturn
  split at hturn
  · exact ⟨[] :: scopes, hturn.1⟩
  · exact ⟨scopes, hturn⟩

theorem bound_body {scopes : Scopes} (h : l.tree.Bound t own scopes) :
    ∃ inner, l.body.Bound t own inner := by
  cases hinitial : l.initial with
  | none =>
      rw [l.tree_eq_rounds hinitial] at h
      exact l.bound_body_of_rounds h
  | some s =>
      rw [l.tree_eq_block hinitial] at h
      exact l.bound_body_of_rounds h.2.1

/-! ## A loop where it starts -/

section

open World

variable {l} {clock : Nat → Float} {fs : List (Frame EnvId)} {fs' : List (Frame View)}
  {st : Lox.State} {st' : State}
  (h : ConfigFits t own ⟨.exec l.tree, fs, st⟩ ⟨.exec l.tree, fs', st'⟩)

include h

theorem declaresNothing_body : l.body.DeclaresNothing := by
  obtain ⟨-, hcontrol⟩ := h
  cases hcontrol with
  | exec _ htree =>
      obtain ⟨inner, hbody⟩ := l.bound_body htree
      exact declaresNothing_of_bound hbody l.isDeclaration_body

/-- The tree ends if and only if the loop does. -/
theorem exists_endsAt_iff :
    (∃ m, Lox.Config.EndsAt ⟨t, clock⟩ ⟨.exec l.tree, fs, st⟩ m) ↔
      ∃ n outcome s', l.run own clock st' n = .ended outcome s' := by
  have hbody := declaresNothing_body h
  constructor
  · rintro ⟨m, hends⟩
    obtain ⟨n, outcome, s', hended, -⟩ := exists_run_of_isFinished hbody (h.endsAt_iff.1 hends).1
    exact ⟨n, outcome, s', hended⟩
  · rintro ⟨n, outcome, s', hended⟩
    obtain ⟨m, hrun⟩ := exists_runOwn_of_run hbody hended
    obtain ⟨first, -, hfirst, hgoes⟩ := Config.exists_first own clock ⟨.exec l.tree, [], st'⟩ m
    refine ⟨first, h.endsAt_iff.2 ⟨?_, hgoes⟩⟩
    rw [hfirst, hrun]
    cases outcome <;> rfl

/-- The tree ends as the loop does, and leaves what the loop leaves. -/
theorem fits_of_ended {m n : Nat} {outcome : Outcome} {s' : State}
    (hends : Lox.Config.EndsAt ⟨t, clock⟩ ⟨.exec l.tree, fs, st⟩ m)
    (hended : l.run own clock st' n = .ended outcome s') :
    ConfigFits t own (Lox.Config.run ⟨t, clock⟩ m ⟨.exec l.tree, fs, st⟩)
      ⟨outcome.control, fs', s'⟩ := by
  obtain ⟨hfinished, hgoes⟩ := h.endsAt_iff.1 hends
  obtain ⟨n', outcome', s'', hended', hrun⟩ :=
    exists_run_of_isFinished (declaresNothing_body h) hfinished
  have hsame : Loop.ended outcome' s'' = .ended outcome s' :=
    (run_of_le hended' (Nat.le_max_right n n')).symm.trans (run_of_le hended (Nat.le_max_left n n'))
  have hfits := h.run_under hgoes
  rw [hrun] at hfits
  cases hsame
  exact hfits

/-- Until the tree ends, it has printed what the loop has printed at some point. -/
theorem exists_output_eq {m : Nat}
    (hgoes : ∀ k < m, ¬ Lox.Config.EndsAt ⟨t, clock⟩ ⟨.exec l.tree, fs, st⟩ k) :
    ∃ n, (Lox.Config.run ⟨t, clock⟩ m ⟨.exec l.tree, fs, st⟩).state.output =
      (l.run own clock st' n).output := by
  obtain ⟨k, hk, -, hbefore⟩ := follows_run (declaresNothing_body h) own clock st' m
  obtain ⟨n, -, houtput⟩ := hbefore m hk
  exact ⟨n, (h.run_under (h.goes_of_not_endsAt hgoes)).output_eq.symm.trans houtput⟩

/-- What the loop has printed, its tree has printed at some point before it ends. -/
theorem exists_run_output_eq (clock : Nat → Float) (n : Nat) :
    ∃ m, (∀ k < m, ¬ Lox.Config.EndsAt ⟨t, clock⟩ ⟨.exec l.tree, fs, st⟩ k) ∧
      (Lox.Config.run ⟨t, clock⟩ m ⟨.exec l.tree, fs, st⟩).state.output =
        (l.run own clock st' n).output := by
  obtain ⟨m, -, hfollows, -⟩ := follows_run (declaresNothing_body h) own clock st' n
  obtain ⟨first, -, hfirst, hgoes⟩ := Config.exists_first own clock ⟨.exec l.tree, [], st'⟩ m
  refine ⟨first, fun k hk hends => ?_, ?_⟩
  · have hfinished := (h.endsAt_iff.1 hends).1
    rw [hgoes k hk] at hfinished
    cases hfinished
  · rw [← hfirst] at hfollows
    exact (h.run_under hgoes).output_eq.symm.trans hfollows.output_eq

end

end ForLoop

end Lexical

/-- The tree of a `for` loop preserves its meaning. Every `for` of the accepted source starts the
text of a loop whose tree stands in the program, and no statement that starts so is anything else.
Wherever such a tree is executed, in whatever line of a session in which the lines before it ended,
the reference machine is at the same point. And from every such point the tree ends if and only if
the loop does, with the same outcome and in the same state, so that whatever comes afterwards shows
the same; and until then both print the same. -/
theorem Session.runs_forLoop (clock : Nat → Float) {most : Nat} {lines : List String}
    (hlines : ∀ r ∈ start.runAll clock most lines, r.ending ≠ .running)
    {source : String} {p : Program} {t : BindingTable}
    (haccept : (start.afterAll clock most lines).accept source = .ok (p, t)) :
    (∀ before keyword after,
      (Scan.ofText source (start.afterAll clock most lines).offset).tokens =
        before ++ keyword :: after →
      keyword.kind = .keyword .forWord →
        ∃ (l : Lexical.ForLoop) (ts rest : List Token), after = ts ++ rest ∧
          l.SpelledBy (keyword :: ts) ∧ l.tree ∈ p.statements) ∧
    (∀ keyword ts s, keyword.kind = .keyword .forWord →
      Grammar.Spells (.symbol .statement) (keyword :: ts) (.stmt s) →
        ∃ l : Lexical.ForLoop, l.SpelledBy (keyword :: ts) ∧ s = l.tree) ∧
    ∀ l : Lexical.ForLoop,
    let session := start.afterAll clock most lines
    let held := start.lexicalAll clock most .start lines
    let own := held.own ++ p.ownAssignments
    (∀ steps frames st,
      session.runProgram clock steps p t = ⟨.exec l.tree, frames, st⟩ →
        ∃ frames' st',
          held.runProgram clock steps p = ⟨.exec l.tree, frames', st'⟩ ∧
          Lexical.World.ConfigFits t own ⟨.exec l.tree, frames, st⟩ ⟨.exec l.tree, frames', st'⟩) ∧
    ∀ frames st frames' st',
      Lexical.World.ConfigFits t own ⟨.exec l.tree, frames, st⟩ ⟨.exec l.tree, frames', st'⟩ →
      let c : Config := ⟨.exec l.tree, frames, st⟩
      let direct := l.run own clock st'
      ((∃ m, c.EndsAt ⟨t, clock⟩ m) ↔ ∃ n outcome s', direct n = .ended outcome s') ∧
      (∀ m n outcome s', c.EndsAt ⟨t, clock⟩ m → direct n = .ended outcome s' →
        s'.view = st'.view ∧
        Lexical.World.ConfigFits t own (c.run ⟨t, clock⟩ m) ⟨outcome.control, frames', s'⟩ ∧
        ∀ more, Report.ofConfig (c.run ⟨t, clock⟩ (m + more)) =
          (Lexical.Config.runOwn own clock more ⟨outcome.control, frames', s'⟩).report) ∧
      (∀ m, (∀ k < m, ¬ c.EndsAt ⟨t, clock⟩ k) →
        ∃ n, (c.run ⟨t, clock⟩ m).state.output = (direct n).output) ∧
      ∀ n, ∃ m, (∀ k < m, ¬ c.EndsAt ⟨t, clock⟩ k) ∧
        (c.run ⟨t, clock⟩ m).state.output = (direct n).output := by
  refine ⟨fun before keyword after htokens hkeyword => ?_,
    fun _ _ _ => Lexical.ForLoop.exists_spelledBy, fun l => ?_⟩
  · obtain ⟨-, hparsed, -⟩ := accept_eq_ok_iff.1 haccept
    have hofTokens : Program.ofTokens (Scan.ofText source _).tokens (Scan.ofText source _).eof =
      .ok p := hparsed
    rw [htokens] at hofTokens
    exact Program.exists_loop_of_ofTokens rfl hofTokens hkeyword
  intro session held own
  have hread : session.HoldsRead := holdsRead_start.afterAll clock most lines
  have hheld : session.FitsHeld held := fitsHeld_start.afterAll holdsRead_start ⟨rfl, rfl⟩ hlines
  refine ⟨fun steps frames st hreached => ?_, fun frames st frames' st' hfits => ?_⟩
  · have hrun := hheld.runProgram hread haccept clock steps
    rw [hreached] at hrun
    generalize held.runProgram clock steps p = c' at hrun
    cases hrun with
    | mk hstate hcontrol => exact ⟨_, _, rfl, .mk hstate hcontrol⟩
  · refine ⟨Lexical.ForLoop.exists_endsAt_iff hfits, fun m n outcome s' hends hended => ?_,
      fun m => Lexical.ForLoop.exists_output_eq hfits,
      Lexical.ForLoop.exists_run_output_eq hfits clock⟩
    have hafter := Lexical.ForLoop.fits_of_ended hfits hends hended
    refine ⟨Lexical.ForLoop.view_of_run hended, hafter, fun more => ?_⟩
    rw [Config.run_add]
    exact (hafter.runOwn clock more).report_eq.symm

/-- The parts of a `for` loop that has all of them. -/
def Lexical.ForLoop.parts? : Control → Option (Stmt × Expr × Stmt × Expr)
  | .exec (.block [initial, .loop condition (.block [body, .expression increment])]) =>
      some (initial, condition, body, increment)
  | _ => none

theorem Lexical.ForLoop.eq_of_parts? {control : Control} {initial body : Stmt}
    {condition increment : Expr} (h : parts? control = some (initial, condition, body, increment)) :
    control = .exec (.block [initial, .loop condition (.block [body, .expression increment])]) := by
  unfold parts? at h
  split at h
  · cases h
    rfl
  · cases h

/-- A loop in a function. A function that is made in the body of the loop sees its variable. -/
def Session.loopLine : String :=
  "var f; fun loop() \x7b for (var x = true; x; x = false) " ++
    "\x7b fun g() \x7b print x; \x7d f = g; \x7d \x7d"

theorem Session.runAll_loopLine :
    start.runAll Float.ofNat 100 [loopLine] = [⟨"", .finished⟩] := by
  decide +kernel

/-- A function that is made in the body sees the variable of the loop after its last increment. The
loop stands in a function of an earlier line, from its ninth token on. -/
theorem Session.runs_forLoop_closure :
    (∃ p t keyword ts rest, ∃ l : Lexical.ForLoop, start.accept loopLine = .ok (p, t) ∧
      (Scan.ofText loopLine 0).tokens =
        (Scan.ofText loopLine 0).tokens.take 8 ++ keyword :: (ts ++ rest) ∧
      keyword.kind = .keyword .forWord ∧ l.SpelledBy (keyword :: ts) ∧ l.tree ∈ p.statements) ∧
    ∃ session held p t, ∃ l : Lexical.ForLoop, ∃ frames st frames' st' m n,
      ∃ outcome : Lexical.Outcome, ∃ s',
      session = start.afterAll Float.ofNat 100 [loopLine] ∧
      held = start.lexicalAll Float.ofNat 100 .start [loopLine] ∧
      session.accept "loop(); f();" = .ok (p, t) ∧
      session.runProgram Float.ofNat 5 p t = ⟨.exec l.tree, frames, st⟩ ∧
      held.runProgram Float.ofNat 5 p = ⟨.exec l.tree, frames', st'⟩ ∧
      Config.EndsAt ⟨t, Float.ofNat⟩ ⟨.exec l.tree, frames, st⟩ m ∧
      l.run (held.own ++ p.ownAssignments) Float.ofNat st' n = .ended outcome s' ∧
      Lexical.World.ConfigFits t (held.own ++ p.ownAssignments)
        (Config.run ⟨t, Float.ofNat⟩ m ⟨.exec l.tree, frames, st⟩)
        ⟨outcome.control, frames', s'⟩ ∧
      ∃ more, (Lexical.Config.runOwn (held.own ++ p.ownAssignments) Float.ofNat more
        ⟨outcome.control, frames', s'⟩).report.output = "false\n" := by
  constructor
  · obtain ⟨p, t, haccept, hfor⟩ := start.exists_of_accept loopLine
      (fun _ => (Scan.ofText loopLine 0).tokens[8]?.any (·.kind.isKeyword .forWord))
      (by decide +kernel)
    obtain ⟨keyword, hkeyword, hkind⟩ := Option.any_eq_true _ _ |>.1 hfor
    obtain ⟨hlt, rfl⟩ := List.getElem?_eq_some_iff.1 hkeyword
    have htokens := (List.take_append_drop 8 (Scan.ofText loopLine 0).tokens).symm
    rw [List.drop_eq_getElem_cons hlt] at htokens
    have hnone : ∀ r ∈ start.runAll Float.ofNat 0 [], r.ending ≠ .running := nofun
    obtain ⟨hloops, -⟩ := Session.runs_forLoop Float.ofNat hnone haccept
    obtain ⟨l, ts, rest, hrest, hspelled, htree⟩ :=
      hloops _ _ _ htokens (Token.Kind.isKeyword_iff.1 hkind)
    rw [hrest] at htokens
    exact ⟨p, t, _, ts, rest, l, haccept, htokens, Token.Kind.isKeyword_iff.1 hkind, hspelled,
      htree⟩
  let session := start.afterAll Float.ofNat 100 [loopLine]
  have hlines : ∀ r ∈ start.runAll Float.ofNat 100 [loopLine], r.ending ≠ .running := by
    rw [runAll_loopLine]
    decide
  obtain ⟨p, t, haccept, hcheck⟩ := session.exists_of_accept "loop(); f();"
    (fun accepted =>
      let c := session.runProgram Float.ofNat 5 accepted.1 accepted.2
      let last := c.run ⟨accepted.2, Float.ofNat⟩ 60
      (Lexical.ForLoop.parts? c.control).any (fun parts => !parts.2.2.1.isDeclaration) &&
      !c.frames.isEmpty && last.isFinished && last.state.output == "false\n")
    (by decide +kernel)
  simp only [Bool.and_eq_true] at hcheck
  obtain ⟨⟨⟨hfor, hframes⟩, hfinished⟩, houtput⟩ := hcheck
  generalize hreached : session.runProgram Float.ofNat 5 p t = c at *
  obtain ⟨control, frames, st⟩ := c
  obtain ⟨⟨initial, condition, body, increment⟩, hparts, hbody⟩ := Option.any_eq_true _ _ |>.1 hfor
  cases Lexical.ForLoop.eq_of_parts? hparts
  let l : Lexical.ForLoop :=
    ⟨some initial, some condition, some increment, body, by simpa using hbody⟩
  obtain ⟨hpoint, hruns⟩ := (Session.runs_forLoop Float.ofNat hlines haccept).2.2 l
  obtain ⟨frames', st', hreached', hfits⟩ := hpoint 5 frames st hreached
  obtain ⟨hends, hlater, -⟩ := hruns frames st frames' st' hfits
  -- The whole program ends within these steps, so the loop does.
  obtain ⟨m, hm, hend⟩ := (Config.endsAt_or_waits ⟨t, Float.ofNat⟩
    ⟨.exec l.tree, frames, st⟩ 60).resolve_right (by
      rintro ⟨above, habove⟩
      have hnone := habove.symm.trans (Config.isFinished_iff.1 hfinished).1
      rw [List.append_eq_nil_iff.1 hnone |>.2] at hframes
      cases hframes)
  obtain ⟨n, outcome, s', hended⟩ := hends.1 ⟨m, hend⟩
  obtain ⟨-, hafter, hreport⟩ := hlater m n outcome s' hend hended
  refine ⟨session, _, p, t, l, frames, st, frames', st', m, n, outcome, s', rfl, rfl,
    haccept, hreached, hreached', hend, hended, hafter, 60 - m, ?_⟩
  rw [← hreport, Nat.add_sub_cancel' hm]
  exact eq_of_beq houtput

end Lox
