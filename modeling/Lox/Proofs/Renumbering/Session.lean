import Lox.Proofs.Binding.Table
import Lox.Proofs.Renumbering.Findings
import Lox.Proofs.Renumbering.Scan
import Lox.Proofs.Renumbering.Step
import Lox.Proofs.Session.Lines
import Mathlib.Logic.Function.Basic

set_option autoImplicit false

/-! # Sessions that have read more

A session that has read more text than another one, and has the same state but for the numbering,
accepts and rejects the same sources, with the same errors, and shows the same when it runs them
(`Session.Moved.run`).
-/

namespace Lox

variable {r : Renumbering}

/-! ## Tables -/

namespace BindingTable

variable {t t' : BindingTable}

/-- A table that says of renumbered references what the other one says of the references, goes
on doing so when both are extended, if no other reference is renumbered to a key. -/
theorem getElem?_extend_renumber {entries : List (Nat × Nat)}
    (hinj : ∀ entry ∈ entries, ∀ i, r.start entry.1 = r.start i → entry.1 = i)
    (h : ∀ i : Nat, t'[r.start i]? = t[i]?) (i : Nat) :
    (t'.extend (entries.map fun entry => (r.start entry.1, entry.2)))[r.start i]? =
      (t.extend entries)[i]? := by
  induction entries generalizing t t' with
  | nil => exact h i
  | cons entry entries ih =>
      obtain ⟨hentry, hentries⟩ := List.forall_mem_cons.1 hinj
      refine ih hentries fun i => ?_
      have hkey : r.start entry.1 = r.start i ↔ entry.1 = i := ⟨hentry i, congrArg r.start⟩
      rw [Std.TreeMap.getElem?_insert, Std.TreeMap.getElem?_insert, h]
      simp [hkey]

end BindingTable

/-! ## Reports -/

/-- How a run ended, with renumbered code. -/
def Ending.renumber (r : Renumbering) : Ending → Ending
  | .failed e => .failed (e.renumber r)
  | ending => ending

/-- A renumbered run shows the same after what was shown before. -/
theorem Report.ofConfig_renumber (shown : String) (c : Config) :
    ofConfig (c.renumber r shown) =
      ⟨shown ++ (ofConfig c).output, (ofConfig c).ending.renumber r⟩ := by
  obtain ⟨control, frames, st⟩ := c
  cases frames <;> cases control <;> rfl

/-! ## Errors -/

section Errors

variable (hline : ∀ i, r.line i = i)

include hline

theorem LexError.toDiagnostic_renumber (e : LexError) :
    (e.renumber r).toDiagnostic = e.toDiagnostic := by
  simp [toDiagnostic, renumber, hline]

theorem ParseError.toDiagnostic_renumber (e : ParseError) :
    (e.renumber r).toDiagnostic = e.toDiagnostic := by
  simp [toDiagnostic, renumber, Token.renumber, Diagnostic.Site.ofToken, hline]

theorem ResolveError.toDiagnostic_renumber (e : ResolveError) :
    (e.renumber r).toDiagnostic = e.toDiagnostic := by
  simp [toDiagnostic, renumber, Name.renumber, hline]

theorem Ending.renumber_eq (ending : Ending) : ending.renumber r = ending := by
  cases ending <;> simp [renumber, RuntimeError.renumber, hline]

theorem Program.errors_moved {source : String} {offset characters : Nat}
    (hstart : ∀ i, offset ≤ i → i ≤ offset + source.length → r.start i = i + characters) :
    (Program.ofText source (offset + characters)).errors =
      (Program.ofText source offset).errors := by
  obtain ⟨hlex, hparsed⟩ := Program.ofText_moved hline hstart
  have hlexical : ∀ es : List LexError,
      (es.map (LexError.renumber r)).map LexError.toDiagnostic =
        es.map LexError.toDiagnostic := fun es => by
    rw [List.map_map]
    exact List.map_congr_left fun e _ => LexError.toDiagnostic_renumber hline e
  have hsyntactic : ∀ es : List ParseError,
      (es.map (ParseError.renumber r)).map ParseError.toDiagnostic =
        es.map ParseError.toDiagnostic := fun es => by
    rw [List.map_map]
    exact List.map_congr_left fun e _ => ParseError.toDiagnostic_renumber hline e
  rw [Reading.errors, Reading.errors, hlex, hlexical, hparsed]
  cases (Program.ofText source offset).parsed with
  | ok p => rfl
  | error es => exact congrArg _ (hsyntactic es)

end Errors

theorem Config.ofProgram_renumber (shown : String) (p : Program) (st : State) :
    (ofProgram p st).renumber r shown =
      ofProgram (p.map (Stmt.renumber r)) (st.renumber r shown) :=
  State.continueProgram_renumber st [] p

/-- A renumbered program has the same scoping errors, or a table that says the same. -/
theorem Program.bind_renumber (hline : ∀ i, r.line i = i) {t t' : BindingTable}
    (h : ∀ i : Nat, t'[r.start i]? = t[i]?) {p : Program}
    (hinj : ∀ entry ∈ p.findings.bindings, ∀ i, r.start entry.1 = r.start i → entry.1 = i) :
    (∃ errors errors', p.bind t = .error errors ∧
      bind (p.map (Stmt.renumber r)) t' = .error errors' ∧
      errors'.map ResolveError.toDiagnostic = errors.map ResolveError.toDiagnostic) ∨
    ∃ u u', p.bind t = .ok u ∧ bind (p.map (Stmt.renumber r)) t' = .ok u' ∧
      ∀ i : Nat, u'[r.start i]? = u[i]? := by
  have herrors : (findings (p.map (Stmt.renumber r))).errors.isEmpty =
      p.findings.errors.isEmpty := by
    rw [findings_renumber, Findings.renumber, List.isEmpty_map]
  rw [bind, bind, herrors]
  split
  · refine .inr ⟨_, _, rfl, rfl, ?_⟩
    rw [findings_renumber]
    exact BindingTable.getElem?_extend_renumber hinj h
  · refine .inl ⟨_, _, rfl, rfl, ?_⟩
    rw [findings_renumber, Findings.renumber, List.map_map]
    exact List.map_congr_left fun e _ => ResolveError.toDiagnostic_renumber hline e

/-- Both readings are accepted, or rejected with the same errors, if the one is the other one
renumbered. -/
theorem Reading.accept_renumber {reading reading' : Reading (List ParseError) Program}
    (hline : ∀ i, r.line i = i) {t t' : BindingTable} (h : ∀ i : Nat, t'[r.start i]? = t[i]?)
    (herrors : reading'.errors = reading.errors)
    (hlex : reading'.lexErrors.isEmpty = reading.lexErrors.isEmpty)
    (hparsed : (∃ e e', reading.parsed = .error e ∧ reading'.parsed = .error e') ∨
      ∃ p, reading.parsed = .ok p ∧ reading'.parsed = .ok (p.map (Stmt.renumber r)) ∧
        ∀ entry ∈ p.findings.bindings, ∀ i, r.start entry.1 = r.start i → entry.1 = i) :
    (∃ errors, reading.accept t = .error errors ∧ reading'.accept t' = .error errors) ∨
      ∃ p u u', reading.accept t = .ok (p, u) ∧
        reading'.accept t' = .ok (p.map (Stmt.renumber r), u') ∧
        ∀ i : Nat, u'[r.start i]? = u[i]? := by
  simp only [accept, herrors, hlex]
  rcases hparsed with ⟨e, e', hparsed, hparsed'⟩ | ⟨p, hparsed, hparsed', hinj⟩
  · rw [hparsed, hparsed']
    exact .inl ⟨_, rfl, rfl⟩
  · rw [hparsed, hparsed']
    dsimp only
    split
    · rcases Program.bind_renumber hline h hinj with
        ⟨errors, errors', hbind, hbind', heq⟩ | ⟨u, u', hbind, hbind', hu⟩
      · rw [hbind, hbind']
        exact .inl ⟨_, rfl, congrArg Except.error heq⟩
      · rw [hbind, hbind']
        exact .inr ⟨p, u, u', rfl, rfl, hu⟩
    · exact .inl ⟨_, rfl, rfl⟩

namespace Session

/-- The second session has read more, and is the first one renumbered. -/
structure Moved (r : Renumbering) (characters : Nat) (session session' : Session) : Prop where
  state : session'.state = session.state.renumber r ""
  bindings : ∀ i : Nat, session'.bindings[r.start i]? = session.bindings[i]?
  offset : session'.offset = session.offset + characters

variable {characters : Nat} {session session' : Session}

section Run

variable (hline : ∀ i, r.line i = i) (hinj : Function.Injective r.start)
  (hstart : ∀ i, session.offset ≤ i → r.start i = i + characters)
  (h : session.Moved r characters session')

include hline hinj hstart h

/-- Both sessions accept a source, or reject it with the same errors. -/
theorem Moved.accept (source : String) :
    (∃ errors, session.accept source = .error errors ∧ session'.accept source = .error errors) ∨
      ∃ p t t', session.accept source = .ok (p, t) ∧
        session'.accept source = .ok (p.map (Stmt.renumber r), t') ∧
        ∀ i : Nat, t'[r.start i]? = t[i]? := by
  have hplace : ∀ i, session.offset ≤ i → i ≤ session.offset + source.length →
      r.start i = i + characters := fun i hi _ => hstart i hi
  obtain ⟨hlex, hparsed⟩ := Program.ofText_moved hline hplace
  have hempty := congrArg List.isEmpty hlex
  rw [List.isEmpty_map] at hempty
  rw [Session.accept, Session.accept, h.offset]
  refine Reading.accept_renumber hline h.bindings (Program.errors_moved hline hplace) hempty ?_
  rw [hparsed]
  cases (Program.ofText source session.offset).parsed with
  | error errors => exact .inl ⟨_, _, rfl, rfl⟩
  | ok p => exact .inr ⟨p, rfl, rfl, fun _ _ _ heq => hinj heq⟩

/-- Both sessions show the same for a source, and go on alike. -/
theorem Moved.run (clock : Nat → Float) (steps : Nat) (source : String) :
    (session'.run clock steps source).1 = (session.run clock steps source).1 ∧
      (session.run clock steps source).2.Moved r characters
        (session'.run clock steps source).2 := by
  have hoffset : session'.offsetAfter source = session.offsetAfter source + characters := by
    simp only [offsetAfter, h.offset]
    omega
  rcases h.accept hline hinj hstart source with ⟨errors, haccept, haccept'⟩ |
    ⟨p, t, t', haccept, haccept', ht⟩
  · rw [Session.run, Session.run, haccept, haccept']
    exact ⟨rfl, h.state, h.bindings, hoffset⟩
  · have hagrees : Setting.Agrees r ⟨t, clock⟩ ⟨t', clock⟩ := ⟨ht, rfl⟩
    have hlast : session'.runProgram clock steps (p.map (Stmt.renumber r)) t' =
        (session.runProgram clock steps p t).renumber r "" := by
      rw [runProgram, runProgram, Config.run_renumber hagrees, Config.ofProgram_renumber, h.state]
      rfl
    rw [Session.run, Session.run, haccept, haccept']
    refine ⟨?_, congrArg Config.state hlast, ht, hoffset⟩
    show Report.ofConfig _ = Report.ofConfig _
    rw [hlast, Report.ofConfig_renumber, Ending.renumber_eq hline, String.empty_append]

end Run

end Session

end Lox
