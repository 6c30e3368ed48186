import Lox.Proofs.Renaming.Findings
import Lox.Proofs.Renaming.Parser
import Lox.Proofs.Renaming.Step
import Lox.Proofs.Renaming.Text
import Lox.Proofs.Renumbering.Session

set_option autoImplicit false

/-! # Other names for local variables

A local variable or parameter gets another name, one that occurs nowhere in the program: where it is
declared, and wherever a name stands for it (`Program.renamingOf`). The text in which this has been
done is that of the renamed program (`Program.ofText_renamed`). It is accepted, all its references
are as far out as they were, and it runs in the same way (`runSource_renamed`). Only the message
that the variable is not bound has the other name.
-/

namespace Lox

variable {r : Renaming}

/-! ## Reports -/

/-- A run ended in the same way, or it failed with the other name of the variable. -/
inductive Ending.Renames (r : Renaming) : Ending → Ending → Prop
  | same (ending : Ending) : Renames r ending ending
  | unbound (line : Nat) :
      Renames r (.failed ⟨.unbound r.old, line⟩) (.failed ⟨.unbound r.new, line⟩)

/-- Two runs show the same, up to the name of a variable that is not bound. -/
structure Report.Renames (r : Renaming) (report report' : Report) : Prop where
  output : report'.output = report.output
  ending : report.ending.Renames r report'.ending

/-- Both programs exit with the same code. -/
theorem Report.Renames.exitCode_eq {report report' : Report} (h : report.Renames r report') :
    report'.exitCode = report.exitCode := by
  obtain ⟨output, ending⟩ := report
  obtain ⟨output', ending'⟩ := report'
  have hending : ending.Renames r ending' := h.ending
  cases hending with
  | same => rfl
  | unbound line => rfl

/-- A run that goes through shows nothing else with the other name. -/
theorem Report.Renames.eq_of_finished {output : String} {report' : Report}
    (h : Report.Renames r ⟨output, .finished⟩ report') : report' = ⟨output, .finished⟩ := by
  obtain ⟨output', ending'⟩ := report'
  obtain ⟨rfl, hending⟩ := h
  cases hending
  rfl

theorem Config.Renames.report {t : BindingTable} {c c' : Config} (h : c.Renames r t c') :
    (Report.ofConfig c).Renames r (Report.ofConfig c') := by
  obtain @⟨M, marks, control, control', fs, st, -, -, hrenames⟩ := h
  refine ⟨rfl, ?_⟩
  cases hrenames with
  | same => cases fs <;> cases control <;> exact .same _
  | failing he =>
      cases fs with
      | cons f fs => exact .same _
      | nil =>
          cases he with
          | same e => exact .same _
          | unbound line => exact .unbound line

/-- A program and the renamed one start in the same way. -/
theorem Config.renames_ofProgram {t : BindingTable} {p : Program} (ho : r.Ordinary)
    (hs : Stmt.SpelledAll r t [] p) :
    (ofProgram p .start).Renames r t (ofProgram (p.map (Stmt.rename r)) .start) := by
  have hfits : r.Fits t (fun _ => false) [] State.start [] := by
    constructor
    · exact ho
    · exact .start
    · rfl
    · exact .nil []
  -- At first nothing is marked, and there is no code.
  have hstart : State.start.rename r (fun _ => false) = State.start := by with_unfolding_all rfl
  have hrenames := hfits.continueProgram hs
  rw [hstart] at hrenames
  exact hrenames

/-! ## Accepted programs -/

theorem Lexeme.ne_keyword {word : String} (h : Lexeme word.toList .identifier) (w : Keyword) :
    word ≠ w.text := by
  obtain ⟨-, -, -, -, -, hkeyword⟩ := h.exists_word
  intro hword
  exact hkeyword w (congrArg String.toList hword.symm)

namespace Program

variable {source : String} {p : Program} {t : BindingTable} {d : Name} {new : String}

theorem mem_names_of_mem_occurrences {o : Occurrence} (ho : o ∈ p.occurrences) :
    o.name ∈ p.names := by
  rw [← map_name_occurrences]
  exact List.mem_map_of_mem ho

section Parsed

variable {offset : Nat} (hparsed : (Program.ofText source offset).parsed = .ok p)

include hparsed

theorem lexeme_of_mem_names {n : Name} (hn : n ∈ p.names) :
    Lexeme n.text.toList .identifier := by
  obtain ⟨token, htoken, hkind, hname⟩ := exists_token_of_mem_names hparsed hn
  have hlexeme := Scan.lexeme_of_mem htoken
  rw [hkind] at hlexeme
  rw [← hname]
  exact hlexeme

/-- At each offset that is renamed there is an identifier with the old spelling. -/
theorem exists_token_of_mem_starts {i : Nat} (hi : i ∈ (p.renamingOf d new).starts) :
    ∃ token ∈ (Scan.ofText source offset).tokens,
      token.start = i ∧ token.kind = .identifier ∧ token.lexeme = d.text := by
  obtain ⟨o, ho, hstart⟩ := List.mem_map.1 hi
  obtain ⟨ho, hmeaning⟩ := List.mem_filter.1 ho
  have hmeaning : o.meaning = some d := of_decide_eq_true hmeaning
  have htext : d.text = o.name.text := p.sameText_occurrences o ho d hmeaning
  obtain ⟨token, htoken, hkind, hname⟩ :=
    exists_token_of_mem_names hparsed (mem_names_of_mem_occurrences ho)
  refine ⟨token, htoken, ?_, hkind, ?_⟩
  · rw [← hstart, ← hname]
    rfl
  · rw [htext, ← hname]
    rfl

variable (hd : p.DeclaresLocal d) (hnew : Lexeme new.toList .identifier)
  (hfresh : ∀ n ∈ p.names, n.text ≠ new)

include hd hnew hfresh

theorem renames_renamingOf : (p.renamingOf d new).Renames d := by
  have hdeclared : d ∈ p.names := mem_names_of_mem_occurrences hd
  have hold := lexeme_of_mem_names hparsed hdeclared
  constructor
  · rfl
  · exact (mem_starts_iff (nodup_starts hparsed) hd).2 rfl
  · constructor
    · exact hfresh d hdeclared
    · exact hold.ne_keyword .thisWord
    · exact hold.ne_keyword .superWord
    · exact hnew.ne_keyword .thisWord
    · exact hnew.ne_keyword .superWord

omit hd hnew in
theorem fits_of_mem_occurrences {o : Occurrence} (ho : o ∈ p.occurrences) :
    o.Fits (p.renamingOf d new) d :=
  ⟨hfresh o.name (mem_names_of_mem_occurrences ho), mem_starts_iff (nodup_starts hparsed) ho⟩

omit hfresh in
/-- The renamed text is read as the renamed program, at other offsets. -/
theorem ofText_renamed (hlex : (Program.ofText source offset).lexErrors = []) :
    ∃ ν : Renumbering, (∀ i, ν.line i = i) ∧ Function.Injective ν.start ∧
      (Program.ofText ((p.renamingOf d new).source offset source) offset).lexErrors = [] ∧
      (Program.ofText ((p.renamingOf d new).source offset source) offset).parsed =
        .ok ((p.map (Stmt.rename (p.renamingOf d new))).map (Stmt.renumber ν)) := by
  have hold : Lexeme (p.renamingOf d new).old.toList .identifier :=
    lexeme_of_mem_names hparsed (mem_names_of_mem_occurrences hd)
  have hstarts : ∀ i ∈ (p.renamingOf d new).starts, ∃ token ∈ (Scan.ofText source offset).tokens,
      token.start = i ∧ token.kind = .identifier ∧ token.lexeme = (p.renamingOf d new).old :=
    fun i hi => exists_token_of_mem_starts hparsed hi
  obtain ⟨ν, hline, hinj, htokens, heof⟩ := Scan.exists_renumbering hold hnew hstarts
  refine ⟨ν, hline, hinj, Scan.errors_renamed hold hnew hstarts hlex, ?_⟩
  show Program.ofTokens _ _ = _
  rw [htokens, heof, ofTokens_renumber ν _ rfl, ofTokens_rename]
  change Program.ofTokens _ _ = _ at hparsed
  rw [hparsed]
  rfl

end Parsed

end Program

/-! ## Runs -/

section Runs

variable {source : String} {p : Program} {t t' : BindingTable} (clock : Nat → Float) (steps : Nat)

theorem runSource_of_accept (haccept : Session.start.accept source = .ok (p, t)) :
    runSource clock steps source =
      .ofConfig ((Config.ofProgram p .start).run ⟨t, clock⟩ steps) := by
  rw [runSource, Session.run, haccept]
  rfl

/-- Where a program stands in a text makes no difference to its runs. -/
theorem Report.ofConfig_run_renumber {ν : Renumbering} (hline : ∀ i, ν.line i = i)
    (htable : ∀ i : Nat, t'[ν.start i]? = t[i]?) (p : Program) :
    ofConfig ((Config.ofProgram (p.map (Stmt.renumber ν)) .start).run ⟨t', clock⟩ steps) =
      ofConfig ((Config.ofProgram p .start).run ⟨t, clock⟩ steps) := by
  have hagrees : Setting.Agrees ν ⟨t, clock⟩ ⟨t', clock⟩ := ⟨htable, rfl⟩
  have hstart : State.start.renumber ν "" = State.start := by with_unfolding_all rfl
  have hprogram : (Config.ofProgram p .start).renumber ν "" =
      Config.ofProgram (p.map (Stmt.renumber ν)) .start := by
    rw [Config.ofProgram_renumber, hstart]
  rw [← hprogram, ← Config.run_renumber hagrees, ofConfig_renumber, Ending.renumber_eq hline,
    String.empty_append]

end Runs

section Renamed

variable {source : String} {p : Program} {t : BindingTable} {d : Name} {new : String}
  (haccept : Session.start.accept source = .ok (p, t)) (hd : p.DeclaresLocal d)
  (hnew : Lexeme new.toList .identifier) (hfresh : ∀ n ∈ p.names, n.text ≠ new)

include haccept hd hnew hfresh

theorem Program.spelled_of_accept : Stmt.SpelledAll (p.renamingOf d new) t [] p := by
  obtain ⟨-, hparsed, -⟩ := Session.accept_eq_ok_iff.1 haccept
  have hr := renames_renamingOf hparsed hd hnew hfresh
  have hbound := bound_of_accept haccept
  refine spelled_of_occurrences hr hbound ?_
  intro o ho
  exact fits_of_mem_occurrences hparsed hfresh ho

/-- The renamed text is accepted. Of its references, which stand at other offsets, the table says
what the table of the program says of the references. -/
theorem Session.exists_accept_renamed :
    ∃ (ν : Renumbering) (t' : BindingTable), (∀ i, ν.line i = i) ∧
      Function.Injective ν.start ∧ (∀ i : Nat, t'[ν.start i]? = t[i]?) ∧
      Session.start.accept ((p.renamingOf d new).source 0 source) =
        .ok ((p.map (Stmt.rename (p.renamingOf d new))).map (Stmt.renumber ν), t') := by
  obtain ⟨hlex, hparsed, hbind⟩ := accept_eq_ok_iff.1 haccept
  obtain ⟨ν, hline, hinj, hlex', hparsed'⟩ := Program.ofText_renamed hparsed hd hnew hlex
  have hordinary := (Program.renames_renamingOf hparsed hd hnew hfresh).ordinary
  have hspelled := Program.spelled_of_accept haccept hd hnew hfresh
  -- The renamed program has the table of the program.
  have hrenamed : Program.bind (p.map (Stmt.rename (p.renamingOf d new))) start.bindings = .ok t :=
    Program.bind_rename hordinary (Program.bound_of_accept haccept) hspelled hfresh hbind
  have hempty : ∀ i : Nat, start.bindings[ν.start i]? = start.bindings[i]? := fun i => rfl
  rcases Program.bind_renumber hline hempty fun _ _ _ heq => hinj heq with
    ⟨errors, errors', herrors, -⟩ | ⟨u, t', hu, hbind', htable⟩
  · rw [hrenamed] at herrors
    cases herrors
  · rw [hrenamed] at hu
    obtain rfl : t = u := Except.ok.inj hu
    exact ⟨ν, t', hline, hinj, htable, accept_eq_ok_iff.2 ⟨hlex', hparsed', hbind'⟩⟩

end Renamed

/-- A local variable or parameter can have any other name that occurs nowhere in the program. -/
theorem runSource_renamed {source : String} {p : Program} {t : BindingTable} {d : Name}
    {new : String} (haccept : Session.start.accept source = .ok (p, t)) (hd : p.DeclaresLocal d)
    (hnew : Lexeme new.toList .identifier) (hfresh : ∀ n ∈ p.names, n.text ≠ new) :
    ∃ (ν : Renumbering) (p' : Program) (t' : BindingTable),
      (∀ i, ν.line i = i) ∧ Function.Injective ν.start ∧
      p' = (p.map (Stmt.rename (p.renamingOf d new))).map (Stmt.renumber ν) ∧
      Session.start.accept ((p.renamingOf d new).source 0 source) = .ok (p', t') ∧
      p'.references.map (t'.hops? ·.name) = p.references.map (t.hops? ·.name) ∧
      ∀ (clock : Nat → Float) (steps : Nat),
        (runSource clock steps source).Renames (p.renamingOf d new)
            (runSource clock steps ((p.renamingOf d new).source 0 source)) ∧
          (runSource clock steps ((p.renamingOf d new).source 0 source)).exitCode =
            (runSource clock steps source).exitCode := by
  obtain ⟨ν, t', hline, hinj, htable, haccept'⟩ :=
    Session.exists_accept_renamed haccept hd hnew hfresh
  refine ⟨ν, _, t', hline, hinj, rfl, haccept', ?_, ?_⟩
  · rw [Program.references_renumber, Program.references_rename, List.map_map, List.map_map]
    exact List.map_congr_left fun q _ => htable q.name.start
  · intro clock steps
    obtain ⟨-, hparsed, -⟩ := Session.accept_eq_ok_iff.1 haccept
    have hordinary := (Program.renames_renamingOf hparsed hd hnew hfresh).ordinary
    have hspelled := Program.spelled_of_accept haccept hd hnew hfresh
    have hrenames := Config.renames_ofProgram hordinary hspelled
    have hreport := (hrenames.run clock steps).report
    rw [runSource_of_accept clock steps haccept, runSource_of_accept clock steps haccept',
      Report.ofConfig_run_renumber clock steps hline htable]
    exact ⟨hreport, hreport.exitCode_eq⟩

/-- A variable that a function assigns, and that another one hides in a block. Both programs print
what the function assigned, and then what the other variable holds. -/
theorem runSource_renamed_captured :
    ∃ source renamed p t p' t' d,
      source = "\x7b var x = nil; fun f(a) \x7b x = a; \x7d f(true); print x; " ++
        "\x7b var x = f; print x; \x7d \x7d" ∧
      renamed = "\x7b var y2 = nil; fun f(a) \x7b y2 = a; \x7d f(true); print y2; " ++
        "\x7b var x = f; print x; \x7d \x7d" ∧
      Session.start.accept source = .ok (p, t) ∧ d = ⟨"x", 1, 6⟩ ∧ p.DeclaresLocal d ∧
      Lexeme "y2".toList .identifier ∧ (∀ n ∈ p.names, n.text ≠ "y2") ∧
      (p.renamingOf d "y2").source 0 source = renamed ∧
      Session.start.accept renamed = .ok (p', t') ∧
      p'.references.map (t'.hops? ·.name) = p.references.map (t.hops? ·.name) ∧
      (∀ (clock : Nat → Float) (steps : Nat),
        (runSource clock steps source).Renames (p.renamingOf d "y2")
            (runSource clock steps renamed) ∧
          (runSource clock steps renamed).exitCode = (runSource clock steps source).exitCode) ∧
      runSource Float.ofNat 100 source = ⟨"true\n<fn f>\n", .finished⟩ ∧
      runSource Float.ofNat 100 renamed = ⟨"true\n<fn f>\n", .finished⟩ := by
  let source := "\x7b var x = nil; fun f(a) \x7b x = a; \x7d f(true); print x; " ++
    "\x7b var x = f; print x; \x7d \x7d"
  let renamed := "\x7b var y2 = nil; fun f(a) \x7b y2 = a; \x7d f(true); print y2; " ++
    "\x7b var x = f; print x; \x7d \x7d"
  let d : Name := ⟨"x", 1, 6⟩
  obtain ⟨p, t, haccept, hcheck⟩ := Session.start.exists_of_accept source
    (fun pt => decide (pt.1.DeclaresLocal d) && decide (∀ n ∈ pt.1.names, n.text ≠ "y2") &&
      decide ((pt.1.renamingOf d "y2").source 0 source = renamed))
    (by decide +kernel)
  simp only [Bool.and_eq_true, decide_eq_true_eq] at hcheck
  obtain ⟨⟨hd, hfresh⟩, htext⟩ := hcheck
  have hnew : Lexeme "y2".toList .identifier := by
    refine .identifier (by decide) (List.all_eq_true.1 (by decide)) ?_
    intro w
    cases w <;> decide
  obtain ⟨ν, p', t', -, -, -, haccept', hreferences, hruns⟩ :=
    runSource_renamed haccept hd hnew hfresh
  rw [htext] at haccept' hruns
  have hrun : runSource Float.ofNat 100 source = ⟨"true\n<fn f>\n", .finished⟩ :=
    by decide +kernel
  have hrun' : runSource Float.ofNat 100 renamed = ⟨"true\n<fn f>\n", .finished⟩ := by
    have hrenames := (hruns Float.ofNat 100).1
    rw [hrun] at hrenames
    exact hrenames.eq_of_finished
  exact ⟨source, renamed, p, t, p', t', d, rfl, rfl, haccept, rfl, hd, hnew, hfresh, htext,
    haccept', hreferences, hruns, hrun, hrun'⟩

end Lox
