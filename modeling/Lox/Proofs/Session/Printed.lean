import Lox.Proofs.Binding.Bound
import Lox.Proofs.Machine.Evaluation
import Lox.Proofs.Machine.Program
import Lox.Proofs.Parsing.Alone
import Lox.Proofs.Scanning.Lines
import Lox.Proofs.Session.Read

set_option autoImplicit false

/-! # The program that prints an expression

The text of an expression between `print` and a semicolon on the next line is a program that
prints this expression, six characters further on (`Session.accept_printed`). The line end closes a
comment in which the text may end. At the top level the expression refers to no local variable.
-/

namespace Lox

/-- So many characters further on, on the same line. -/
def Renumbering.after (characters : Nat) : Renumbering := ⟨id, (· + characters)⟩

/-- The program that prints the expression of a text. -/
def printed (source : String) : String := "print " ++ source ++ "\n;"

variable {r : Renumbering} {tokens : List Token} {eof : Token} {e : Expr} {source : String}

/-! ## Tokens -/

theorem Parser.wholeExpression_renumber {c₁ : Cursor}
    (h : wholeExpression (.start tokens eof) = .ok e c₁) :
    ∃ c₁', wholeExpression (.start (tokens.map (Token.renumber r)) (eof.renumber r)) =
      .ok (e.renumber r) c₁' := by
  obtain ⟨hexpression, hahead⟩ := wholeExpression_eq_ok_iff.1 h
  have hstart : (Cursor.start tokens eof).Continued r none
      (.start (tokens.map (Token.renumber r)) (eof.renumber r)) :=
    ⟨(List.append_nil _).symm, fun _ => rfl, rfl⟩
  obtain ⟨c₁', hrun, hc₁⟩ := follows_expression.gives hexpression hstart (.inl rfl)
  have hahead' : c₁'.ahead = [] := by
    rw [hc₁.ahead, hahead]
    rfl
  exact ⟨c₁', wholeExpression_eq_ok_iff.2 ⟨hrun, hahead'⟩⟩

/-- Renumbered tokens are the renumbered expression. -/
theorem Expr.ofTokens_renumber (r : Renumbering) (h : Expr.ofTokens tokens eof = .ok e) :
    Expr.ofTokens (tokens.map (Token.renumber r)) (eof.renumber r) = .ok (e.renumber r) := by
  obtain ⟨c₁, hwhole, -⟩ := Parser.ofTokens_eq_ok_iff.1 h
  obtain ⟨c₁', hwhole'⟩ := Parser.wholeExpression_renumber (r := r) hwhole
  rw [Expr.ofTokens, hwhole']

/-- The program that prints an expression, unless an error was noted in the expression. -/
theorem Program.ofTokens_print {print semicolon eof' : Token} (heof : eof.kind = .eof)
    (heof' : eof'.kind = .eof) (hprint : print.kind = .keyword .printWord)
    (hsemicolon : semicolon.kind = .mark .semicolon) (h : Expr.ofTokens tokens eof = .ok e) :
    ofTokens (print :: (tokens ++ [semicolon])) eof' =
      if (Expr.noted tokens eof).isEmpty then .ok [.print e]
      else .error (Expr.noted tokens eof) := by
  have hexpression := Parser.expression_semicolon heof heof' hsemicolon h
  have hstatement : Parser.printStatement (.start (tokens ++ [semicolon]) eof') =
      .ok (.print e) ⟨[], eof', Expr.noted tokens eof⟩ := by
    refine (Parser.bind_of_ok hexpression).trans ?_
    exact Parser.bind_of_ok (Parser.expectMark_of_ahead _ rfl hsemicolon)
  refine ofTokens_of_declaration (List.cons_ne_nil _ _) ?_
  exact Parser.declaration_of_printStatement rfl hprint hstatement

/-! ## Text -/

theorem Piece.split_print (cs : List Char) :
    split ("print ".toList ++ cs) =
      ⟨"print".toList, .token (.keyword .printWord)⟩ :: ⟨[' '], .gap⟩ :: split cs := by
  have hword : cut 'p' ("rint ".toList ++ cs) =
      (⟨"print".toList, .token (.keyword .printWord)⟩, ' ' :: cs) := rfl
  have hblank : cut ' ' cs = (⟨[' '], .gap⟩, cs) := rfl
  have htext : "print ".toList ++ cs = 'p' :: ("rint ".toList ++ cs) := rfl
  rw [htext, split_cons, hword, split_cons, hblank]

namespace Scan

/-- What stands after `print` on the same line. -/
theorem items_print (source : String) :
    (ofText ("print " ++ source) 0).items =
      .token ⟨.keyword .printWord, "print", 1, 0⟩ ::
        (ofText source 0).items.map (Item.renumber (.after 6)) := by
  have hmoved : (ofText source (0 + 6)).items =
      (ofText source 0).items.map (Item.renumber (.after 6)) :=
    items_moved (fun _ => rfl) fun _ _ _ => rfl
  rw [← hmoved]
  show Item.locate 1 0 (Piece.split ("print " ++ source).toList) = _
  rw [String.toList_append, Piece.split_print]
  rfl

theorem tokens_printed (h : (ofText source 0).errors = []) :
    ∃ line start, (ofText (printed source) 0).tokens =
      ⟨.keyword .printWord, "print", 1, 0⟩ ::
        ((ofText source 0).tokens.map (Token.renumber (.after 6)) ++
          [⟨.mark .semicolon, ";", line, start⟩]) := by
  have herrors : (ofText ("print " ++ source) 0).errors = [] := by
    rw [errors, items_print, List.filterMap_cons, Item.filterMap_error?_renumber]
    exact List.map_eq_nil_iff.2 h
  have htext : printed source = "print " ++ source ++ "\n" ++ ";" := by
    have hend : "\n;" = "\n" ++ ";" := rfl
    rw [printed, hend, ← String.append_assoc]
  have hsemicolon : ∀ line start, Item.locate line start (Piece.split ";".toList) =
      [.token ⟨.mark .semicolon, ";", line, start⟩] := by
    intro line start
    have hcut : Piece.split ";".toList = [.ofMark [';'] .semicolon] := by
      have hchars : ";".toList = [';'] := rfl
      rw [hchars, Piece.split_cons]
      exact congrArg _ Piece.split_nil
    rw [hcut]
    rfl
  rw [tokens, htext, items_line (stringsClosed_of_errors herrors), items_print, hsemicolon,
    List.cons_append, List.filterMap_cons, List.filterMap_append, Item.filterMap_token?_renumber]
  exact ⟨_, _, rfl⟩

end Scan

/-! ## References -/

mutual

/-- Where no scope is open, no reference is a local one. -/
theorem Expr.bindings_top (ctx : Context) : ∀ e : Expr, (e.findings ctx []).bindings = []
  | .literal _ => rfl
  | .grouping inner => Expr.bindings_top ctx inner
  | .unary _ _ operand => Expr.bindings_top ctx operand
  | .binary _ _ left right | .logical _ left right =>
    List.append_eq_nil_iff.2 ⟨Expr.bindings_top ctx left, Expr.bindings_top ctx right⟩
  | .variable _ => rfl
  | .assign _ value => List.append_eq_nil_iff.2 ⟨Expr.bindings_top ctx value, rfl⟩
  | .call callee arguments _ =>
    List.append_eq_nil_iff.2 ⟨Expr.bindings_top ctx callee, Expr.bindingsAll_top ctx arguments⟩
  | .get object _ => Expr.bindings_top ctx object
  | .set object _ value =>
    List.append_eq_nil_iff.2 ⟨Expr.bindings_top ctx value, Expr.bindings_top ctx object⟩
  | .this _ => by
      rw [Expr.findings]
      split <;> rfl
  | .super _ _ => by
      rw [Expr.findings, Findings.bindings_append, Findings.bindings_append,
        Findings.bindings_errorIf, Findings.bindings_errorIf]
      rfl

theorem Expr.bindingsAll_top (ctx : Context) :
    ∀ es : List Expr, (Expr.findingsAll ctx [] es).bindings = []
  | [] => rfl
  | e :: es => List.append_eq_nil_iff.2 ⟨Expr.bindings_top ctx e, Expr.bindingsAll_top ctx es⟩

end

namespace Session

/-- If the program that prints an expression is accepted, it is the one that prints this
expression, and it needs no table. -/
theorem accept_printed {p : Program} {t : BindingTable}
    (hlex : (Expr.ofText source).lexErrors = []) (hparsed : (Expr.ofText source).parsed = .ok e)
    (haccept : start.accept (printed source) = .ok (p, t)) :
    p = [.print (e.renumber (.after 6))] ∧ t = ∅ := by
  obtain ⟨line, semicolon, htokens⟩ := Scan.tokens_printed hlex
  obtain ⟨-, hprogram, hbind⟩ := accept_eq_ok_iff.1 haccept
  have hprinted : p = [.print (e.renumber (.after 6))] := by
    have hread := Expr.ofTokens_renumber (.after 6) hparsed
    change Program.ofTokens (Scan.ofText (printed source) 0).tokens _ = _ at hprogram
    rw [htokens, Program.ofTokens_print rfl rfl rfl rfl hread] at hprogram
    split at hprogram <;> cases hprogram
    rfl
  refine ⟨hprinted, ?_⟩
  obtain ⟨-, rfl⟩ := Program.bind_eq_ok_iff.1 hbind
  have hbindings : p.findings.bindings = [] := by
    rw [hprinted]
    exact List.append_eq_nil_iff.2 ⟨Expr.bindings_top _ _, rfl⟩
  rw [hbindings]
  rfl

end Session

/-! ## Runs -/

section Runs

variable {st : State} {s : Setting}

/-- Two runs that are both no longer running show the same. -/
theorem Report.ofConfig_run_eq {c : Config} {m n : Nat}
    (hm : (ofConfig (c.run s m)).ending ≠ .running) (hn : (ofConfig (c.run s n)).ending ≠ .running) :
    ofConfig (c.run s m) = ofConfig (c.run s n) := by
  have hfinished : ∀ {k}, (ofConfig (c.run s k)).ending ≠ .running →
      (c.run s k).isFinished = true := Config.isFinished_of_ending
  rw [Config.run_eq_of_isFinished (hfinished hm) (hfinished hn)]

/-- What the evaluation of an expression comes to, and what the program that prints it shows. -/
theorem Config.Evaluates.print_cases {n : Nat} (h : (ofExpr e st).Evaluates)
    (hfinished : ((ofExpr e st).run s n).isFinished = true) :
    (∃ v, ((ofExpr e st).run s n).outcome? = some (.ok v) ∧
      ∃ m, Report.ofConfig ((ofProgram [.print e] st).run s m) =
        ⟨((ofExpr e st).run s n).state.store.text v ++ "\n", .finished⟩) ∨
    ∃ error, ((ofExpr e st).run s n).outcome? = some (.error error) ∧
      ∃ m, Report.ofConfig ((ofProgram [.print e] st).run s m) = ⟨"", .failed error⟩ := by
  have hlast := h.run (s := s) n
  have houtput := hlast.state.output
  rcases hlast.of_isFinished hfinished with ⟨v, hv⟩ | ⟨error, herror⟩
  · obtain ⟨m, hm⟩ := exists_run_print_value hv
    refine .inl ⟨v, by rw [hv]; rfl, m, ?_⟩
    rw [hm, Report.ofConfig, houtput, String.empty_append]
    rfl
  · obtain ⟨m, hm⟩ := exists_run_print_error herror
    refine .inr ⟨error, by rw [herror]; rfl, m, ?_⟩
    rw [hm, Report.ofConfig, houtput]
    rfl

/-- The program prints the text of the value, if the expression has one. -/
theorem Report.finished_print_iff (h : (Config.ofExpr e st).Evaluates) (text : String) :
    (∃ n v, ((Config.ofExpr e st).run s n).outcome? = some (.ok v) ∧
        ((Config.ofExpr e st).run s n).state.store.text v = text) ↔
      ∃ n, ofConfig ((Config.ofProgram [.print e] st).run s n) = ⟨text ++ "\n", .finished⟩ := by
  constructor
  · rintro ⟨n, v, houtcome, rfl⟩
    rcases h.print_cases (Config.isFinished_of_outcome? houtcome) with
      ⟨v', hv', hprint⟩ | ⟨error, herror, -⟩
    · cases houtcome.symm.trans hv'
      exact hprint
    · cases houtcome.symm.trans herror
  · rintro ⟨m, hm⟩
    have hfinished : ((Config.ofProgram [.print e] st).run s m).isFinished = true :=
      Config.isFinished_of_ending (by rw [hm]; exact nofun)
    obtain ⟨n, hn⟩ := Config.exists_isFinished_of_print hfinished
    rcases h.print_cases hn with ⟨v, hv, m', hm'⟩ | ⟨error, -, m', hm'⟩
    · have hsame := ofConfig_run_eq (by rw [hm]; exact nofun) (by rw [hm']; exact nofun)
      rw [hm, hm', Report.mk.injEq] at hsame
      exact ⟨n, v, hv, ((String.append_left_inj "\n").1 hsame.1).symm⟩
    · have hsame := ofConfig_run_eq (by rw [hm]; exact nofun) (by rw [hm']; exact nofun)
      rw [hm, hm'] at hsame
      cases congrArg Report.ending hsame

/-- The program fails as the expression does, and prints nothing. -/
theorem Report.failed_print_iff (h : (Config.ofExpr e st).Evaluates) (error : RuntimeError) :
    (∃ n, ((Config.ofExpr e st).run s n).outcome? = some (.error error)) ↔
      ∃ n, ofConfig ((Config.ofProgram [.print e] st).run s n) = ⟨"", .failed error⟩ := by
  constructor
  · rintro ⟨n, houtcome⟩
    rcases h.print_cases (Config.isFinished_of_outcome? houtcome) with
      ⟨v, hv, -⟩ | ⟨error', herror, hprint⟩
    · cases houtcome.symm.trans hv
    · cases houtcome.symm.trans herror
      exact hprint
  · rintro ⟨m, hm⟩
    have hfinished : ((Config.ofProgram [.print e] st).run s m).isFinished = true :=
      Config.isFinished_of_ending (by rw [hm]; exact nofun)
    obtain ⟨n, hn⟩ := Config.exists_isFinished_of_print hfinished
    rcases h.print_cases hn with ⟨v, -, m', hm'⟩ | ⟨error', herror, m', hm'⟩
    · have hsame := ofConfig_run_eq (by rw [hm]; exact nofun) (by rw [hm']; exact nofun)
      rw [hm, hm'] at hsame
      cases congrArg Report.ending hsame
    · have hsame := ofConfig_run_eq (by rw [hm]; exact nofun) (by rw [hm']; exact nofun)
      rw [hm, hm'] at hsame
      cases hsame
      exact ⟨n, herror⟩

end Runs

/-! ## Evaluating and printing -/

theorem keeps_after (characters : Nat) : (Renumbering.after characters).Keeps 0 where
  line _ := rfl
  below _ hi := absurd hi (Nat.not_lt_zero _)
  above _ _ := Nat.zero_le _

/-- An expression that stands further on in a text is evaluated alike. -/
theorem evaluate_renumber (clock : Nat → Float) (n characters : Nat) (e : Expr) :
    evaluate clock n (e.renumber (.after characters)) =
      (evaluate clock n e).renumber (.after characters) "" := by
  have hagrees : Setting.Agrees (.after characters) ⟨∅, clock⟩ ⟨∅, clock⟩ :=
    ⟨fun i => (Std.TreeMap.getElem?_emptyc).trans Std.TreeMap.getElem?_emptyc.symm, rfl⟩
  have hstart : (Config.ofExpr e .start).renumber (.after characters) "" =
      Config.ofExpr (e.renumber (.after characters)) .start := by
    rw [Config.ofExpr, Config.renumber, State.below_start _ (keeps_after characters)]
    rfl
  rw [evaluate, evaluate, Config.run_renumber hagrees, hstart]

theorem evaluates_ofExpr (e : Expr) : (Config.ofExpr e .start).Evaluates :=
  ⟨rfl, nofun, ⟨rfl, rfl⟩, rfl⟩

/-- Evaluating the expression of a text by itself, without resolving it, gives a value exactly if
the program that prints it ends, and then the program prints the text of this value. It fails
exactly if the program fails, with the same error on the same line, and then the program prints
nothing. -/
theorem runSource_printed {source : String} {e : Expr} {p : Program} {t : BindingTable}
    (hlex : (Expr.ofText source).lexErrors = []) (hparsed : (Expr.ofText source).parsed = .ok e)
    (haccept : Session.start.accept (printed source) = .ok (p, t)) (clock : Nat → Float) :
    (∀ text, (∃ n v, (evaluate clock n e).outcome? = some (.ok v) ∧
        (evaluate clock n e).state.store.text v = text) ↔
      ∃ n, runSource clock n (printed source) = ⟨text ++ "\n", .finished⟩) ∧
    ∀ error, (∃ n, (evaluate clock n e).outcome? = some (.error error)) ↔
      ∃ n, runSource clock n (printed source) = ⟨"", .failed error⟩ := by
  obtain ⟨rfl, rfl⟩ := Session.accept_printed hlex hparsed haccept
  have hrun : ∀ n, runSource clock n (printed source) = Report.ofConfig
      ((Config.ofProgram [.print (e.renumber (.after 6))] .start).run ⟨∅, clock⟩ n) := by
    intro n
    rw [runSource, Session.run, haccept]
    rfl
  have hevaluate := evaluates_ofExpr (e.renumber (.after 6))
  have houtcome : ∀ n, (evaluate clock n (e.renumber (.after 6))).outcome? =
      (evaluate clock n e).outcome? := by
    intro n
    rw [evaluate_renumber]
    generalize evaluate clock n e = c
    obtain ⟨control, frames, st⟩ := c
    cases control <;> cases frames <;> rfl
  have htext : ∀ n v, (evaluate clock n (e.renumber (.after 6))).state.store.text v =
      (evaluate clock n e).state.store.text v := by
    intro n v
    rw [evaluate_renumber]
    exact Store.text_renumber _ _ v
  constructor
  · intro text
    have hprint := Report.finished_print_iff (s := ⟨∅, clock⟩) hevaluate text
    simp only [hrun, ← houtcome, ← htext]
    exact hprint
  · intro error
    have hprint := Report.failed_print_iff (s := ⟨∅, clock⟩) hevaluate error
    simp only [hrun, ← houtcome]
    exact hprint

/-- Two strings are joined, before a comment that ends with the line. -/
theorem runSource_printed_strings :
    ∃ source e p t, source = "\"a\" + \"b\" // joined" ∧ (Expr.ofText source).lexErrors = [] ∧
      (Expr.ofText source).parsed = .ok e ∧
      Session.start.accept (printed source) = .ok (p, t) ∧
      (∃ n, runSource Float.ofNat n (printed source) = ⟨"ab\n", .finished⟩) ∧
      ∃ n v, (evaluate Float.ofNat n e).outcome? = some (.ok v) ∧
        (evaluate Float.ofNat n e).state.store.text v = "ab" := by
  let source := "\"a\" + \"b\" // joined"
  have hlex : (Expr.ofText source).lexErrors = [] := by
    rw [← List.isEmpty_iff]
    decide +kernel
  obtain ⟨e, hparsed, -⟩ := Expr.exists_of_parsed source (fun _ => true) (by decide +kernel)
  obtain ⟨p, t, haccept, -⟩ := Session.start.exists_of_accept (printed source) (fun _ => true)
    (by decide +kernel)
  have hrun : runSource Float.ofNat 100 (printed source) = ⟨"ab\n", .finished⟩ := by
    decide +kernel
  refine ⟨source, e, p, t, rfl, hlex, hparsed, haccept, ⟨100, hrun⟩, ?_⟩
  exact ((runSource_printed hlex hparsed haccept Float.ofNat).1 "ab").2 ⟨100, hrun⟩

end Lox
