import Lox.Proofs.Renumbering.Program
import Lox.Proofs.Scanning.Lines
import Lox.Proofs.Session.Read

set_option autoImplicit false

/-! # Sources joined by a line end

A text that consists of two sources is accepted if the first one is and then the second one by a
session that has read the first. Its program is that of the first and then that of the second, but
for the lines of the second (`Program.SameButLines`), and it ends with the same table.
-/

namespace Lox

/-- Leaves out the lines. -/
def Renumbering.lineless : Renumbering := ⟨fun _ => 0, id⟩

/-- The programs differ in nothing but lines. -/
def Program.SameButLines (p q : Program) : Prop :=
  p.map (Stmt.renumber .lineless) = q.map (Stmt.renumber .lineless)

namespace Program

variable {p q : Program}

/-- Findings do not depend on lines, but for the lines of the errors. -/
theorem SameButLines.findings (h : p.SameButLines q) :
    p.findings.bindings = q.findings.bindings ∧
      (p.findings.errors = [] ↔ q.findings.errors = []) := by
  have hfindings := congrArg Program.findings h
  rw [findings_renumber, findings_renumber, Findings.renumber, Findings.renumber,
    Findings.mk.injEq] at hfindings
  obtain ⟨herrors, hbindings⟩ := hfindings
  have hmap : ∀ entries : List (Nat × Nat),
      entries.map (fun entry => (Renumbering.lineless.start entry.1, entry.2)) = entries :=
    fun entries => List.map_id entries
  rw [hmap, hmap] at hbindings
  refine ⟨hbindings, ?_⟩
  rw [← List.map_eq_nil_iff (f := ResolveError.renumber .lineless), herrors,
    List.map_eq_nil_iff]

end Program

/-! ## Two sources in one text -/

namespace Scan

variable {source more : String} {offset : Nat}

/-- The items of the second source stand further down than by themselves. -/
theorem items_joined (h : (ofText source offset).errors = []) :
    (ofText (source ++ "\n" ++ more) offset).items =
      (ofText source offset).items ++
        (ofText more (offset + source.length + 1)).items.map
          (Item.renumber (.down (source.toList.count '\n' + 1) 0)) := by
  rw [items_line (stringsClosed_of_errors h), Nat.add_assoc 1,
    ← Nat.add_zero (offset + source.length + 1), Item.locate_down]
  rfl

theorem errors_joined (h : (ofText source offset).errors = [])
    (hmore : (ofText more (offset + source.length + 1)).errors = []) :
    (ofText (source ++ "\n" ++ more) offset).errors = [] := by
  rw [errors, items_joined h, List.filterMap_append, Item.filterMap_error?_renumber]
  exact List.append_eq_nil_iff.2 ⟨h, List.map_eq_nil_iff.2 hmore⟩

/-- Both sources have the tokens that they have by themselves, but for lines. -/
theorem tokens_joined (h : (ofText source offset).errors = []) :
    (ofText (source ++ "\n" ++ more) offset).tokens.map (Token.renumber .lineless) =
      ((ofText source offset).tokens ++
        (ofText more (offset + source.length + 1)).tokens).map (Token.renumber .lineless) := by
  rw [tokens, items_joined h, List.filterMap_append, Item.filterMap_token?_renumber,
    List.map_append, List.map_append, List.map_map]
  rfl

theorem eof_joined :
    (ofText (source ++ "\n" ++ more) offset).eof.renumber .lineless =
      (ofText more (offset + source.length + 1)).eof.renumber .lineless := by
  simp only [ofText, Token.renumber, Renumbering.lineless, String.length_toList,
    String.length_append]
  simp [Nat.add_assoc, show "\n".length = 1 from rfl]

end Scan

/-- The program of two sources is that of the first and then that of the second. -/
theorem Program.exists_of_joined {source more : String} {offset : Nat} {p q : Program}
    (hlex : (ofText source offset).lexErrors = []) (hp : (ofText source offset).parsed = .ok p)
    (hq : (ofText more (offset + source.length + 1)).parsed = .ok q) :
    ∃ whole, (ofText (source ++ "\n" ++ more) offset).parsed = .ok whole ∧
      whole.SameButLines (p ++ q) := by
  have hparsed := Program.ofTokens_append .lineless rfl rfl hp hq
  rw [← Scan.tokens_joined hlex, ← Scan.eof_joined, Program.ofTokens_renumber .lineless _ rfl]
    at hparsed
  -- What the tokens of the whole text are parsed to.
  change (((ofText (source ++ "\n" ++ more) offset).parsed).map _).mapError _ = _ at hparsed
  cases hwhole : (ofText (source ++ "\n" ++ more) offset).parsed with
  | error errors => rw [hwhole] at hparsed; cases hparsed
  | ok whole =>
      rw [hwhole] at hparsed
      exact ⟨whole, rfl, Except.ok.inj hparsed⟩

namespace Session

variable {session : Session} {source more : String} {p q : Program} {t u : BindingTable}

/-- A text is accepted if its first source is, and then its second one. -/
theorem exists_accept_joined (haccept : session.accept source = .ok (p, t)) {next : Session}
    (hbindings : next.bindings = t) (hoffset : next.offset = session.offsetAfter source)
    (hnext : next.accept more = .ok (q, u)) :
    ∃ whole, session.accept (source ++ "\n" ++ more) = .ok (whole, u) ∧
      whole.SameButLines (p ++ q) := by
  rw [accept_eq_ok_iff, hbindings, hoffset, offsetAfter] at hnext
  obtain ⟨hlex, hp, hbind⟩ := accept_eq_ok_iff.1 haccept
  obtain ⟨hlex', hq, hbind'⟩ := hnext
  obtain ⟨whole, hwhole, hsame⟩ := Program.exists_of_joined hlex hp hq
  refine ⟨whole, accept_eq_ok_iff.2 ⟨Scan.errors_joined hlex hlex', hwhole, ?_⟩, hsame⟩
  obtain ⟨herrors, rfl⟩ := Program.bind_eq_ok_iff.1 hbind
  obtain ⟨herrors', rfl⟩ := Program.bind_eq_ok_iff.1 hbind'
  obtain ⟨hbindings, hclean⟩ := hsame.findings
  rw [Program.findings_append] at hbindings hclean
  refine Program.bind_eq_ok_iff.2 ⟨hclean.2 ?_, ?_⟩
  · rw [Findings.errors_append, herrors, herrors']
    rfl
  · rw [hbindings, Findings.bindings_append, BindingTable.extend, List.foldl_append]
    rfl

end Session

end Lox
