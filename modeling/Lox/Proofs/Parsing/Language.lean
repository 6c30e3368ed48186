import Lox.Proofs.Grammar.Erasure
import Lox.Proofs.Parsing.Statement
import Lox.Proofs.Parsing.StatementAcceptance

set_option autoImplicit false

/-! # The language of the parser

The parser accepts the programs of the grammar and no others. A program that it rejects has at least
one error, so recovering from errors never makes a program of one that is not.
-/

namespace Lox

open Grammar

variable {tokens : List Token} {eof : Token}

/-- What the parser takes for a program is one, and the tree is what its tokens spell. -/
theorem Program.spells_of_ofTokens {p : Program} (heof : eof.kind = .eof)
    (h : Program.ofTokens tokens eof = .ok p) :
    Spells (.repeated (.symbol .declaration)) tokens (.stmts p) := by
  rcases Parser.ofTokens_cases tokens heof with ⟨p', hp, hspells⟩ | ⟨errors, herrors, -⟩
  · rw [hp] at h
    cases h
    exact hspells
  · rw [herrors] at h
    cases h

/-- Every program of the grammar is parsed. -/
theorem Program.ofTokens_of_derives (heof : eof.kind = .eof)
    (h : Derives (.symbol .program) tokens) : ∃ p, Program.ofTokens tokens eof = .ok p := by
  have hle : tokens.length + 1 ≤ (Cursor.start tokens eof).budget := by
    show tokens.length + 1 ≤ 16 * (tokens.length + 1)
    omega
  obtain ⟨p, -, hp⟩ := Parser.accepts_program heof (derives_symbol_iff.1 h) hle
  rw [List.append_nil] at hp
  refine ⟨p, ?_⟩
  simp only [Program.ofTokens, Cursor.start] at hp ⊢
  rw [hp]
  rfl

/-- The parser accepts exactly the programs of the grammar, and rejects everything else with an
error. -/
theorem Program.ofTokens_iff_derives (tokens : List Token) (eof : Token)
    (heof : eof.kind = .eof) :
    ((∃ p, Program.ofTokens tokens eof = .ok p) ↔ Derives (.symbol .program) tokens) ∧
      (¬ Derives (.symbol .program) tokens →
        ∃ errors, Program.ofTokens tokens eof = .error errors ∧ errors ≠ []) := by
  have hsound : (∃ p, Program.ofTokens tokens eof = .ok p) →
      Derives (.symbol .program) tokens := by
    rintro ⟨p, hp⟩
    exact .symbol (Program.spells_of_ofTokens heof hp).derives
  refine ⟨⟨hsound, Program.ofTokens_of_derives heof⟩, fun h => ?_⟩
  rcases Parser.ofTokens_cases tokens heof with ⟨p, hp, -⟩ | hrejected
  · exact absurd (hsound ⟨p, hp⟩) h
  · exact hrejected

/-- `print nil;` is a program, and is parsed. -/
theorem Program.ofTokens_printNil :
    ∃ p, Program.ofTokens
      [⟨.keyword .printWord, "print", 1, 0⟩, ⟨.keyword .nilWord, "nil", 1, 6⟩,
        ⟨.mark .semicolon, ";", 1, 9⟩] ⟨.eof, "", 1, 10⟩ = .ok p := by
  refine (Program.ofTokens_iff_derives _ _ rfl).1.2 (.symbol ?_)
  have hnil : Spells (.symbol .primary) [⟨.keyword .nilWord, "nil", 1, 6⟩]
      (.expr (.literal .nil)) := .literal rfl
  have hvalue := Spells.disjunction (.operand (l := .disjunction) (.operand (l := .conjunction)
    (.operand (l := .equality) (.operand (l := .comparison) (.operand (l := .term)
      (.operand (l := .factor) (.callUnary (.primary hnil))))))))
  exact (Spells.declarations (.statement (.printStmt rfl (.expression hvalue) rfl))
    .noDeclarations).derives

end Lox
