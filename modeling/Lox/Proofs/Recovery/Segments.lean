import Lox.Proofs.Recovery.Line
import Lox.Proofs.Recovery.Noting
import Lox.Proofs.Renumbering.Program

set_option autoImplicit false

/-! # Recovery at the ends of statements

Tokens are parsed segment by segment (`Program.ofTokens_segments`) if each segment is a program by
itself or one line, well-formed or not: no error of one segment hides one of another, makes up a new
one or moves one to another token.
-/

namespace Lox

/-- Where the tokens of one cursor end, the other one starts with the tokens after them. -/
theorem Cursor.Continued.eq_noting {c c' : Cursor} {us : List Token} {eof : Token}
    (h : c.Continued .same (some us) c') (hahead : c.ahead = []) (heof : c'.eof = eof) :
    c' = (Cursor.start us eof).noting c.collected := by
  have hus : c'.ahead = us := by
    have hall := h.ahead
    rw [hahead] at hall
    exact hall
  have hcollected : c'.collected = c.collected := by
    rw [h.collected, ParseError.map_renumber_same]
  show c' = ⟨us, eof, c.collected ++ []⟩
  rw [List.append_nil, ← hcollected, ← hus, ← heof]

namespace Parser

variable {b b₀ b' : Nat} {c c' c₁ c₂ : Cursor} {p q : Program} {us : List Token} {eof : Token}

/-- A program takes no more steps than it is given. -/
theorem programWithin_of_le (h : programWithin b c = .ok p c₁) (hle : b ≤ b') :
    ∃ c₁', programWithin b' c = .ok p c₁' ∧ c₁'.collected = c₁.collected := by
  obtain ⟨k, rfl⟩ := Nat.exists_eq_add_of_le hle
  have hsame : c.Continued .same none c := by
    refine ⟨?_, fun _ => rfl, (ParseError.map_renumber_same _).symm⟩
    rw [Token.map_renumber_same]
    exact (List.append_nil _).symm
  have hend : nextKind ((none : Option (List Token)).getD []) ≠ .keyword .elseWord := nofun
  obtain ⟨c₁', hrun, hc₁⟩ := (follows_program hend b k).gives h hsame (.inl rfl)
  rw [Stmt.map_renumber_same] at hrun
  exact ⟨c₁', hrun, by rw [hc₁.collected, ParseError.map_renumber_same]⟩

/-- What is read for a line, and then for other tokens. Each declaration takes a token, so that
many steps suffice. -/
theorem programWithin_line (hline : c.OnLine ∨ c.AtLineEnd) (hp : programWithin b c = .ok p c₁)
    (hus : nextKind us ≠ .keyword .elseWord) (hq : programWithin b₀ (.start us eof) = .ok q c₂)
    (hc : c.Continued .same (some us) c') (heof : c'.eof = eof)
    (hb : c.ahead.length + b₀ ≤ b') :
    ∃ c₂', programWithin b' c' = .ok (p ++ q) c₂' ∧
      c₂'.collected = c₁.collected ++ c₂.collected := by
  -- By induction on the declarations that the line is read as: after each of them the line goes on,
  -- or it is over.
  induction b generalizing c c' b' p with
  | zero => cases hp
  | succ b ih =>
      rcases programWithin_cases hp with ⟨hahead, rfl, rfl⟩ |
        ⟨first?, c₃, ss, hahead, hfirst, hss, rfl⟩
      · -- The line was read, and its errors are noted before the other tokens are read.
        have hrun : programWithin b₀ c' = .ok q (c₂.noting c₁.collected) := by
          rw [hc.eq_noting hahead heof, notesOnly_program b₀, hq]
          rfl
        exact programWithin_of_le hrun (by omega)
      · rcases hline with hline | hend
        · obtain ⟨hline₃, c₃', hfirst', hc₃⟩ := (lined_declaration hus).gives hline hfirst hc
          -- A declaration that was read or skipped took a token, so the budget is large enough.
          have hyields := yields_declaration hline.eof hahead
          unfold Yields at hyields
          rw [hfirst] at hyields
          obtain ⟨ts, es, hreach, hread, -⟩ := hyields
          have hlt := hreach.length_lt hread
          have heof₃ : c₃'.eof = eof := by
            have hrest : nextKind ((some us).getD []) ≠ .keyword .elseWord := hus
            obtain ⟨_, _, hreach₃, -⟩ := (follows_declaration (r := .same) hrest).reads hfirst'
            rw [hreach₃.eof, heof]
          obtain ⟨b'', rfl⟩ := Nat.exists_eq_succ_of_ne_zero (n := b') (by omega)
          have hb'' : c₃.ahead.length + b₀ ≤ b'' := by omega
          obtain ⟨c₂', hmore, hc₂⟩ := ih hline₃ hss hc₃ heof₃ hb''
          have hahead' : c'.ahead ≠ [] := by
            rw [hc.ahead]
            exact List.append_ne_nil_of_left_ne_nil (by simpa using hahead) _
          refine ⟨c₂', ?_, hc₂⟩
          rw [programWithin_of_declaration hahead' hfirst' hmore, List.append_assoc]
        · exact absurd hend.ahead hahead

end Parser

/-! ## Segments -/

/-- The parser reads a program from the tokens, and finds these errors. -/
def Parsed (tokens : List Token) (eof : Token) (p : Program) (errors : List ParseError) : Prop :=
  ∃ c, Parser.programWithin (Cursor.start tokens eof).budget (.start tokens eof) = .ok p c ∧
    c.collected = errors

section Parsed

variable {ts us : List Token} {eof eof' : Token} {p q : Program} {es fs : List ParseError}

theorem Parsed.ofTokens_eq (h : Parsed ts eof p es) :
    Program.ofTokens ts eof = if es.isEmpty then .ok p else .error es := by
  obtain ⟨c, hrun, rfl⟩ := h
  simp only [Program.ofTokens, hrun]

theorem exists_parsed (ts : List Token) (heof : eof.kind = .eof) : ∃ p es, Parsed ts eof p es := by
  obtain ⟨p, c, hrun, -, -⟩ := Program.exists_programWithin ts heof
  exact ⟨p, c.collected, c, hrun, rfl⟩

theorem parsed_nil (eof : Token) : Parsed [] eof [] [] := ⟨.start [] eof, rfl, rfl⟩

/-- After tokens without errors, or after a line, the parser starts again. -/
theorem Parsed.append (h : Parsed ts eof' p es) (heof' : eof'.kind = .eof)
    (hts : es = [] ∨ IsLine ts) (hus : nextKind us ≠ .keyword .elseWord)
    (hmore : Parsed us eof q fs) : Parsed (ts ++ us) eof (p ++ q) (es ++ fs) := by
  obtain ⟨c₁, hp, rfl⟩ := h
  obtain ⟨c₂, hq, rfl⟩ := hmore
  have hb : (Cursor.start ts eof').ahead.length + (Cursor.start us eof).budget ≤
      (Cursor.start (ts ++ us) eof).budget := by
    simp only [Cursor.budget, Cursor.start, List.length_append]
    omega
  rcases hts with hclean | hline
  · -- Without errors, more tokens are only seen at the end of a declaration.
    have hc : (Cursor.start ts eof').Continued .same (some (us.map (Token.renumber .same)))
        (.start (ts ++ us) eof) := by
      refine ⟨?_, by rintro ⟨⟩, rfl⟩
      rw [Token.map_renumber_same, Token.map_renumber_same]
      rfl
    obtain ⟨c, hrun, hcollected⟩ :=
      Parser.programWithin_append hp hclean hus hq hc (Token.renumber_same eof).symm hb
    rw [Stmt.map_renumber_same] at hrun
    rw [ParseError.map_renumber_same] at hcollected
    exact ⟨c, hrun, by rw [hcollected, hclean, List.nil_append]⟩
  · have hc : (Cursor.start ts eof').Continued .same (some us) (.start (ts ++ us) eof) := by
      refine ⟨?_, by rintro ⟨⟩, rfl⟩
      rw [Token.map_renumber_same]
      rfl
    exact Parser.programWithin_line (.inl ⟨heof', hline⟩) hp hus hq hc rfl hb

end Parsed

/-- Tokens that the parser is done with where they end, whatever comes after them but an `else`: a
program by itself, or a line. -/
structure Segment where
  tokens : List Token
  /-- The token that ends the source when the segment is parsed by itself. -/
  eof : Token
  eof_kind : eof.kind = .eof
  isSeparate : (∃ p, Program.ofTokens tokens eof = .ok p) ∨ IsLine tokens
  noElse : nextKind tokens ≠ .keyword .elseWord

namespace Segment

/-- The tokens of segments one after another. -/
def join (segments : List Segment) : List Token := segments.flatMap tokens

theorem nextKind_join (segments : List Segment) :
    nextKind (join segments) ≠ .keyword .elseWord := by
  induction segments with
  | nil => exact nofun
  | cons s segments ih =>
      show nextKind (s.tokens ++ join segments) ≠ _
      have hfirst := s.noElse
      cases htokens : s.tokens with
      | nil => exact ih
      | cons t ts =>
          rw [htokens] at hfirst
          exact hfirst

/-- A segment has no errors, or is a line. -/
theorem separates (s : Segment) {p : Program} {es : List ParseError}
    (h : Parsed s.tokens s.eof p es) : es = [] ∨ IsLine s.tokens := by
  refine s.isSeparate.imp_left ?_
  rintro ⟨p', hp'⟩
  rw [h.ofTokens_eq] at hp'
  split at hp'
  · rename_i hempty
    exact List.isEmpty_iff.1 hempty
  · cases hp'

end Segment

/-- The errors that the parser finds in tokens. -/
def Program.errorsOfTokens (tokens : List Token) (eof : Token) : List ParseError :=
  match ofTokens tokens eof with
  | .ok _ => []
  | .error errors => errors

theorem Parsed.errorsOfTokens_eq {ts : List Token} {eof : Token} {p : Program}
    {es : List ParseError} (h : Parsed ts eof p es) : Program.errorsOfTokens ts eof = es := by
  rw [Program.errorsOfTokens, h.ofTokens_eq]
  cases es <;> rfl

/-- What the parser reads from the segments by themselves, it reads from them together. -/
theorem Segment.exists_parsed_join (segments : List Segment) (eof : Token) :
    ∃ programs : List Program,
      Parsed (join segments) eof programs.flatten
          (segments.flatMap fun s => Program.errorsOfTokens s.tokens s.eof) ∧
        ((segments.flatMap fun s => Program.errorsOfTokens s.tokens s.eof) = [] →
          segments.map (fun s => Program.ofTokens s.tokens s.eof) = programs.map .ok) := by
  induction segments with
  | nil => exact ⟨[], parsed_nil eof, fun _ => rfl⟩
  | cons s segments ih =>
      obtain ⟨programs, hrest, hall⟩ := ih
      obtain ⟨p, es, hp⟩ := exists_parsed s.tokens s.eof_kind
      refine ⟨p :: programs, ?_, fun hnone => ?_⟩
      · rw [List.flatMap_cons, hp.errorsOfTokens_eq, List.flatten_cons]
        exact hp.append s.eof_kind (s.separates hp) (nextKind_join segments) hrest
      · rw [List.flatMap_cons, List.append_eq_nil_iff, hp.errorsOfTokens_eq] at hnone
        obtain ⟨rfl, hnone⟩ := hnone
        rw [List.map_cons, List.map_cons, hall hnone, hp.ofTokens_eq]
        rfl

/-- Recovery is exact at the ends of segments: the parser finds in segments that stand one after
another just the errors that it finds in each of them by itself, in order. If there are none, it
reads the programs of the segments one after another. -/
theorem Program.ofTokens_segments (segments : List Segment) (eof : Token) :
    errorsOfTokens (Segment.join segments) eof =
        segments.flatMap (fun s => errorsOfTokens s.tokens s.eof) ∧
      (errorsOfTokens (Segment.join segments) eof = [] →
        ∃ programs : List Program,
          segments.map (fun s => ofTokens s.tokens s.eof) = programs.map .ok ∧
          ofTokens (Segment.join segments) eof = .ok programs.flatten) := by
  obtain ⟨programs, hjoin, hall⟩ := Segment.exists_parsed_join segments eof
  refine ⟨hjoin.errorsOfTokens_eq, fun hnone => ⟨programs, ?_, ?_⟩⟩
  · rw [hjoin.errorsOfTokens_eq] at hnone
    exact hall hnone
  · rw [hjoin.errorsOfTokens_eq] at hnone
    rw [hjoin.ofTokens_eq, hnone]
    rfl

/-- One error each in `var 1;` and in `f(print 1;`, where recovery skips the word `print`, and none
in the block after them. -/
theorem Program.ofTokens_segments_broken :
    let before : Segment :=
      ⟨[⟨.keyword .varWord, "var", 1, 0⟩, ⟨.number 1, "1", 1, 4⟩, ⟨.mark .semicolon, ";", 1, 5⟩],
        ⟨.eof, "", 1, 6⟩, rfl, .inr (.inner ⟨nofun, nofun, nofun, nofun⟩
          (.inner ⟨nofun, nofun, nofun, nofun⟩ (.last rfl))), nofun⟩
    let broken : Segment :=
      ⟨[⟨.identifier, "f", 2, 7⟩, ⟨.mark .leftParen, "(", 2, 8⟩,
          ⟨.keyword .printWord, "print", 2, 9⟩, ⟨.number 1, "1", 2, 15⟩,
          ⟨.mark .semicolon, ";", 2, 16⟩],
        ⟨.eof, "", 2, 17⟩, rfl, .inr (.inner ⟨nofun, nofun, nofun, nofun⟩
          (.inner ⟨nofun, nofun, nofun, nofun⟩ (.inner ⟨nofun, nofun, nofun, nofun⟩
            (.inner ⟨nofun, nofun, nofun, nofun⟩ (.last rfl))))), nofun⟩
    let after : Segment :=
      ⟨[⟨.mark .leftBrace, "\x7b", 3, 18⟩, ⟨.mark .rightBrace, "\x7d", 3, 19⟩],
        ⟨.eof, "", 3, 20⟩, rfl, .inl ⟨[.block []], rfl⟩, nofun⟩
    errorsOfTokens (Segment.join [before, broken, after]) ⟨.eof, "", 3, 20⟩ =
      [⟨.variableName, ⟨.number 1, "1", 1, 4⟩⟩, ⟨.expression, ⟨.keyword .printWord, "print", 2, 9⟩⟩]
      := by
  intro before broken after
  exact (Program.ofTokens_segments [before, broken, after] ⟨.eof, "", 3, 20⟩).1.trans rfl

end Lox
