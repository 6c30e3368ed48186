import Lox.Proofs.Parsing.Language
import Lox.Proofs.Renumbering.Statement

set_option autoImplicit false

/-! # Programs of renumbered tokens

Renumbered tokens are the renumbered program, or have the renumbered errors
(`Program.ofTokens_renumber`). And the tokens of two programs, one after the other, are the two
programs one after the other (`Program.ofTokens_append`): no statement goes on from the first one
into the second one.
-/

namespace Lox

namespace Parser

variable {r : Renumbering} {rest : Option (List Token)}

theorem follows_atEnd : Follows r rest .looks id atEnd atEnd :=
  .ofLook fun _ _ hc hclear => hc.isAtEnd hclear

theorem follows_program (hrest : nextKind (rest.getD []) ≠ .keyword .elseWord) (b k : Nat) :
    Follows r rest .looks (List.map (Stmt.renumber r)) (programWithin b)
      (programWithin (b + k)) := by
  induction b with
  | zero => exact .exhaust
  | succ b ih =>
      rw [Nat.add_right_comm, programWithin, programWithin]
      refine follows_atEnd.bind fun ends => ?_
      cases ends with
      | true => exact (Follows.pure []).looks
      | false =>
          refine (follows_declaration hrest).bind fun first? => ?_
          exact ih.map fun ss => map_toList_append _ first? ss

/-- The two ways in which reading a program goes on. -/
theorem programWithin_cases {b : Nat} {c c₁ : Cursor} {p : Program}
    (h : programWithin (b + 1) c = .ok p c₁) :
    (c.ahead = [] ∧ p = [] ∧ c₁ = c) ∨
      ∃ first? c₂ ss, c.ahead ≠ [] ∧ declaration c = .ok first? c₂ ∧
        programWithin b c₂ = .ok ss c₁ ∧ p = first?.toList ++ ss := by
  rw [programWithin] at h
  obtain ⟨ends, c₂, hends, h⟩ := ok_of_bind h
  cases hends
  cases hahead : c.isAtEnd with
  | true =>
      rw [hahead] at h
      cases h
      exact .inl ⟨isAtEnd_iff.1 hahead, rfl, rfl⟩
  | false =>
      rw [hahead] at h
      obtain ⟨first?, c₂, hfirst, h⟩ := ok_of_bind h
      obtain ⟨ss, c₃, hss, h⟩ := ok_of_bind h
      cases h
      refine .inr ⟨first?, c₂, ss, fun hnil => ?_, hfirst, hss, rfl⟩
      rw [isAtEnd_iff.2 hnil] at hahead
      cases hahead

/-- Reading a program goes on with a declaration. -/
theorem programWithin_of_declaration {b : Nat} {c c₁ c₂ : Cursor} {first? : Option Stmt}
    {ss : List Stmt} (hahead : c.ahead ≠ []) (hfirst : declaration c = .ok first? c₂)
    (hss : programWithin b c₂ = .ok ss c₁) :
    programWithin (b + 1) c = .ok (first?.toList ++ ss) c₁ := by
  have hends : c.isAtEnd = false := by
    rw [Bool.eq_false_iff]
    exact fun h => hahead (isAtEnd_iff.1 h)
  have hask : atEnd c = .ok false c := by rw [atEnd, hends]
  rw [programWithin, bind_of_ok hask]
  exact (bind_of_ok hfirst).trans (bind_of_ok hss)

theorem nextKind_map_renumber (ts : List Token) :
    nextKind (ts.map (Token.renumber r)) = nextKind ts := by
  cases ts <;> rfl

/-- What is read for a program without errors, and then for another one. Each declaration takes a
token, so that many steps suffice. -/
theorem programWithin_append {b b₀ b' : Nat} {c c' c₁ c₂ : Cursor} {p q : Program}
    {us : List Token} {eof : Token} (hp : programWithin b c = .ok p c₁)
    (hclean : c₁.collected = []) (hus : nextKind us ≠ .keyword .elseWord)
    (hq : programWithin b₀ (.start us eof) = .ok q c₂)
    (hc : c.Continued r (some (us.map (Token.renumber r))) c') (heof : c'.eof = eof.renumber r)
    (hb : c.ahead.length + b₀ ≤ b') :
    ∃ c₂', programWithin b' c' = .ok ((p ++ q).map (Stmt.renumber r)) c₂' ∧
      c₂'.collected = c₂.collected.map (ParseError.renumber r) := by
  have hrest : nextKind ((some (us.map (Token.renumber r))).getD []) ≠ .keyword .elseWord := by
    rwa [Option.getD_some, nextKind_map_renumber]
  induction b generalizing c c' b' p with
  | zero => cases hp
  | succ b ih =>
      rcases programWithin_cases hp with ⟨hahead, rfl, rfl⟩ |
        ⟨first?, c₃, ss, hahead, hfirst, hss, rfl⟩
      · -- Only the second program is ahead.
        have hstart : (Cursor.start us eof).Continued r none c' := by
          refine ⟨?_, fun _ => heof, ?_⟩
          · rw [hc.ahead, hahead]
            exact (List.append_nil _).symm
          · rw [hc.collected, hclean]
            rfl
        obtain ⟨k, rfl⟩ := Nat.exists_eq_add_of_le (Nat.le_trans (Nat.le_add_left _ _) hb)
        obtain ⟨c₂', hq', hc₂⟩ :=
          (follows_program (by simp [nextKind]) b₀ k).gives hq hstart (.inl rfl)
        exact ⟨c₂', hq', hc₂.collected⟩
      · obtain ⟨us', es', hreach', -⟩ := (follows_program (r := r) hrest b 0).reads hss
        obtain ⟨hclean₃, -⟩ := hreach'.nil_of_collected hclean
        have hdeclaration := follows_declaration (r := r) hrest
        obtain ⟨ts, es, hreach, hts⟩ := hdeclaration.reads hfirst
        have hread := hts rfl (hreach.nil_of_collected hclean₃).2
        obtain ⟨c₃', hfirst', hc₃⟩ :=
          hdeclaration.gives hfirst hc (.inr (.inr ⟨by decide, hclean₃⟩))
        have heof₃ : c₃'.eof = eof.renumber r := by
          obtain ⟨_, _, hreach₃, -⟩ := hdeclaration.reads hfirst'
          rw [hreach₃.eof, heof]
        have hlt := hreach.length_lt hread
        obtain ⟨b'', rfl⟩ := Nat.exists_eq_succ_of_ne_zero (n := b') (by omega)
        have hb'' : c₃.ahead.length + b₀ ≤ b'' := by omega
        obtain ⟨c₂', hmore, hc₂⟩ := ih hss hc₃ heof₃ hb''
        have hahead' : c'.ahead ≠ [] := by
          rw [hc.ahead]
          exact List.append_ne_nil_of_left_ne_nil (by simpa using hahead) _
        refine ⟨c₂', ?_, hc₂⟩
        rw [programWithin_of_declaration hahead' hfirst' hmore, List.append_assoc,
          map_toList_append]

end Parser

namespace Program

variable {r : Renumbering} {ts us : List Token} {eof eof' : Token} {p q : Program}

/-- The parser reads all tokens of a program, and collects its errors. -/
theorem exists_programWithin (ts : List Token) (heof : eof.kind = .eof) :
    ∃ p c, Parser.programWithin (Cursor.start ts eof).budget (.start ts eof) = .ok p c ∧
      c.ahead = [] ∧
      ofTokens ts eof = if c.collected.isEmpty then .ok p else .error c.collected := by
  have hyields := Parser.yields_program (c := .start ts eof) (.of_budget heof (by decide))
  unfold Parser.Yields at hyields
  simp only [ofTokens]
  cases hrun : Parser.programWithin (Cursor.start ts eof).budget (.start ts eof) with
  | ok p c =>
      rw [hrun] at hyields
      obtain ⟨read, noted, hreach, rfl, -⟩ := hyields
      refine ⟨p, c, rfl, ?_, rfl⟩
      exact List.self_eq_append_right.1 hreach.ahead
  | error e c =>
      rw [hrun] at hyields
      cases e with
      | failed e => exact absurd hrun (Parser.neverFails_program _ _ _ _)
      | exhausted => exact hyields.elim

/-- Renumbered tokens are the renumbered program, or have the renumbered errors. -/
theorem ofTokens_renumber (r : Renumbering) (ts : List Token) (heof : eof.kind = .eof) :
    ofTokens (ts.map (Token.renumber r)) (eof.renumber r) =
      ((ofTokens ts eof).map (List.map (Stmt.renumber r))).mapError
        (List.map (ParseError.renumber r)) := by
  obtain ⟨p, c, hrun, -, hresult⟩ := exists_programWithin ts heof
  have hstart : (Cursor.start ts eof).Continued r none
      (.start (ts.map (Token.renumber r)) (eof.renumber r)) :=
    ⟨(List.append_nil _).symm, fun _ => rfl, rfl⟩
  have hbudget : (Cursor.start (ts.map (Token.renumber r)) (eof.renumber r)).budget =
      (Cursor.start ts eof).budget := by
    simp [Cursor.budget, Cursor.start]
  obtain ⟨c', hrun', hc'⟩ :=
    (Parser.follows_program (by simp [nextKind]) _ 0).gives hrun hstart (.inl rfl)
  rw [Nat.add_zero] at hrun'
  have hresult' : ofTokens (ts.map (Token.renumber r)) (eof.renumber r) =
      if c'.collected.isEmpty then .ok (p.map (Stmt.renumber r)) else .error c'.collected := by
    simp only [ofTokens, hbudget, hrun']
  rw [hresult', hresult, hc'.collected, List.isEmpty_map]
  split <;> rfl

/-- A program, and the run of the parser that gives it. -/
theorem programWithin_of_ofTokens (heof : eof.kind = .eof) (h : ofTokens ts eof = .ok p) :
    ∃ c, Parser.programWithin (Cursor.start ts eof).budget (.start ts eof) = .ok p c ∧
      c.collected = [] := by
  obtain ⟨p', c, hrun, -, hresult⟩ := exists_programWithin ts heof
  rw [hresult] at h
  split at h <;> cases h
  rename_i hclean
  exact ⟨c, hrun, List.isEmpty_iff.1 hclean⟩

/-- The tokens of two programs, one after the other, are both programs. -/
theorem ofTokens_append (r : Renumbering) (heof : eof.kind = .eof) (heof' : eof'.kind = .eof)
    (hp : ofTokens ts eof = .ok p) (hq : ofTokens us eof' = .ok q) :
    ofTokens ((ts ++ us).map (Token.renumber r)) (eof'.renumber r) =
      .ok ((p ++ q).map (Stmt.renumber r)) := by
  obtain ⟨c₁, hrun, hclean⟩ := programWithin_of_ofTokens heof hp
  obtain ⟨c₂, hrun₂, hclean₂⟩ := programWithin_of_ofTokens heof' hq
  -- The second program starts with no `else`, since it is one by itself.
  have hnext : nextKind us ≠ .keyword .elseWord := by
    have hus := (spells_of_ofTokens heof' hq).derives
    have hend : nextKind [] ≠ .keyword .elseWord := by simp [nextKind]
    have h := Parser.nextKind_declarations_ne hus hend
    rwa [List.append_nil] at h
  have hstart : (Cursor.start ts eof).Continued r (some (us.map (Token.renumber r)))
      (.start ((ts ++ us).map (Token.renumber r)) (eof'.renumber r)) :=
    ⟨List.map_append, by rintro ⟨⟩, rfl⟩
  have hbudget : (Cursor.start ts eof).ahead.length + (Cursor.start us eof').budget ≤
      (Cursor.start ((ts ++ us).map (Token.renumber r)) (eof'.renumber r)).budget := by
    simp only [Cursor.budget, Cursor.start, List.length_map, List.length_append]
    omega
  obtain ⟨c, hboth, hc⟩ :=
    Parser.programWithin_append hrun hclean hnext hrun₂ hstart rfl hbudget
  simp only [ofTokens, hboth, hc, hclean₂]
  rfl

end Program

end Lox
