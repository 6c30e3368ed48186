import Lox.Proofs.Recovery.Segments
import Lox.Proofs.Renumbering.Program
import Lox.Proofs.Renumbering.Same
import Lox.Proofs.Scanning.Partition
import Lox.Proofs.Slice.Agreement

set_option autoImplicit false

/-! # Parsing ends within the tokens

On tokens of which only the last one is the end of a source, a reader never looks past that one,
never goes back, and comes to an end with a budget that is linear in the number of tokens
(`Slice.program_ends`). The reason that it does not stay where it is: a declaration reads a token
where there is one, be it that it succeeds, or that it fails and skips to the next statement
(`Parser.declarationWithin_reads`).
-/

namespace Lox

namespace Parser

variable {c : Cursor}

/-- A larger budget than suffices changes nothing about how far a declaration reads. -/
theorem declarationWithin_more {b : Nat} {c' : Cursor} {o : Option Stmt}
    (h : declarationWithin b c = .ok o c') (k : Nat) :
    ∃ o' c'', declarationWithin (b + k) c = .ok o' c'' ∧ c''.ahead.length = c'.ahead.length := by
  have hnext : nextKind ((none : Option (List Token)).getD []) ≠ .keyword .elseWord := nofun
  have hsame : c.Continued .same none c :=
    ⟨by rw [Token.map_renumber_same]; exact (List.append_nil _).symm, fun _ => rfl,
      (ParseError.map_renumber_same _).symm⟩
  obtain ⟨c'', hrun, hc⟩ :=
    (statementFollows hnext k b).declaration.gives h hsame (.inl rfl)
  refine ⟨_, c'', hrun, ?_⟩
  rw [hc.ahead, Token.map_renumber_same]
  exact congrArg List.length (List.append_nil _)

/-- A declaration that starts before the end reads a token, whether it succeeds or fails. It may
only run out of a budget that is smaller than the one that the tokens call for. -/
theorem declarationWithin_reads (heof : c.eof.kind = .eof) (hahead : c.ahead ≠ []) (b : Nat) :
    (∃ o c', declarationWithin b c = .ok o c' ∧ c'.ahead.length < c.ahead.length) ∨
      b < c.budget ∧ ∃ c', declarationWithin b c = .error .exhausted c' := by
  have hreads : ∀ b, c.budget ≤ b →
      ∃ o c', declarationWithin b c = .ok o c' ∧ c'.ahead.length < c.ahead.length := by
    intro b hb
    have hbudget : (Cursor.Affords c 3 c.budget) := .of_budget heof (by decide)
    have hyields := (statementSpecs b).declaration c ⟨heof, Nat.le_trans hbudget.le hb⟩ hahead
    unfold Yields at hyields
    cases hrun : declarationWithin b c with
    | ok o c' =>
        rw [hrun] at hyields
        obtain ⟨ts, es, hreach, hne, -⟩ := hyields
        exact ⟨o, c', rfl, hreach.length_lt hne⟩
    | error e c' =>
        rw [hrun] at hyields
        cases e with
        | failed e => exact absurd hrun (neverFails_declarationWithin b c e c')
        | exhausted => exact hyields.elim
  rcases Nat.lt_or_ge b c.budget with hlt | hge
  · cases hrun : declarationWithin b c with
    | ok o c' =>
        -- With a budget that suffices the declaration reads as far.
        obtain ⟨k, hk⟩ := Nat.exists_eq_add_of_le (Nat.le_of_lt hlt)
        obtain ⟨o', c'', hmore, hlength⟩ := declarationWithin_more hrun k
        obtain ⟨o₁, c₁, hrun₁, hless⟩ := hreads (b + k) (Nat.le_of_eq hk)
        rw [hmore] at hrun₁
        cases hrun₁
        exact .inl ⟨o, c', rfl, hlength ▸ hless⟩
    | error e c' =>
        cases e with
        | failed e => exact absurd hrun (neverFails_declarationWithin b c e c')
        | exhausted => exact .inr ⟨hlt, c', rfl⟩
  · exact .inl (hreads b hge)

/-- Reading an expression that is all there is ends. -/
theorem wholeExpression_ends (heof : c.eof.kind = .eof) :
    wholeExpression.Yields c fun _ _ _ => True := by
  refine .bind (yields_expression heof) fun e c₁ ts es hreach _ => ?_
  unfold Yields
  by_cases hend : c₁.isAtEnd
  · simp only [if_pos hend]
    exact ⟨[], [], .refl c₁, trivial⟩
  · simp only [if_neg hend]
    exact ⟨[], [], .refl c₁⟩

end Parser

namespace Slice

/-- Only the last token is the end of a source. -/
structure EndsOnce (ts : List Token) (eof : Token) : Prop where
  eof : eof.kind = .eof
  notEof : ∀ t ∈ ts, t.kind ≠ .eof

/-- The tokens of every source end once. -/
theorem endsOnce_ofText (source : String) (offset : Nat) :
    EndsOnce (Scan.ofText source offset).tokens (Scan.ofText source offset).eof := by
  refine ⟨rfl, fun t ht => ?_⟩
  obtain ⟨item, hitem, htoken⟩ := List.mem_filterMap.1 ht
  cases item with
  | token t' =>
      cases htoken
      exact (Scan.partitions_ofText source offset).notEof t hitem
  | error e => cases htoken

variable {ts : List Token} {eof : Token} {r : Reader}

/-- A reader that is before the end shows the tokens up to it. -/
theorem EndsOnce.shows (h : EndsOnce ts eof) (htokens : r.tokens = ts ++ [eof])
    (hcurrent : r.current ≤ ts.length) :
    r.Shows ⟨ts.drop r.current, eof, r.collected⟩ := by
  refine ⟨?_, rfl, h.eof, fun t ht => h.notEof t (List.mem_of_mem_drop ht)⟩
  show r.tokens.drop r.current = ts.drop r.current ++ [eof]
  rw [htokens, List.drop_append_of_le_length hcurrent]

/-- Where a reader stands that shows what is left of the tokens. -/
theorem Reader.Shows.current_add {c : Cursor} (h : r.Shows c) (htokens : r.tokens = ts ++ [eof]) :
    r.current + c.ahead.length = ts.length := by
  have hlength := h.length
  rw [htokens, List.length_append, List.length_singleton] at hlength
  omega

theorem program_gives (h : EndsOnce ts eof) :
    ∃ r, program (.start (ts ++ [eof])) = .ok (Program.ofTokens ts eof) r ∧
      (Reader.start (ts ++ [eof])).MovesTo r ∧ r.current = ts.length := by
  obtain ⟨p, c, hrun, hahead, hresult⟩ := Program.exists_programWithin ts h.eof
  have htracks := Tracks.budgeted tracks_program _ _ (Reader.Shows.start h.eof h.notEof)
  unfold TracksAt at htracks
  simp only [hrun] at htracks
  obtain ⟨r, hgives, hmoves, hshows⟩ := htracks
  refine ⟨r, ?_, hmoves, ?_⟩
  · rw [hresult, ← hshows.collected]
    exact bind_of_ok hgives
  · have hcurrent := hshows.current_add hmoves.tokens
    rw [hahead] at hcurrent
    exact hcurrent

theorem wholeExpression_gives (h : EndsOnce ts eof) :
    ∃ r, wholeExpression (.start (ts ++ [eof])) =
        (match Expr.ofTokens ts eof with
        | .ok e => .ok e r
        | .error e => .error (.failed e) r) ∧
      (Reader.start (ts ++ [eof])).MovesTo r ∧ r.current ≤ ts.length := by
  have htracks := tracks_wholeExpression _ _ (Reader.Shows.start h.eof h.notEof)
  have hends : Parser.wholeExpression.Yields (.start ts eof) fun _ _ _ => True :=
    Parser.wholeExpression_ends h.eof
  unfold TracksAt Gives at htracks
  unfold Parser.Yields at hends
  unfold Expr.ofTokens
  cases hrun : Parser.wholeExpression (.start ts eof) with
  | ok e c =>
      rw [hrun] at htracks
      obtain ⟨r, hgives, hmoves, hshows⟩ := htracks
      have hcurrent := hshows.current_add hmoves.tokens
      exact ⟨r, hgives, hmoves, by omega⟩
  | error e c =>
      rw [hrun] at htracks
      cases e with
      | failed e =>
          obtain ⟨r, hgives, hmoves, hshows⟩ := htracks
          have hcurrent := hshows.current_add hmoves.tokens
          exact ⟨r, hgives, hmoves, by omega⟩
      | exhausted =>
          rw [hrun] at hends
          exact hends.elim

theorem declarationWithin_advances (h : EndsOnce ts eof) (htokens : r.tokens = ts ++ [eof])
    (hcurrent : r.current < ts.length) (b : Nat) :
    (∃ o r', declarationWithin b r = .ok o r' ∧ r.MovesTo r' ∧ r.current < r'.current ∧
        r'.current ≤ ts.length) ∨
      b < r.budget ∧ ∃ r', declarationWithin b r = .error .exhausted r' := by
  have hshows := h.shows htokens (Nat.le_of_lt hcurrent)
  have hne : ts.drop r.current ≠ [] := by
    intro hnil
    have hlength := List.drop_eq_nil_iff.1 hnil
    omega
  have htracks := (statementTracks b).declaration r _ hshows
  unfold TracksAt Gives at htracks
  rcases Parser.declarationWithin_reads hshows.eof hne b with
    ⟨o, c', hrun, hless⟩ | ⟨hlt, c', hrun⟩
  · rw [hrun] at htracks
    obtain ⟨r', hgives, hmoves, hshows'⟩ := htracks
    have hbefore := hshows.current_add htokens
    have hafter := hshows'.current_add (hmoves.tokens.trans htokens)
    exact .inl ⟨o, r', hgives, hmoves, by omega, by omega⟩
  · rw [hrun] at htracks
    exact .inr ⟨hshows.budget ▸ hlt, htracks⟩

/-- The parsers always finish and never look past the tokens. The tokens of every source end once;
and on tokens that end once, the parser of programs and the parser of expressions come to their
results without spending their budgets. On the way every reading of a token is in range, and the
place of the reader never goes back and never passes the last token. A call of the parser of
declarations, however it came about, that starts before the last token goes on by one token or
more, whether it gives a declaration or recovers from an error; only a call with less than the
budget that the tokens left call for may be cut off. -/
theorem parsers_finish :
    (∀ source offset,
      EndsOnce (Scan.ofText source offset).tokens (Scan.ofText source offset).eof) ∧
    ∀ (ts : List Token) (eof : Token), EndsOnce ts eof →
      (∃ r, program (.start (ts ++ [eof])) = .ok (Program.ofTokens ts eof) r ∧
        (Reader.start (ts ++ [eof])).MovesTo r ∧ r.current = ts.length) ∧
      (∃ r, wholeExpression (.start (ts ++ [eof])) =
          (match Expr.ofTokens ts eof with
          | .ok e => .ok e r
          | .error e => .error (.failed e) r) ∧
        (Reader.start (ts ++ [eof])).MovesTo r ∧ r.current ≤ ts.length) ∧
      ∀ (b : Nat) (r : Reader), r.tokens = ts ++ [eof] → r.current < ts.length →
        (∃ o r', declarationWithin b r = .ok o r' ∧ r.MovesTo r' ∧ r.current < r'.current ∧
          r'.current ≤ ts.length) ∨
        b < r.budget ∧ ∃ r', declarationWithin b r = .error .exhausted r' := by
  refine ⟨endsOnce_ofText, fun ts eof h => ⟨program_gives h, wholeExpression_gives h, ?_⟩⟩
  exact fun b r htokens hcurrent => declarationWithin_advances h htokens hcurrent b

/-- A source with five errors, the last three at its end inside two blocks that are open. -/
theorem parsers_finish_open_blocks :
    let scan := Scan.ofText "\x7b var = 1; \x7b print \x7d; class" 0
    ∃ errors r, program (.start (scan.tokens ++ [scan.eof])) = .ok (.error errors) r ∧
      errors.length = 5 ∧ r.current = 10 := by
  obtain ⟨hscan, hfinish⟩ := parsers_finish
  intro scan
  obtain ⟨⟨r, hrun, -, hcurrent⟩, -⟩ := hfinish scan.tokens scan.eof (hscan _ 0)
  have herrors : (Program.errorsOfTokens scan.tokens scan.eof).length = 5 := by decide +kernel
  have htokens : scan.tokens.length = 10 := by decide +kernel
  rw [Program.errorsOfTokens] at herrors
  cases hresult : Program.ofTokens scan.tokens scan.eof with
  | ok p =>
      rw [hresult] at herrors
      cases herrors
  | error errors =>
      rw [hresult] at hrun herrors
      exact ⟨errors, r, hrun, herrors, hcurrent.trans htokens⟩

end Slice

end Lox
