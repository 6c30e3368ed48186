import Lox.Proofs.Parsing.Acceptance
import Lox.Proofs.Parsing.Statement
import Lox.Proofs.Renumbering.Tree

set_option autoImplicit false

/-! # Cursors on renumbered tokens

A cursor `c'` that continues another one, `c`, has its tokens ahead renumbered, and then either
more tokens `rest`, or just the renumbered end (`none`). As long as the tokens of `c` are not at
their end, both show the same; and in the second case also there. `Cursor.Clear` says of where a
parser stopped that it has not looked further than that.
-/

namespace Lox

/-- Whether a parser looks at the token after those that it reads. -/
inductive Lookahead
  | looks
  | stops
  /-- The parser does not look, and reads a token. -/
  | consumes
deriving DecidableEq

/-- How far two parsers look together, the second one first: if it stops where it is, the first
one decides. -/
def Lookahead.after (l l₀ : Lookahead) : Lookahead :=
  match l with
  | stops => l₀
  | looks | consumes => l

/-- How far the parser looks that is chosen when a token was read. -/
def Lookahead.chosen (l : Lookahead) : Lookahead :=
  match l with
  | looks => looks
  | stops | consumes => stops

namespace Cursor

/-- The second cursor is the first one renumbered, with the same end or with more tokens. -/
structure Continued (r : Renumbering) (rest : Option (List Token)) (c c' : Cursor) : Prop where
  ahead : c'.ahead = c.ahead.map (Token.renumber r) ++ rest.getD []
  eof : rest = none → c'.eof = c.eof.renumber r
  collected : c'.collected = c.collected.map (ParseError.renumber r)

/-- A parser that stopped here has not looked past the tokens that it had. -/
def Clear (rest : Option (List Token)) (l : Lookahead) (c : Cursor) : Prop :=
  rest = none ∨ c.ahead ≠ [] ∨ l ≠ .looks ∧ c.collected = []

variable {r : Renumbering} {rest : Option (List Token)} {l : Lookahead} {c c' c₁ : Cursor}
  {read : List Token} {noted : List ParseError}

theorem Clear.weaken (h : c.Clear rest .looks) : c.Clear rest l := by
  rcases h with hrest | hahead | ⟨hlooks, -⟩
  · exact .inl hrest
  · exact .inr (.inl hahead)
  · exact absurd rfl hlooks

theorem clear_looks_iff : c.Clear rest .looks ↔ rest = none ∨ c.ahead ≠ [] := by
  simp [Clear]

theorem Reaches.ahead_ne_nil (h : c.Reaches read noted c₁) (hahead : c₁.ahead ≠ []) :
    c.ahead ≠ [] := by
  rw [h.ahead]
  exact List.append_ne_nil_of_right_ne_nil _ hahead

theorem Reaches.nil_of_collected (h : c.Reaches read noted c₁) (hcollected : c₁.collected = []) :
    c.collected = [] ∧ noted = [] := by
  rwa [h.collected, List.append_eq_nil_iff] at hcollected

/-- The second of two parsers was clear if both were together. -/
theorem Clear.last {l₀ : Lookahead} (h : c.Clear rest (l.after l₀)) : c.Clear rest l := by
  cases l with
  | looks | consumes => exact h
  | stops => exact h.imp_right (Or.imp_right fun hstops => ⟨by decide, hstops.2⟩)

/-- The first of two parsers was clear if both were together: it looked at the end of the tokens
only if the second one read nothing. -/
theorem Clear.first {l₀ : Lookahead} (h : c₁.Clear rest (l.after l₀))
    (hreach : c.Reaches read noted c₁) (hread : l = .consumes → noted = [] → read ≠ []) :
    c.Clear rest l₀ := by
  rcases h with hrest | hahead | ⟨hlooks, hcollected⟩
  · exact .inl hrest
  · exact .inr (.inl (hreach.ahead_ne_nil hahead))
  · obtain ⟨hbefore, hnoted⟩ := hreach.nil_of_collected hcollected
    cases l with
    | looks => exact absurd rfl hlooks
    | stops => exact .inr (.inr ⟨hlooks, hbefore⟩)
    | consumes =>
        refine .inr (.inl ?_)
        rw [hreach.ahead]
        exact List.append_ne_nil_of_left_ne_nil (hread rfl hnoted) _

theorem Clear.chosen (h : c.Clear rest l) : c.Clear rest l.chosen := by
  cases l with
  | looks | stops => exact h
  | consumes => exact h.imp_right (Or.imp_right fun hstops => ⟨by decide, hstops.2⟩)

/-- A token that was asked for in vain, before a parser that was clear, is not the next one in
the other run. -/
theorem Clear.asked {test : Token.Kind → Bool} (h : c₁.Clear rest l)
    (hreach : c.Reaches read noted c₁) (hread : l = .consumes → noted = [] → read ≠ [])
    (hl : l = .stops → test (nextKind (rest.getD [])) = false) :
    (rest = none ∨ c.ahead ≠ []) ∨ test (nextKind (rest.getD [])) = false := by
  cases l with
  | looks => exact .inl (clear_looks_iff.1 h |>.imp_right hreach.ahead_ne_nil)
  | stops => exact .inr (hl rfl)
  | consumes => exact .inl (clear_looks_iff.1 (Clear.first (l := .consumes) h hreach hread))

/-- Where the tokens are not at their end, the next ones are the same. -/
theorem Continued.cases (h : c.Continued r rest c') (hclear : rest = none ∨ c.ahead ≠ []) :
    (rest = none ∧ c.ahead = [] ∧ c'.ahead = []) ∨
      ∃ t ts, c.ahead = t :: ts ∧
        c'.ahead = t.renumber r :: (ts.map (Token.renumber r) ++ rest.getD []) := by
  cases hahead : c.ahead with
  | nil =>
      have hrest : rest = none := hclear.resolve_right fun hne => hne hahead
      refine .inl ⟨hrest, rfl, ?_⟩
      rw [h.ahead, hahead, hrest]
      rfl
  | cons t ts =>
      refine .inr ⟨t, ts, rfl, ?_⟩
      rw [h.ahead, hahead]
      rfl

theorem Continued.peek (h : c.Continued r rest c') (hclear : rest = none ∨ c.ahead ≠ []) :
    c'.peek = c.peek.renumber r := by
  rcases h.cases hclear with ⟨hrest, hahead, hahead'⟩ | ⟨t, ts, hahead, hahead'⟩
  · rw [Cursor.peek, Cursor.peek, hahead, hahead']
    exact h.eof hrest
  · rw [Cursor.peek, Cursor.peek, hahead, hahead']

theorem Continued.isAtMark (h : c.Continued r rest c') (hclear : rest = none ∨ c.ahead ≠ [])
    (m : Mark) : c'.isAtMark m = c.isAtMark m := by
  rcases h.cases hclear with ⟨-, hahead, hahead'⟩ | ⟨t, ts, hahead, hahead'⟩
  · rw [Cursor.isAtMark, Cursor.isAtMark, hahead, hahead']
  · rw [Cursor.isAtMark, Cursor.isAtMark, hahead, hahead']
    rfl

theorem Continued.isAtEnd (h : c.Continued r rest c') (hclear : rest = none ∨ c.ahead ≠ []) :
    c'.isAtEnd = c.isAtEnd := by
  rcases h.cases hclear with ⟨-, hahead, hahead'⟩ | ⟨t, ts, hahead, hahead'⟩
  · rw [Cursor.isAtEnd, Cursor.isAtEnd, hahead, hahead']
  · rw [Cursor.isAtEnd, Cursor.isAtEnd, hahead, hahead']
    rfl

theorem Continued.advance (h : c.Continued r rest c') (hclear : rest = none ∨ c.ahead ≠ []) :
    c.advance.Continued r rest c'.advance := by
  refine ⟨?_, h.eof, h.collected⟩
  show c'.ahead.tail = c.ahead.tail.map (Token.renumber r) ++ rest.getD []
  rcases h.cases hclear with ⟨hrest, hahead, hahead'⟩ | ⟨t, ts, hahead, hahead'⟩
  · rw [hahead, hahead', hrest]
    rfl
  · rw [hahead, hahead']
    rfl

theorem Continued.collect (h : c.Continued r rest c') (e : ParseError) :
    (c.collect e).Continued r rest (c'.collect (e.renumber r)) := by
  refine ⟨h.ahead, h.eof, ?_⟩
  show c'.collected ++ [e.renumber r] = (c.collected ++ [e]).map (ParseError.renumber r)
  rw [h.collected, List.map_append]
  rfl

theorem Continued.length_le (h : c.Continued r rest c') :
    c.ahead.length ≤ c'.ahead.length := by
  rw [h.ahead, List.length_append, List.length_map]
  omega

theorem Continued.budget_le (h : c.Continued r rest c') : c.budget ≤ c'.budget := by
  have := h.length_le
  rw [Cursor.budget, Cursor.budget]
  omega

theorem skipToStatement_renumber (last : Token) (ts : List Token)
    (hclear : rest = none ∨ skipToStatement last ts ≠ []) :
    skipToStatement (last.renumber r) (ts.map (Token.renumber r) ++ rest.getD []) =
      (skipToStatement last ts).map (Token.renumber r) ++ rest.getD [] := by
  induction ts generalizing last with
  | nil =>
      have hrest : rest = none := hclear.resolve_right fun hne => hne rfl
      simp [hrest, skipToStatement]
  | cons t ts ih =>
      rw [skipToStatement] at hclear
      by_cases hlast : last.kind.isMark .semicolon
      · simp [skipToStatement, hlast]
      · by_cases hstarts : startsStatement t.kind
        · simp [skipToStatement, hlast, hstarts]
        · rw [if_neg hlast, if_neg hstarts] at hclear
          simp [skipToStatement, hlast, hstarts, ih t hclear]

/-- Both cursors skip the same tokens, if the first one does not skip all. -/
theorem Continued.synchronize (h : c.Continued r rest c')
    (hclear : rest = none ∨ c.synchronize.ahead ≠ []) :
    c.synchronize.Continued r rest c'.synchronize := by
  obtain ⟨skipped, hreach, -⟩ := c.reaches_synchronize
  rcases h.cases (hclear.imp_right hreach.ahead_ne_nil) with
    ⟨hrest, hahead, hahead'⟩ | ⟨t, ts, hahead, hahead'⟩
  · have hsync : c.synchronize = c := by simp [Cursor.synchronize, hahead]
    have hsync' : c'.synchronize = c' := by simp [Cursor.synchronize, hahead']
    rw [hsync, hsync']
    exact h
  · have hsync : c.synchronize = { c with ahead := skipToStatement t ts } := by
      simp [Cursor.synchronize, hahead]
    have hsync' : c'.synchronize =
        ⟨skipToStatement (t.renumber r) (ts.map (Token.renumber r) ++ rest.getD []), c'.eof,
          c'.collected⟩ := by
      simp [Cursor.synchronize, hahead']
    rw [hsync] at hclear ⊢
    rw [hsync']
    exact ⟨skipToStatement_renumber t ts hclear, h.eof, h.collected⟩

end Cursor

end Lox
