import Lox.Tree.Statement

set_option autoImplicit false

/-! # What parsers read

`Yields p c post` says all that the theory of the parsers needs of a run of `p` at the cursor `c`.
It ends with a value or with a syntax error, never because the budget is spent; it reads a part of
what is ahead and may note errors, but takes none back; and a value, what was read for it and the
errors noted satisfy `post`.

The rules below follow the shape of a parser, so the proof about a parser is read off its text.
-/

namespace Lox

/-- The second cursor is the first after reading some tokens and noting some errors. -/
structure Cursor.Reaches (c : Cursor) (read : List Token) (noted : List ParseError)
    (c' : Cursor) : Prop where
  ahead : c.ahead = read ++ c'.ahead
  eof : c'.eof = c.eof
  collected : c'.collected = c.collected ++ noted

namespace Cursor.Reaches

variable {c c' c'' : Cursor} {ts us : List Token} {es fs : List ParseError}

theorem refl (c : Cursor) : c.Reaches [] [] c := ⟨rfl, rfl, (List.append_nil _).symm⟩

theorem trans (h : c.Reaches ts es c') (h' : c'.Reaches us fs c'') :
    c.Reaches (ts ++ us) (es ++ fs) c'' :=
  ⟨by rw [h.ahead, h'.ahead, List.append_assoc], by rw [h'.eof, h.eof],
    by rw [h'.collected, h.collected, List.append_assoc]⟩

theorem eof_kind (h : c.Reaches ts es c') (hc : c.eof.kind = .eof) : c'.eof.kind = .eof := by
  rw [h.eof]
  exact hc

theorem length_le (h : c.Reaches ts es c') : c'.ahead.length ≤ c.ahead.length := by
  rw [h.ahead, List.length_append]
  omega

theorem length_lt (h : c.Reaches ts es c') (hne : ts ≠ []) :
    c'.ahead.length < c.ahead.length := by
  have := List.length_pos_iff.2 hne
  rw [h.ahead, List.length_append]
  omega

end Cursor.Reaches

/-- A budget suffices for a parser that may take `depth` steps before it reads a token: sixteen
for each token ahead come to these. -/
structure Cursor.Affords (c : Cursor) (depth budget : Nat) : Prop where
  eof : c.eof.kind = .eof
  le : 16 * c.ahead.length + depth ≤ budget

namespace Cursor.Affords

variable {c c' : Cursor} {ts : List Token} {es : List ParseError} {depth depth' b : Nat}

/-- The budget that a parser starts with suffices. -/
theorem of_budget (hc : c.eof.kind = .eof) (hdepth : depth ≤ 16) : c.Affords depth c.budget := by
  refine ⟨hc, ?_⟩
  rw [Cursor.budget]
  omega

/-- There is no affording a step with nothing. -/
theorem budget_ne_zero (h : c.Affords depth b) (hdepth : 0 < depth) : b ≠ 0 := by
  have := h.le
  omega

/-- Reading on costs nothing. -/
theorem reach (h : c.Affords depth b) (hreach : c.Reaches ts es c') : c'.Affords depth b := by
  have hle := hreach.length_le
  have hbudget := h.le
  exact ⟨hreach.eof_kind h.eof, by omega⟩

/-- A token that was read is worth sixteen steps. -/
theorem afterToken (h : c.Affords depth b) (hreach : c.Reaches ts es c') (hne : ts ≠ [])
    (hdepth : depth' ≤ depth + 16) : c'.Affords depth' b := by
  have hlt := hreach.length_lt hne
  have hbudget := h.le
  exact ⟨hreach.eof_kind h.eof, by omega⟩

/-- A step deeper. -/
theorem deeper (h : c.Affords depth (b + 1)) (hreach : c.Reaches ts es c')
    (hdepth : depth' + 1 ≤ depth) : c'.Affords depth' b := by
  have hle := hreach.length_le
  have hbudget := h.le
  exact ⟨hreach.eof_kind h.eof, by omega⟩

/-- A step deeper after a token was read. -/
theorem further (h : c.Affords depth (b + 1)) (hreach : c.Reaches ts es c') (hne : ts ≠ [])
    (hdepth : depth' ≤ depth + 15) : c'.Affords depth' b := by
  have hafter := h.afterToken hreach hne (Nat.succ_le_succ hdepth)
  have hbudget := hafter.le
  exact ⟨hafter.eof, by omega⟩

end Cursor.Affords

namespace Parser

/-- A run of a parser ends, and what it reads and notes for a value satisfies `post`. -/
def Yields {α : Type} (p : Parser α) (c : Cursor)
    (post : α → List Token → List ParseError → Prop) : Prop :=
  match p c with
  | .ok a c' => ∃ read noted, c.Reaches read noted c' ∧ post a read noted
  | .error (.failed _) c' => ∃ read noted, c.Reaches read noted c'
  | .error .exhausted _ => False

variable {α β : Type} {p : Parser α} {q : α → Parser β} {c : Cursor}
  {post post' : α → List Token → List ParseError → Prop}

/-! ## Rules -/

theorem Yields.mono (h : p.Yields c post) (hpost : ∀ a ts es, post a ts es → post' a ts es) :
    p.Yields c post' := by
  unfold Yields at h ⊢
  split at h
  · obtain ⟨ts, es, hreach, h⟩ := h
    exact ⟨ts, es, hreach, hpost _ _ _ h⟩
  · exact h
  · exact h

theorem Yields.pure {a : α} (h : post a [] []) : (pure a : Parser α).Yields c post :=
  ⟨[], [], .refl c, h⟩

/-- The same, when only the value matters. -/
theorem yields_pure (a : α) :
    (Pure.pure a : Parser α).Yields c fun a' ts es => ts = [] ∧ es = [] ∧ a' = a :=
  .pure ⟨rfl, rfl, rfl⟩

/-- A parser that runs with the budget that its tokens call for. -/
theorem Yields.budgeted (run : Nat → Parser α) (h : (run c.budget).Yields c post) :
    Yields (fun c => run c.budget c) c post :=
  h

theorem bind_of_ok {a : α} {c' : Cursor} (h : p c = .ok a c') : (p >>= q) c = q a c' := by
  show EStateM.bind p q c = _
  rw [EStateM.bind, h]

theorem bind_of_error {e : Failure} {c' : Cursor} (h : p c = .error e c') :
    (p >>= q) c = .error e c' := by
  show EStateM.bind p q c = _
  rw [EStateM.bind, h]

/-- A run that goes on as another one does, after reading some tokens and noting some errors. -/
theorem Yields.after {p q : Parser α} {c' : Cursor} {ts : List Token} {es : List ParseError}
    (heq : p c = q c') (hreach : c.Reaches ts es c')
    (hq : q.Yields c' fun a us fs => post a (ts ++ us) (es ++ fs)) : p.Yields c post := by
  unfold Yields at hq ⊢
  rw [heq]
  cases hqc : q c' with
  | ok a c'' =>
      rw [hqc] at hq
      obtain ⟨us, fs, hreach', hpost⟩ := hq
      exact ⟨ts ++ us, es ++ fs, hreach.trans hreach', hpost⟩
  | error e c'' =>
      rw [hqc] at hq
      cases e with
      | failed e =>
          obtain ⟨us, fs, hreach'⟩ := hq
          exact ⟨ts ++ us, es ++ fs, hreach.trans hreach'⟩
      | exhausted => exact hq

/-- One parser after another: the second one starts where the first one stopped. -/
theorem Yields.bind {post : β → List Token → List ParseError → Prop}
    {mid : α → List Token → List ParseError → Prop} (hp : p.Yields c mid)
    (hq : ∀ a c' ts es, c.Reaches ts es c' → mid a ts es →
      (q a).Yields c' fun b us fs => post b (ts ++ us) (es ++ fs)) :
    (p >>= q).Yields c post := by
  unfold Yields at hp
  cases hpc : p c with
  | ok a c' =>
      rw [hpc] at hp
      obtain ⟨ts, es, hreach, hmid⟩ := hp
      exact .after (bind_of_ok hpc) hreach (hq a c' ts es hreach hmid)
  | error e c' =>
      rw [hpc] at hp
      unfold Yields
      rw [bind_of_error hpc]
      cases e <;> exact hp

/-! ## Primitive parsers -/

/-- Looking at the next token. -/
theorem Yields.peek {q : Token → Parser α} (h : (q c.peek).Yields c post) :
    (peek >>= q).Yields c post :=
  .after (bind_of_ok rfl) (.refl c) h

/-- Reading a token that is there. -/
theorem reaches_advance {c : Cursor} {t : Token} {rest : List Token} (h : c.ahead = t :: rest) :
    c.Reaches [t] [] c.advance := by
  refine ⟨?_, rfl, (List.append_nil _).symm⟩
  show c.ahead = [t] ++ c.ahead.tail
  rw [h]
  rfl

/-- Reading the token that was looked at. The one after the last is not read. -/
theorem Yields.advance {q : Token → Parser α} (hc : c.eof.kind = .eof)
    (hkind : c.peek.kind ≠ .eof)
    (hq : ∀ c', c.Reaches [c.peek] [] c' →
      (q c.peek).Yields c' fun a us fs => post a ([c.peek] ++ us) ([] ++ fs)) :
    (Parser.advance >>= q).Yields c post := by
  have hahead : ∃ rest, c.ahead = c.peek :: rest := by
    cases hahead : c.ahead with
    | nil =>
        have hpeek : c.peek = c.eof := by rw [Cursor.peek, hahead]
        exact absurd (hpeek ▸ hc) hkind
    | cons t rest =>
        have hpeek : c.peek = t := by rw [Cursor.peek, hahead]
        exact ⟨rest, by rw [hpeek]⟩
  obtain ⟨rest, hahead⟩ := hahead
  exact .after (bind_of_ok rfl) (reaches_advance hahead) (hq _ (reaches_advance hahead))

/-- A mark is next exactly if the first token ahead is one. -/
theorem isAtMark_iff {c : Cursor} {m : Mark} :
    c.isAtMark m = true ↔ ∃ t rest, c.ahead = t :: rest ∧ t.kind = .mark m := by
  unfold Cursor.isAtMark
  split
  · simp [*]
  · rename_i t rest hahead
    rw [Token.Kind.isMark_iff, hahead]
    constructor
    · intro h
      exact ⟨t, rest, rfl, h⟩
    · rintro ⟨t', rest', heq, h⟩
      cases heq
      exact h

theorem yields_checkMark {c : Cursor} (m : Mark) :
    (checkMark m).Yields c fun b ts es => ts = [] ∧ es = [] ∧ b = c.isAtMark m :=
  ⟨[], [], .refl c, rfl, rfl, rfl⟩

theorem yields_expectMark {c : Cursor} (m : Mark) (cause : ParseError.Cause) :
    (expectMark m cause).Yields c fun t ts es => ts = [t] ∧ es = [] ∧ t.kind = .mark m := by
  unfold Yields expectMark
  by_cases h : c.isAtMark m
  · obtain ⟨t, rest, hahead, hkind⟩ := isAtMark_iff.1 h
    have hpeek : c.peek = t := by rw [Cursor.peek, hahead]
    rw [if_pos h]
    exact ⟨[t], [], reaches_advance hahead, by rw [hpeek], rfl, by rw [hpeek]; exact hkind⟩
  · rw [if_neg h]
    exact ⟨[], [], .refl c⟩

theorem yields_expectName {c : Cursor} (cause : ParseError.Cause) :
    (expectName cause).Yields c fun n ts es =>
      es = [] ∧ ∃ t, ts = [t] ∧ t.kind = .identifier ∧ n = t.toName := by
  unfold Yields expectName
  cases hahead : c.ahead with
  | nil => exact ⟨[], [], .refl c⟩
  | cons t rest =>
      obtain ⟨kind, text, line, start⟩ := t
      cases kind with
      | identifier => exact ⟨_, [], reaches_advance hahead, rfl, _, rfl, rfl, rfl⟩
      | _ => exact ⟨[], [], .refl c⟩

theorem yields_fail {post : α → List Token → List ParseError → Prop} {c : Cursor}
    (cause : ParseError.Cause) : (fail cause : Parser α).Yields c post :=
  ⟨[], [], .refl c⟩

theorem yields_report {c : Cursor} (cause : ParseError.Cause) (token : Token) :
    (report cause token).Yields c fun _ ts es => ts = [] ∧ es ≠ [] :=
  ⟨[], [⟨cause, token⟩], ⟨rfl, rfl, rfl⟩, rfl, by simp⟩

/-! ## Choices by the next token -/

/-- A choice by whether a mark is next. -/
theorem Yields.byMark {m : Mark} {yes no : Parser α}
    (hyes : ∀ t c', c.Reaches [t] [] c' → c.peek = t → t.kind = .mark m →
      yes.Yields c' fun a us fs => post a ([t] ++ us) ([] ++ fs))
    (hno : no.Yields c post) :
    (acceptMark m >>= fun b => if b = true then yes else no).Yields c post := by
  by_cases h : c.isAtMark m
  · obtain ⟨t, rest, hahead, hkind⟩ := isAtMark_iff.1 h
    have hpeek : c.peek = t := by rw [Cursor.peek, hahead]
    have haccept : acceptMark m c = .ok true c.advance := by rw [acceptMark, if_pos h]
    exact .after (bind_of_ok haccept) (reaches_advance hahead)
      (hyes t c.advance (reaches_advance hahead) hpeek hkind)
  · have haccept : acceptMark m c = .ok false c := by rw [acceptMark, if_neg h]
    exact .after (bind_of_ok haccept) (.refl c) hno

/-- A choice by whether a keyword is next. -/
theorem Yields.byKeyword {w : Keyword} {yes no : Parser α}
    (hyes : ∀ t c', c.Reaches [t] [] c' → c.peek = t → t.kind = .keyword w →
      yes.Yields c' fun a us fs => post a ([t] ++ us) ([] ++ fs))
    (hno : no.Yields c post) :
    (acceptKeyword w >>= fun b => if b = true then yes else no).Yields c post := by
  -- At the end of the source there is no keyword.
  by_cases h : ∃ t rest, c.ahead = t :: rest ∧ t.kind = .keyword w
  · obtain ⟨t, rest, hahead, hkind⟩ := h
    have hpeek : c.peek = t := by rw [Cursor.peek, hahead]
    have haccept : acceptKeyword w c = .ok true c.advance := by
      simp [acceptKeyword, hahead, hkind]
    exact .after (bind_of_ok haccept) (reaches_advance hahead)
      (hyes t c.advance (reaches_advance hahead) hpeek hkind)
  · have haccept : acceptKeyword w c = .ok false c := by
      cases hahead : c.ahead with
      | nil => simp [acceptKeyword, hahead]
      | cons t rest =>
          have hword : t.kind.isKeyword w = false := by
            rw [Bool.eq_false_iff]
            intro hword
            exact h ⟨t, rest, hahead, Token.Kind.isKeyword_iff.1 hword⟩
          simp [acceptKeyword, hahead, hword]
    exact .after (bind_of_ok haccept) (.refl c) hno

end Parser

end Lox
