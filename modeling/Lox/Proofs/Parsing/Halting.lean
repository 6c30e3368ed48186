import Lox.Proofs.Parsing.Yield

set_option autoImplicit false

/-! # Where parsers stop

`p.Halts c done stuck` is about how a run of `p` at `c` ends. If it gives a value, what it read and
the token after that satisfy `done`. If it fails, the error is at the token after what was read, and
the two satisfy `stuck`. Values and noted errors do not matter, and a run whose budget is spent may
do anything.

As for `Yields`, the rules follow the shape of a parser.
-/

namespace Lox.Parser

/-- A run of a parser stops at a token where what was read satisfies `done`, or `stuck` if the
run fails. -/
def Halts {α : Type} (p : Parser α) (c : Cursor) (done stuck : List Token → Token → Prop) : Prop :=
  match p c with
  | .ok _ c' => ∃ read noted, c.Reaches read noted c' ∧ done read c'.peek
  | .error (.failed e) c' =>
    e.token = c'.peek ∧ ∃ read noted, c.Reaches read noted c' ∧ stuck read c'.peek
  | .error .exhausted _ => True

variable {α β : Type} {p : Parser α} {q : α → Parser β} {c : Cursor}
  {done done' stuck stuck' mid : List Token → Token → Prop}

/-! ## Rules -/

/-- What was read, and the token after it, begin with the token that was next. -/
theorem exists_cons_of_reaches {c' : Cursor} {ts : List Token} {es : List ParseError}
    (h : c.Reaches ts es c') : ∃ us, ts ++ [c'.peek] = c.peek :: us := by
  cases ts with
  | nil =>
      have hahead : c.ahead = c'.ahead := h.ahead
      have hpeek : c'.peek = c.peek := by rw [Cursor.peek, Cursor.peek, hahead, h.eof]
      exact ⟨[], by rw [hpeek]; rfl⟩
  | cons t ts =>
      have hpeek : c.peek = t := by rw [Cursor.peek, h.ahead, List.cons_append]
      exact ⟨ts ++ [c'.peek], by rw [hpeek]; rfl⟩

theorem Halts.weaken (h : p.Halts c done stuck)
    (hdone : ∀ ts t us, ts ++ [t] = c.peek :: us → done ts t → done' ts t)
    (hstuck : ∀ ts t us, ts ++ [t] = c.peek :: us → stuck ts t → stuck' ts t) :
    p.Halts c done' stuck' := by
  unfold Halts at h ⊢
  split at h
  · obtain ⟨ts, es, hreach, h⟩ := h
    obtain ⟨us, hus⟩ := exists_cons_of_reaches hreach
    exact ⟨ts, es, hreach, hdone _ _ us hus h⟩
  · obtain ⟨htoken, ts, es, hreach, h⟩ := h
    obtain ⟨us, hus⟩ := exists_cons_of_reaches hreach
    exact ⟨htoken, ts, es, hreach, hstuck _ _ us hus h⟩
  · trivial

theorem Halts.mono (h : p.Halts c done stuck) (hdone : ∀ ts t, done ts t → done' ts t)
    (hstuck : ∀ ts t, stuck ts t → stuck' ts t) : p.Halts c done' stuck' :=
  h.weaken (fun ts t _ _ => hdone ts t) fun ts t _ _ => hstuck ts t

theorem Halts.pure {a : α} (h : done [] c.peek) : (pure a : Parser α).Halts c done stuck :=
  ⟨[], [], .refl c, h⟩

theorem Halts.fail {cause : ParseError.Cause} (h : stuck [] c.peek) :
    (fail cause : Parser α).Halts c done stuck :=
  ⟨rfl, [], [], .refl c, h⟩

theorem Halts.exhaust : (exhaust : Parser α).Halts c done stuck := trivial

/-- A parser that runs with the budget that its tokens call for. -/
theorem Halts.budgeted (run : Nat → Parser α) (h : (run c.budget).Halts c done stuck) :
    Halts (fun c => run c.budget c) c done stuck :=
  h

/-- A run that goes on as another one does, after reading some tokens and noting some errors. -/
theorem Halts.after {p q : Parser α} {c' : Cursor} {ts : List Token} {es : List ParseError}
    (heq : p c = q c') (hreach : c.Reaches ts es c')
    (hq : q.Halts c' (fun us t => done (ts ++ us) t) fun us t => stuck (ts ++ us) t) :
    p.Halts c done stuck := by
  unfold Halts at hq ⊢
  rw [heq]
  split at hq
  · obtain ⟨us, fs, hreach', h⟩ := hq
    exact ⟨ts ++ us, es ++ fs, hreach.trans hreach', h⟩
  · obtain ⟨htoken, us, fs, hreach', h⟩ := hq
    exact ⟨htoken, ts ++ us, es ++ fs, hreach.trans hreach', h⟩
  · trivial

/-- One parser after another: the second one starts where the first one stopped. -/
theorem Halts.bind (hp : p.Halts c mid stuck)
    (hq : ∀ a c' ts es, c.Reaches ts es c' → mid ts c'.peek →
      (q a).Halts c' (fun us t => done (ts ++ us) t) fun us t => stuck (ts ++ us) t) :
    (p >>= q).Halts c done stuck := by
  unfold Halts at hp
  cases hpc : p c with
  | ok a c' =>
      rw [hpc] at hp
      obtain ⟨ts, es, hreach, hmid⟩ := hp
      exact .after (bind_of_ok hpc) hreach (hq a c' ts es hreach hmid)
  | error e c' =>
      rw [hpc] at hp
      unfold Halts
      rw [bind_of_error hpc]
      cases e <;> exact hp

/-! ## Primitive parsers -/

/-- Looking at the next token. -/
theorem Halts.peek {q : Token → Parser α} (h : (q c.peek).Halts c done stuck) :
    (peek >>= q).Halts c done stuck :=
  .after (bind_of_ok rfl) (.refl c) h

/-- A token that is looked at and is not the end is ahead. -/
theorem exists_ahead (hc : c.eof.kind = .eof) (hkind : c.peek.kind ≠ .eof) :
    ∃ rest, c.ahead = c.peek :: rest := by
  cases hahead : c.ahead with
  | nil =>
      have hpeek : c.peek = c.eof := by rw [Cursor.peek, hahead]
      rw [hpeek] at hkind
      exact absurd hc hkind
  | cons t rest =>
      have hpeek : c.peek = t := by rw [Cursor.peek, hahead]
      exact ⟨rest, by rw [hpeek]⟩

/-- Reading the token that was looked at. -/
theorem Halts.advance {q : Token → Parser α} (hc : c.eof.kind = .eof)
    (hkind : c.peek.kind ≠ .eof)
    (hq : ∀ c', c.Reaches [c.peek] [] c' →
      (q c.peek).Halts c' (fun us t => done ([c.peek] ++ us) t)
        fun us t => stuck ([c.peek] ++ us) t) :
    (Parser.advance >>= q).Halts c done stuck := by
  obtain ⟨rest, hahead⟩ := exists_ahead hc hkind
  exact .after (bind_of_ok rfl) (reaches_advance hahead) (hq _ (reaches_advance hahead))

theorem peek_ne_of_isAtMark {m : Mark} (hc : c.eof.kind = .eof) (h : ¬ c.isAtMark m = true) :
    c.peek.kind ≠ .mark m := by
  intro hkind
  have hne : c.peek.kind ≠ .eof := by
    rw [hkind]
    exact Token.Kind.noConfusion
  obtain ⟨rest, hahead⟩ := exists_ahead hc hne
  exact h (isAtMark_iff.2 ⟨c.peek, rest, hahead, hkind⟩)

theorem Halts.checkMark {q : Bool → Parser α} {m : Mark} (hc : c.eof.kind = .eof)
    (hyes : c.peek.kind = .mark m → (q true).Halts c done stuck)
    (hno : c.peek.kind ≠ .mark m → (q false).Halts c done stuck) :
    (checkMark m >>= q).Halts c done stuck := by
  have hcheck : Parser.checkMark m c = .ok (c.isAtMark m) c := rfl
  refine .after (bind_of_ok hcheck) (.refl c) ?_
  by_cases h : c.isAtMark m = true
  · obtain ⟨t, rest, hahead, hkind⟩ := isAtMark_iff.1 h
    have hpeek : c.peek = t := by rw [Cursor.peek, hahead]
    rw [h]
    exact hyes (by rw [hpeek, hkind])
  · have hfalse : c.isAtMark m = false := Bool.eq_false_iff.2 h
    rw [hfalse]
    exact hno (peek_ne_of_isAtMark hc h)

/-- A mark that has to come next. -/
theorem Halts.expectMark {q : Token → Parser α} {m : Mark} {cause : ParseError.Cause}
    (hc : c.eof.kind = .eof)
    (hyes : ∀ t c', c.Reaches [t] [] c' → t.kind = .mark m →
      (q t).Halts c' (fun us t' => done ([t] ++ us) t') fun us t' => stuck ([t] ++ us) t')
    (hno : c.peek.kind ≠ .mark m → stuck [] c.peek) :
    (expectMark m cause >>= q).Halts c done stuck := by
  by_cases h : c.isAtMark m = true
  · obtain ⟨t, rest, hahead, hkind⟩ := isAtMark_iff.1 h
    have hpeek : c.peek = t := by rw [Cursor.peek, hahead]
    have hread : Parser.expectMark m cause c = .ok t c.advance := by
      rw [Parser.expectMark, if_pos h, hpeek]
    exact .after (bind_of_ok hread) (reaches_advance hahead)
      (hyes t _ (reaches_advance hahead) hkind)
  · have hfail : Parser.expectMark m cause c = .error (.failed ⟨cause, c.peek⟩) c := by
      rw [Parser.expectMark, if_neg h]
    unfold Halts
    rw [bind_of_error hfail]
    exact ⟨rfl, [], [], .refl c, hno (peek_ne_of_isAtMark hc h)⟩

/-- A name that has to come next. -/
theorem Halts.expectName {q : Name → Parser α} {cause : ParseError.Cause}
    (hc : c.eof.kind = .eof)
    (hyes : ∀ t c', c.Reaches [t] [] c' → t.kind = .identifier →
      (q t.toName).Halts c' (fun us t' => done ([t] ++ us) t') fun us t' => stuck ([t] ++ us) t')
    (hno : c.peek.kind ≠ .identifier → stuck [] c.peek) :
    (expectName cause >>= q).Halts c done stuck := by
  by_cases h : c.peek.kind = .identifier
  · have hne : c.peek.kind ≠ .eof := by
      rw [h]
      exact Token.Kind.noConfusion
    obtain ⟨rest, hahead⟩ := exists_ahead hc hne
    have hread : Parser.expectName cause c = .ok c.peek.toName c.advance := by
      generalize c.peek = t at h hahead
      obtain ⟨kind, text, line, start⟩ := t
      subst h
      unfold Parser.expectName
      rw [hahead]
      rfl
    exact .after (bind_of_ok hread) (reaches_advance hahead)
      (hyes c.peek _ (reaches_advance hahead) h)
  · have hfail : Parser.expectName cause c = .error (.failed ⟨cause, c.peek⟩) c := by
      unfold Parser.expectName
      split
      · rename_i text line start rest hahead
        have hpeek : c.peek = ⟨.identifier, text, line, start⟩ := by rw [Cursor.peek, hahead]
        exact absurd (by rw [hpeek]) h
      · rfl
    unfold Halts
    rw [bind_of_error hfail]
    exact ⟨rfl, [], [], .refl c, hno h⟩

theorem Halts.report {q : Unit → Parser α} {cause : ParseError.Cause} {token : Token}
    (hq : ∀ c' es, c.Reaches [] es c' → c'.peek = c.peek → (q ()).Halts c' done stuck) :
    (report cause token >>= q).Halts c done stuck := by
  have hreach : c.Reaches [] [⟨cause, token⟩] (c.collect ⟨cause, token⟩) := ⟨rfl, rfl, rfl⟩
  exact .after (bind_of_ok rfl) hreach (hq _ _ hreach rfl)

/-! ## Choices by the next token -/

/-- A choice by whether a mark is next. -/
theorem Halts.byMark {m : Mark} {yes no : Parser α} (hc : c.eof.kind = .eof)
    (hyes : ∀ t c', c.Reaches [t] [] c' → c.peek = t → t.kind = .mark m →
      yes.Halts c' (fun us t' => done ([t] ++ us) t') fun us t' => stuck ([t] ++ us) t')
    (hno : c.peek.kind ≠ .mark m → no.Halts c done stuck) :
    (acceptMark m >>= fun b => if b = true then yes else no).Halts c done stuck := by
  by_cases h : c.isAtMark m = true
  · obtain ⟨t, rest, hahead, hkind⟩ := isAtMark_iff.1 h
    have hpeek : c.peek = t := by rw [Cursor.peek, hahead]
    have haccept : acceptMark m c = .ok true c.advance := by rw [acceptMark, if_pos h]
    exact .after (bind_of_ok haccept) (reaches_advance hahead)
      (hyes t c.advance (reaches_advance hahead) hpeek hkind)
  · have haccept : acceptMark m c = .ok false c := by rw [acceptMark, if_neg h]
    exact .after (bind_of_ok haccept) (.refl c) (hno (peek_ne_of_isAtMark hc h))

end Lox.Parser
