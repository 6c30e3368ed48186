import Lox.Proofs.Renumbering.Cursor

set_option autoImplicit false

/-! # Parsers on renumbered tokens

`Follows r rest l f p p'` compares a run of the parser `p` with one of `p'` on the same tokens
renumbered, after which the tokens `rest` stand. The second run gives what the first one gives,
changed by `f`, which renumbers it. There are two provisos: the first run must not have spent its
budget, and it must not have looked past its tokens if others come after them. So if the tokens
have the same end, the runs agree also in their errors.

As for `Yields`, the rules follow the shape of a parser.
-/

namespace Lox

namespace Parser

/-- Runs of the second parser give what runs of the first one give, renumbered. -/
structure Follows (r : Renumbering) (rest : Option (List Token)) (l : Lookahead) {α : Type}
    (f : α → α) (p p' : Parser α) : Prop where
  /-- What is read for a value. -/
  reads : ∀ {c a c₁}, p c = .ok a c₁ →
    ∃ read noted, c.Reaches read noted c₁ ∧ (l = .consumes → noted = [] → read ≠ [])
  gives : ∀ {c a c₁ c'}, p c = .ok a c₁ → c.Continued r rest c' → c₁.Clear rest l →
    ∃ c₁', p' c' = .ok (f a) c₁' ∧ c₁.Continued r rest c₁'
  /-- What is read before an error. -/
  reaches : ∀ {c e c₁}, p c = .error (.failed e) c₁ → ∃ read noted, c.Reaches read noted c₁
  fails : ∀ {c e c₁ c'}, p c = .error (.failed e) c₁ → c.Continued r rest c' →
    c₁.Clear rest .looks →
    ∃ c₁', p' c' = .error (.failed (e.renumber r)) c₁' ∧ c₁.Continued r rest c₁'

variable {r : Renumbering} {rest : Option (List Token)} {l l₀ : Lookahead} {α β : Type} {f : α → α}
  {g : β → β} {p p' : Parser α} {q q' : α → Parser β}

/-! ## Rules -/

/-- A parser that looks at nothing may also be taken for one that does. -/
theorem Follows.looks (h : Follows r rest l f p p') : Follows r rest .looks f p p' where
  reads hp := by
    obtain ⟨read, noted, hreach, -⟩ := h.reads hp
    exact ⟨read, noted, hreach, fun hl => absurd hl (by decide)⟩
  gives hp hc hclear := h.gives hp hc hclear.weaken
  reaches := h.reaches
  fails := h.fails

theorem Follows.stops (h : Follows r rest .consumes f p p') : Follows r rest .stops f p p' where
  reads hp := by
    obtain ⟨read, noted, hreach, -⟩ := h.reads hp
    exact ⟨read, noted, hreach, fun hl => absurd hl (by decide)⟩
  gives hp hc hclear :=
    h.gives hp hc (hclear.imp_right (Or.imp_right fun hstops => ⟨by decide, hstops.2⟩))
  reaches := h.reaches
  fails := h.fails

theorem Follows.pure (a : α) : Follows r rest .stops f (pure a) (Pure.pure (f a)) where
  reads := by
    rintro c _ _ ⟨⟩
    exact ⟨[], [], .refl c, fun hl => absurd hl (by decide)⟩
  gives := by
    rintro c _ _ c' ⟨⟩ hc -
    exact ⟨c', rfl, hc⟩
  reaches := by
    rintro c _ _ ⟨⟩
  fails := by
    rintro c _ _ c' ⟨⟩

theorem Follows.exhaust : Follows r rest l f exhaust p' where
  reads := by
    rintro c _ _ ⟨⟩
  gives := by
    rintro c _ _ c' ⟨⟩
  reaches := by
    rintro c _ _ ⟨⟩
  fails := by
    rintro c _ _ c' ⟨⟩

theorem ok_of_bind {b : β} {c c₂ : Cursor} (h : (p >>= q) c = .ok b c₂) :
    ∃ a c₁, p c = .ok a c₁ ∧ q a c₁ = .ok b c₂ := by
  cases hp : p c with
  | ok a c₁ => exact ⟨a, c₁, rfl, (bind_of_ok hp).symm.trans h⟩
  | error e c₁ =>
      rw [bind_of_error hp] at h
      cases h

theorem error_of_bind {e : Failure} {c c₂ : Cursor} (h : (p >>= q) c = .error e c₂) :
    p c = .error e c₂ ∨ ∃ a c₁, p c = .ok a c₁ ∧ q a c₁ = .error e c₂ := by
  cases hp : p c with
  | ok a c₁ => exact .inr ⟨a, c₁, rfl, (bind_of_ok hp).symm.trans h⟩
  | error e' c₁ =>
      rw [bind_of_error hp] at h
      cases h
      exact .inl rfl

/-- One parser after another. -/
theorem Follows.after (hp : Follows r rest l₀ f p p')
    (hq : ∀ a, Follows r rest l g (q a) (q' (f a))) :
    Follows r rest (l.after l₀) g (p >>= q) (p' >>= q') where
  reads h := by
    obtain ⟨a, c₁, hpc, hqc⟩ := ok_of_bind h
    obtain ⟨ts, es, hreach, hts⟩ := hp.reads hpc
    obtain ⟨us, fs, hreach', hus⟩ := (hq a).reads hqc
    refine ⟨ts ++ us, es ++ fs, hreach.trans hreach', fun hl hnoted => ?_⟩
    obtain ⟨hes, hfs⟩ := List.append_eq_nil_iff.1 hnoted
    cases l with
    | looks => cases hl
    | stops => exact List.append_ne_nil_of_left_ne_nil (hts hl hes) _
    | consumes => exact List.append_ne_nil_of_right_ne_nil _ (hus rfl hfs)
  gives h hc hclear := by
    obtain ⟨a, c₁, hpc, hqc⟩ := ok_of_bind h
    obtain ⟨us, fs, hreach', hus⟩ := (hq a).reads hqc
    obtain ⟨c₁', hp', hc₁⟩ := hp.gives hpc hc (hclear.first hreach' hus)
    obtain ⟨c₂', hq', hc₂⟩ := (hq a).gives hqc hc₁ hclear.last
    exact ⟨c₂', (bind_of_ok hp').trans hq', hc₂⟩
  reaches h := by
    rcases error_of_bind h with hpc | ⟨a, c₁, hpc, hqc⟩
    · exact hp.reaches hpc
    · obtain ⟨ts, es, hreach, -⟩ := hp.reads hpc
      obtain ⟨us, fs, hreach'⟩ := (hq a).reaches hqc
      exact ⟨ts ++ us, es ++ fs, hreach.trans hreach'⟩
  fails h hc hclear := by
    rcases error_of_bind h with hpc | ⟨a, c₁, hpc, hqc⟩
    · obtain ⟨c₁', hp', hc₁⟩ := hp.fails hpc hc hclear
      exact ⟨c₁', bind_of_error hp', hc₁⟩
    · obtain ⟨us, fs, hreach'⟩ := (hq a).reaches hqc
      have hfirst : c₁.Clear rest l₀ :=
        Cursor.Clear.weaken (hclear.imp_right fun h =>
          h.imp (hreach'.ahead_ne_nil) fun h => absurd rfl h.1)
      obtain ⟨c₁', hp', hc₁⟩ := hp.gives hpc hc hfirst
      obtain ⟨c₂', hq', hc₂⟩ := (hq a).fails hqc hc₁ hclear
      exact ⟨c₂', (bind_of_ok hp').trans hq', hc₂⟩

/-- One parser after another, the second one looking on. -/
theorem Follows.bind (hp : Follows r rest l f p p')
    (hq : ∀ a, Follows r rest .looks g (q a) (q' (f a))) :
    Follows r rest .looks g (p >>= q) (p' >>= q') :=
  hp.after hq

/-- One parser after another, the second one reading a token. -/
theorem Follows.bindConsumes (hp : Follows r rest l f p p')
    (hq : ∀ a, Follows r rest .consumes g (q a) (q' (f a))) :
    Follows r rest .consumes g (p >>= q) (p' >>= q') :=
  hp.after hq

/-- One parser after another, the second one stopping where it is. -/
theorem Follows.bindStops (hp : Follows r rest l f p p')
    (hq : ∀ a, Follows r rest .stops g (q a) (q' (f a))) :
    Follows r rest l g (p >>= q) (p' >>= q') :=
  hp.after hq

/-- A value made of what a parser gives. -/
theorem Follows.map (hp : Follows r rest l f p p') {h h' : α → β}
    (heq : ∀ a, g (h a) = h' (f a)) :
    Follows r rest l g (p >>= fun a => Pure.pure (h a)) (p' >>= fun a => Pure.pure (h' a)) := by
  refine hp.bindStops fun a => ?_
  rw [← heq]
  exact .pure (h a)

/-- A parser that runs with the budget that its tokens call for. -/
theorem Follows.budgeted (run run' : Nat → Parser α)
    (h : ∀ b k, Follows r rest l f (run b) (run' (b + k))) :
    Follows r rest l f (fun c => run c.budget c) (fun c => run' c.budget c) where
  reads {c} _ _ hp := (h c.budget 0).reads hp
  gives {c} _ _ c' hp hc hclear := by
    obtain ⟨k, hk⟩ := Nat.exists_eq_add_of_le hc.budget_le
    show ∃ c₁', run' c'.budget c' = _ ∧ _
    rw [hk]
    exact (h c.budget k).gives hp hc hclear
  reaches {c} _ _ hp := (h c.budget 0).reaches hp
  fails {c} _ _ c' hp hc hclear := by
    obtain ⟨k, hk⟩ := Nat.exists_eq_add_of_le hc.budget_le
    show ∃ c₁', run' c'.budget c' = _ ∧ _
    rw [hk]
    exact (h c.budget k).fails hp hc hclear

/-! ## Primitive parsers -/

/-- A parser that looks at the next token, may read it, and does not fail. -/
theorem Follows.ofTotal {value value' : Cursor → α} {next next' : Cursor → Cursor}
    (hreaches : ∀ c : Cursor, ∃ read, c.Reaches read [] (next c))
    (h : ∀ c c', c.Continued r rest c' → (rest = none ∨ c.ahead ≠ []) →
      value' c' = f (value c) ∧ (next c).Continued r rest (next' c')) :
    Follows r rest .looks f (fun c => .ok (value c) (next c))
      (fun c => .ok (value' c) (next' c)) where
  reads := by
    rintro c _ _ ⟨⟩
    obtain ⟨read, hreach⟩ := hreaches c
    exact ⟨read, [], hreach, fun hl => absurd hl (by decide)⟩
  gives := by
    rintro c _ _ c' ⟨⟩ hc hclear
    obtain ⟨read, hreach⟩ := hreaches c
    obtain ⟨hvalue, hnext⟩ := h c c' hc ((Cursor.clear_looks_iff.1 hclear).imp_right
      hreach.ahead_ne_nil)
    exact ⟨next' c', by rw [hvalue], hnext⟩
  reaches := by
    rintro c _ _ ⟨⟩
  fails := by
    rintro c _ _ c' ⟨⟩

/-- A parser that looks at what is next and answers alike for a renumbered one. -/
theorem Follows.ofLook {value : Cursor → Bool}
    (h : ∀ c c', c.Continued r rest c' → (rest = none ∨ c.ahead ≠ []) → value c' = value c) :
    Follows r rest .looks id (fun c => .ok (value c) c) (fun c => .ok (value c) c) :=
  .ofTotal (fun c => ⟨[], .refl c⟩) fun c c' hc hclear => ⟨h c c' hc hclear, hc⟩

theorem follows_peek : Follows r rest .looks (Token.renumber r) peek peek :=
  .ofTotal (fun c => ⟨[], .refl c⟩) fun _ _ hc hclear => ⟨hc.peek hclear, hc⟩

theorem exists_reaches_advance (c : Cursor) : ∃ read, c.Reaches read [] c.advance := by
  cases hahead : c.ahead with
  | nil =>
      refine ⟨[], ?_, rfl, (List.append_nil _).symm⟩
      show c.ahead = c.ahead.tail
      rw [hahead]
      rfl
  | cons t ts => exact ⟨[t], reaches_advance hahead⟩

theorem follows_advance : Follows r rest .looks (Token.renumber r) advance advance :=
  .ofTotal exists_reaches_advance fun _ _ hc hclear => ⟨hc.peek hclear, hc.advance hclear⟩

theorem follows_checkMark (m : Mark) :
    Follows r rest .looks id (checkMark m) (checkMark m) :=
  .ofLook fun _ _ hc hclear => hc.isAtMark hclear m

theorem follows_atBlockEnd : Follows r rest .looks id atBlockEnd atBlockEnd :=
  .ofLook fun _ _ hc hclear => by rw [hc.isAtMark hclear, hc.isAtEnd hclear]

theorem Follows.ofFail (cause : ParseError.Cause) :
    Follows r rest l f (fail cause) (fail cause) where
  reads := by
    rintro c _ _ ⟨⟩
  gives := by
    rintro c _ _ c' ⟨⟩
  reaches := by
    rintro c _ _ ⟨⟩
    exact ⟨[], [], .refl c⟩
  fails := by
    rintro c _ _ c' ⟨⟩ hc hclear
    refine ⟨c', ?_, hc⟩
    rw [fail, hc.peek (Cursor.clear_looks_iff.1 hclear)]
    rfl

theorem follows_report (cause : ParseError.Cause) (token : Token) :
    Follows r rest .stops id (report cause token) (report cause (token.renumber r)) where
  reads := by
    rintro c _ _ ⟨⟩
    exact ⟨[], [⟨cause, token⟩], ⟨rfl, rfl, rfl⟩, fun hl => absurd hl (by decide)⟩
  gives := by
    rintro c _ _ c' ⟨⟩ hc -
    exact ⟨_, rfl, hc.collect ⟨cause, token⟩⟩
  reaches := by
    rintro c _ _ ⟨⟩
  fails := by
    rintro c _ _ c' ⟨⟩

/-- A parser that reads a token with which it can do something, or fails. -/
theorem Follows.ofExpect (accepts : Token → Option α) (cause : ParseError.Cause)
    (haccepts : ∀ t, accepts (t.renumber r) = (accepts t).map f)
    (hp : ∀ c, p c = match c.ahead.head?.bind accepts with
      | some a => .ok a c.advance
      | none => .error (.failed ⟨cause, c.peek⟩) c) :
    Follows r rest .consumes f p p := by
  -- Both runs look at the same token, unless the end of the tokens is looked at.
  have hhead : ∀ {c c' : Cursor}, c.Continued r rest c' → (rest = none ∨ c.ahead ≠ []) →
      c'.ahead.head?.bind accepts = (c.ahead.head?.bind accepts).map f := by
    intro c c' hc hclear
    rcases hc.cases hclear with ⟨-, hahead, hahead'⟩ | ⟨t, ts, hahead, hahead'⟩
    · rw [hahead, hahead']
      rfl
    · rw [hahead, hahead']
      exact haccepts t
  have hok : ∀ {c a c₁}, p c = .ok a c₁ →
      c₁ = c.advance ∧ c.ahead.head?.bind accepts = some a := by
    intro c a c₁ h
    rw [hp] at h
    split at h <;> cases h
    exact ⟨rfl, by assumption⟩
  have herror : ∀ {c e c₁}, p c = .error (.failed e) c₁ →
      c₁ = c ∧ e = ⟨cause, c.peek⟩ ∧ c.ahead.head?.bind accepts = none := by
    intro c e c₁ h
    rw [hp] at h
    split at h <;> cases h
    exact ⟨rfl, rfl, by assumption⟩
  have hahead : ∀ {c a}, Option.bind (List.head? (Cursor.ahead c)) accepts = some a →
      ∃ t ts, c.ahead = t :: ts := by
    intro c a h
    cases hc : c.ahead with
    | nil =>
        rw [hc] at h
        cases h
    | cons t ts => exact ⟨t, ts, rfl⟩
  refine ⟨fun h => ?_, fun h hc _ => ?_, fun h => ?_, fun h hc hclear => ?_⟩
  · obtain ⟨rfl, hsome⟩ := hok h
    obtain ⟨t, ts, hc⟩ := hahead hsome
    exact ⟨[t], [], reaches_advance hc, fun _ _ => List.cons_ne_nil _ _⟩
  · obtain ⟨rfl, hsome⟩ := hok h
    obtain ⟨t, ts, hne⟩ := hahead hsome
    have hclear : rest = none ∨ _ ≠ [] := .inr (hne ▸ List.cons_ne_nil t ts)
    refine ⟨_, ?_, hc.advance hclear⟩
    rw [hp, hhead hc hclear, hsome]
    rfl
  · obtain ⟨rfl, -⟩ := herror h
    exact ⟨[], [], .refl _⟩
  · obtain ⟨rfl, rfl, hnone⟩ := herror h
    have hclear := Cursor.clear_looks_iff.1 hclear
    refine ⟨_, ?_, hc⟩
    rw [hp, hhead hc hclear, hnone, hc.peek hclear]
    rfl

theorem follows_expectMark (m : Mark) (cause : ParseError.Cause) :
    Follows r rest .consumes (Token.renumber r) (expectMark m cause) (expectMark m cause) := by
  refine .ofExpect (fun t => if t.kind.isMark m then some t else none) cause (fun t => ?_)
    fun c => ?_
  · by_cases h : t.kind.isMark m <;> simp [h]
  · rw [expectMark, Cursor.isAtMark, Cursor.peek]
    cases c.ahead with
    | nil => rfl
    | cons t ts => by_cases h : t.kind.isMark m <;> simp [h]

/-- The name that a token is, if it is an identifier. -/
def name? (t : Token) : Option Name :=
  match t.kind with
  | .identifier => some t.toName
  | _ => none

theorem follows_expectName (cause : ParseError.Cause) :
    Follows r rest .consumes (Name.renumber r) (expectName cause) (expectName cause) := by
  refine .ofExpect name? cause (fun t => ?_) fun c => ?_
  · cases h : t.kind <;> simp [name?, h]
  · rw [expectName]
    cases c.ahead with
    | nil => rfl
    | cons t ts =>
        obtain ⟨kind, lexeme, line, start⟩ := t
        cases kind <;> rfl

/-! ## Choices by the next token -/

/-- The parser reads the next token if its kind passes a test, and says whether it did. -/
def Asks (test : Token.Kind → Bool) (d : Parser Bool) : Prop :=
  ∀ c, d c = if c.ahead.head?.any fun t => test t.kind then .ok true c.advance else .ok false c

theorem asks_acceptMark (m : Mark) : Asks (·.isMark m) (acceptMark m) := by
  intro c
  rw [acceptMark, Cursor.isAtMark]
  cases c.ahead <;> rfl

theorem asks_acceptKeyword (w : Keyword) : Asks (·.isKeyword w) (acceptKeyword w) := by
  intro c
  rw [acceptKeyword]
  cases c.ahead <;> rfl

section Choice

variable {test : Token.Kind → Bool} {d : Parser Bool} {c c' : Cursor}

/-- The token asked for is next. -/
theorem Asks.finds (hd : Asks test d) (k : Bool → Parser β) {t : Token} {ts : List Token}
    (hahead : c.ahead = t :: ts) (ht : test t.kind = true) : (d >>= k) c = k true c.advance := by
  refine bind_of_ok ?_
  rw [hd, hahead, List.head?_cons, Option.any_some, if_pos ht]

/-- The token asked for is not next. -/
theorem Asks.misses (hd : Asks test d) (k : Bool → Parser β)
    (h : c.ahead = [] ∨ test (nextKind c.ahead) = false) : (d >>= k) c = k false c := by
  refine bind_of_ok ?_
  rw [hd]
  cases hahead : c.ahead with
  | nil => rfl
  | cons t ts =>
      rw [hahead] at h
      have ht : test t.kind = false := h.resolve_left (List.cons_ne_nil _ _)
      rw [List.head?_cons, Option.any_some, ht]
      rfl

/-- The token asked for is next in both runs. -/
theorem Asks.finds' (hd : Asks test d) (k : Bool → Parser β) (hc : c.Continued r rest c')
    {t : Token} {ts : List Token} (hahead : c.ahead = t :: ts) (ht : test t.kind = true) :
    (d >>= k) c' = k true c'.advance ∧ c.advance.Continued r rest c'.advance := by
  have hahead' : c'.ahead = t.renumber r :: (ts.map (Token.renumber r) ++ rest.getD []) := by
    rw [hc.ahead, hahead]
    rfl
  exact ⟨hd.finds k hahead' ht, hc.advance (.inr (hahead ▸ List.cons_ne_nil t ts))⟩

/-- The token asked for is next in neither run. -/
theorem Asks.misses' (hd : Asks test d) (k : Bool → Parser β) (hc : c.Continued r rest c')
    (h : c.ahead = [] ∨ test (nextKind c.ahead) = false)
    (hclear : (rest = none ∨ c.ahead ≠ []) ∨ test (nextKind (rest.getD [])) = false) :
    (d >>= k) c' = k false c' := by
  refine hd.misses k ?_
  rw [hc.ahead]
  cases hahead : c.ahead with
  | nil =>
      rw [hahead] at hclear
      refine hclear.imp_left fun h => ?_
      rw [h.resolve_right fun hne => hne rfl]
      rfl
  | cons t ts =>
      rw [hahead] at h
      exact .inr (h.resolve_left (List.cons_ne_nil _ _))

theorem nextKind_cases (test : Token.Kind → Bool) (ts : List Token) :
    (∃ u us, ts = u :: us ∧ test u.kind = true) ∨ (ts = [] ∨ test (nextKind ts) = false) := by
  cases ts with
  | nil => exact .inr (.inl rfl)
  | cons u us =>
      cases hu : test u.kind with
      | true => exact .inl ⟨u, us, rfl, hu⟩
      | false => exact .inr (.inr hu)

/-- A choice between two parsers. What the second one says of the end of the tokens goes for
both, unless the token asked for may be the next one there. -/
theorem Asks.choose (hd : Asks test d) {yes yes' no no' : Parser β}
    (hyes : Follows r rest l.chosen g yes yes') (hno : Follows r rest l g no no')
    (hl : l = .stops → test (nextKind (rest.getD [])) = false) :
    Follows r rest l g (d >>= fun b => if b = true then yes else no)
      (d >>= fun b => if b = true then yes' else no') where
  reads {c a c₁} h := by
    rcases nextKind_cases test c.ahead with ⟨t, ts, hahead, ht⟩ | hmissed
    · rw [hd.finds _ hahead ht] at h
      obtain ⟨us, es, hreach, -⟩ := hyes.reads h
      exact ⟨[t] ++ us, [] ++ es, (reaches_advance hahead).trans hreach,
        fun _ _ => List.cons_ne_nil _ _⟩
    · rw [hd.misses _ hmissed] at h
      exact hno.reads h
  gives {c a c₁ c'} h hc hclear := by
    rcases nextKind_cases test c.ahead with ⟨t, ts, hahead, ht⟩ | hmissed
    · obtain ⟨hfinds, hadvance⟩ :=
        hd.finds' (fun b => if b = true then yes' else no') hc hahead ht
      rw [hd.finds _ hahead ht] at h
      rw [hfinds]
      exact hyes.gives h hadvance hclear.chosen
    · rw [hd.misses _ hmissed] at h
      obtain ⟨us, es, hreach, hread⟩ := hno.reads h
      rw [hd.misses' _ hc hmissed (hclear.asked hreach hread hl)]
      exact hno.gives h hc hclear
  reaches {c e c₁} h := by
    rcases nextKind_cases test c.ahead with ⟨t, ts, hahead, ht⟩ | hmissed
    · rw [hd.finds _ hahead ht] at h
      obtain ⟨us, es, hreach⟩ := hyes.reaches h
      exact ⟨[t] ++ us, [] ++ es, (reaches_advance hahead).trans hreach⟩
    · rw [hd.misses _ hmissed] at h
      exact hno.reaches h
  fails {c e c₁ c'} h hc hclear := by
    rcases nextKind_cases test c.ahead with ⟨t, ts, hahead, ht⟩ | hmissed
    · obtain ⟨hfinds, hadvance⟩ :=
        hd.finds' (fun b => if b = true then yes' else no') hc hahead ht
      rw [hd.finds _ hahead ht] at h
      rw [hfinds]
      exact hyes.fails h hadvance hclear
    · rw [hd.misses _ hmissed] at h
      obtain ⟨us, es, hreach⟩ := hno.reaches h
      have hne := (Cursor.clear_looks_iff.1 hclear).imp_right hreach.ahead_ne_nil
      rw [hd.misses' _ hc hmissed (.inl hne)]
      exact hno.fails h hc hclear

/-- A choice that looks on. -/
theorem Asks.chooseLooks (hd : Asks test d) {yes yes' no no' : Parser β}
    (hyes : Follows r rest .looks g yes yes') (hno : Follows r rest .looks g no no') :
    Follows r rest .looks g (d >>= fun b => if b = true then yes else no)
      (d >>= fun b => if b = true then yes' else no') :=
  hd.choose hyes hno fun h => absurd h (by decide)

/-- A choice that reads a token either way. -/
theorem Asks.chooseConsumes (hd : Asks test d) {yes yes' no no' : Parser β}
    (hyes : Follows r rest .stops g yes yes') (hno : Follows r rest .consumes g no no') :
    Follows r rest .consumes g (d >>= fun b => if b = true then yes else no)
      (d >>= fun b => if b = true then yes' else no') :=
  hd.choose hyes hno fun h => absurd h (by decide)

end Choice

/-! ## Recovery -/

theorem recovering_cases {p : Parser α} {c c₁ : Cursor} {o : Option α}
    (h : recovering p c = .ok o c₁) :
    (∃ a, p c = .ok a c₁ ∧ o = some a) ∨
      ∃ e c₂, p c = .error (.failed e) c₂ ∧ o = none ∧ c₁ = (c₂.collect e).synchronize := by
  unfold recovering at h
  split at h <;> cases h
  · exact .inl ⟨_, by assumption, rfl⟩
  · exact .inr ⟨_, _, by assumption, rfl, rfl⟩

theorem Follows.recovering (hp : Follows r rest .consumes f p p') :
    Follows r rest .consumes (Option.map f) (recovering p) (recovering p') where
  reads h := by
    rcases recovering_cases h with ⟨a, hpc, -⟩ | ⟨e, c₂, hpc, -, rfl⟩
    · exact hp.reads hpc
    · obtain ⟨ts, es, hreach⟩ := hp.reaches hpc
      have hcollect : c₂.Reaches [] [e] (c₂.collect e) := ⟨rfl, rfl, rfl⟩
      obtain ⟨skipped, hsync, -⟩ := (c₂.collect e).reaches_synchronize
      exact ⟨_, _, (hreach.trans hcollect).trans hsync, fun _ hnoted => by simp at hnoted⟩
  gives h hc hclear := by
    rcases recovering_cases h with ⟨a, hpc, rfl⟩ | ⟨e, c₂, hpc, rfl, rfl⟩
    · obtain ⟨c₁', hp', hc₁⟩ := hp.gives hpc hc hclear
      refine ⟨c₁', ?_, hc₁⟩
      rw [Parser.recovering, hp']
      rfl
    · obtain ⟨skipped, hsync, -⟩ := (c₂.collect e).reaches_synchronize
      -- There is an error, so the tokens are not at their end or nothing comes after them.
      have hne : rest = none ∨ (c₂.collect e).synchronize.ahead ≠ [] := by
        refine hclear.imp_right fun h => h.resolve_right fun h => ?_
        have hnil := (hsync.nil_of_collected h.2).1
        exact absurd hnil (List.append_ne_nil_of_right_ne_nil _ (List.cons_ne_nil _ _))
      have hbefore : c₂.Clear rest .looks :=
        Cursor.clear_looks_iff.2 (hne.imp_right hsync.ahead_ne_nil)
      obtain ⟨c₂', hp', hc₂⟩ := hp.fails hpc hc hbefore
      refine ⟨_, ?_, (hc₂.collect e).synchronize hne⟩
      rw [Parser.recovering, hp']
      rfl
  reaches h := absurd h (neverFails_recovering _ _ _ _)
  fails h := absurd h (neverFails_recovering _ _ _ _)

end Parser

end Lox
