import Lox.Proofs.Renumbering.Follow
import Lox.Proofs.Slice.Parser

set_option autoImplicit false

/-! # Readers and cursors

A reader shows a cursor if the tokens from its index on are those ahead of the cursor, and then the
one that ends them (`Reader.Shows`). `Tracks p q` says that from there a parser on the reader does
what the parser on the cursor does: the same value or the same error, again with a reader that
shows the cursor. On the way it never looks past the last token and never goes back
(`Reader.MovesTo`).

As for `Yields`, the rules follow the shape of a parser.
-/

namespace Lox.Slice

open Lox.Parser (Asks)

/-- The second reader is the first one after some readings: each of them is of a token that is
there, and none is made further back than the one before. -/
structure Reader.MovesTo (r r' : Reader) : Prop where
  tokens : r'.tokens = r.tokens
  current : r.current ≤ r'.current
  accesses : ∃ made, r'.accesses = r.accesses ++ made ∧
    made.Pairwise (fun a b => a.current ≤ b.current) ∧
    ∀ a ∈ made, r.current ≤ a.current ∧ a.current ≤ r'.current ∧ a.index < r.tokens.length

namespace Reader.MovesTo

variable {r r' r'' : Reader}

theorem refl (r : Reader) : r.MovesTo r :=
  ⟨rfl, Nat.le_refl _, [], (List.append_nil _).symm, .nil, by simp⟩

theorem trans (h : r.MovesTo r') (h' : r'.MovesTo r'') : r.MovesTo r'' := by
  obtain ⟨made, hmade, hsorted, hbound⟩ := h.accesses
  obtain ⟨made', hmade', hsorted', hbound'⟩ := h'.accesses
  have hcurrent := h.current
  have hcurrent' := h'.current
  refine ⟨h'.tokens.trans h.tokens, Nat.le_trans hcurrent hcurrent', made ++ made', ?_, ?_, ?_⟩
  · rw [hmade', hmade, List.append_assoc]
  · refine List.pairwise_append.2 ⟨hsorted, hsorted', fun a ha b hb => ?_⟩
    exact Nat.le_trans (hbound a ha).2.1 (hbound' b hb).1
  · intro a ha
    rcases List.mem_append.1 ha with ha | ha
    · obtain ⟨hfrom, hto, hindex⟩ := hbound a ha
      exact ⟨hfrom, Nat.le_trans hto hcurrent', hindex⟩
    · obtain ⟨hfrom, hto, hindex⟩ := hbound' a ha
      rw [h.tokens] at hindex
      exact ⟨Nat.le_trans hcurrent hfrom, hto, hindex⟩

theorem next (r : Reader) : r.MovesTo r.next :=
  ⟨rfl, Nat.le_succ _, [], (List.append_nil _).symm, .nil, by simp⟩

theorem collect (r : Reader) (e : ParseError) : r.MovesTo (r.collect e) :=
  ⟨rfl, Nat.le_refl _, [], (List.append_nil _).symm, .nil, by simp⟩

theorem access {index : Nat} (h : index < r.tokens.length) : r.MovesTo (r.access index) := by
  refine ⟨rfl, Nat.le_refl _, [⟨r.current, index⟩], rfl, List.pairwise_singleton _ _, ?_⟩
  intro a ha
  cases List.mem_singleton.1 ha
  exact ⟨Nat.le_refl _, Nat.le_refl _, h⟩

end Reader.MovesTo

/-- The reader is before the tokens that are ahead of the cursor. -/
structure Reader.Shows (r : Reader) (c : Cursor) : Prop where
  ahead : r.tokens.drop r.current = c.ahead ++ [c.eof]
  collected : r.collected = c.collected
  eof : c.eof.kind = .eof
  notEof : ∀ t ∈ c.ahead, t.kind ≠ .eof

namespace Reader.Shows

variable {r : Reader} {c : Cursor} {t : Token} {ts : List Token}

theorem length (h : r.Shows c) : r.tokens.length = r.current + (c.ahead.length + 1) := by
  have hlength := congrArg List.length h.ahead
  rw [List.length_drop, List.length_append, List.length_singleton] at hlength
  omega

theorem current_lt (h : r.Shows c) : r.current < r.tokens.length := by
  rw [h.length]
  omega

theorem budget (h : r.Shows c) : r.budget = c.budget := by
  rw [Reader.budget, Reader.left, h.length, Cursor.budget, Nat.add_sub_cancel_left]

theorem next_token (h : r.Shows c) : r.tokens[r.current]? = some c.peek := by
  have hdrop : (r.tokens.drop r.current)[0]? = r.tokens[r.current]? := by
    rw [List.getElem?_drop, Nat.add_zero]
  rw [← hdrop, h.ahead, Cursor.peek]
  cases c.ahead <;> rfl

theorem isAtEnd (h : r.Shows c) : c.peek.kind.isEof = c.isAtEnd := by
  rw [Cursor.peek, Cursor.isAtEnd]
  cases hahead : c.ahead with
  | nil => rw [h.eof]; rfl
  | cons t ts =>
      have hkind := h.notEof t (hahead ▸ List.mem_cons_self)
      cases hk : t.kind <;> first | rfl | exact absurd hk hkind

theorem access (h : r.Shows c) (index : Nat) : (r.access index).Shows c :=
  ⟨h.ahead, h.collected, h.eof, h.notEof⟩

theorem next (h : r.Shows c) (hahead : c.ahead = t :: ts) : r.next.Shows c.advance := by
  refine ⟨?_, h.collected, h.eof, fun u hu => h.notEof u (List.mem_of_mem_tail hu)⟩
  have hdrop : r.tokens.drop (r.current + 1) = (r.tokens.drop r.current).tail := by
    rw [List.tail_drop]
  show r.tokens.drop (r.current + 1) = c.ahead.tail ++ [c.eof]
  rw [hdrop, h.ahead, hahead]
  rfl

theorem collect (h : r.Shows c) (e : ParseError) : (r.collect e).Shows (c.collect e) :=
  ⟨h.ahead, congrArg (· ++ [e]) h.collected, h.eof, h.notEof⟩

theorem start {tokens : List Token} {eof : Token} (heof : eof.kind = .eof)
    (hnotEof : ∀ t ∈ tokens, t.kind ≠ .eof) :
    (Reader.start (tokens ++ [eof])).Shows (.start tokens eof) :=
  ⟨rfl, rfl, heof, hnotEof⟩

end Reader.Shows

/-- The reader shows the cursor, and has just read this token. -/
structure Reader.ShowsAfter (r : Reader) (t : Token) (c : Cursor) : Prop extends r.Shows c where
  last : r.tokens[r.current - 1]? = some t

theorem Reader.ShowsAfter.access {r : Reader} {t : Token} {c : Cursor} (h : r.ShowsAfter t c)
    (index : Nat) : (r.access index).ShowsAfter t c :=
  ⟨h.toShows.access index, h.last⟩

/-! ## Primitive readings -/

/-- A reading that ends with a value, and what holds of the reader then. -/
def Gives {α : Type} (p : Reading α) (r : Reader) (a : α) (post : Reader → Prop) : Prop :=
  ∃ r', p r = .ok a r' ∧ r.MovesTo r' ∧ post r'

section

variable {α β : Type} {p : Reading α} {k : α → Reading β} {r r' : Reader} {c : Cursor} {a : α}
  {b : β} {t : Token} {ts : List Token} {mid post : Reader → Prop} {test : Token.Kind → Bool}

theorem bind_of_ok (h : p r = .ok a r') : (p >>= k) r = k a r' := by
  show EStateM.bind p k r = _
  rw [EStateM.bind, h]

theorem bind_of_error {stop : Stop} (h : p r = .error stop r') :
    (p >>= k) r = .error stop r' := by
  show EStateM.bind p k r = _
  rw [EStateM.bind, h]

theorem gives_pure (h : post r) : Gives (pure a) r a post := ⟨r, rfl, .refl r, h⟩

theorem Gives.bind (hp : Gives p r a mid) (hk : ∀ r', mid r' → Gives (k a) r' b post) :
    Gives (p >>= k) r b post := by
  obtain ⟨r₁, hrun, hmoves, hmid⟩ := hp
  obtain ⟨r₂, hrun₂, hmoves₂, hpost⟩ := hk r₁ hmid
  exact ⟨r₂, (bind_of_ok hrun).trans hrun₂, hmoves.trans hmoves₂, hpost⟩

/-- Looking at a token that is there. -/
theorem gives_fetch {index : Nat} (ht : r.tokens[index]? = some t)
    (h : post (r.access index)) : Gives (fetch index) r t post := by
  refine ⟨r.access index, ?_, .access (List.getElem?_eq_some_iff.1 ht).1, h⟩
  rw [fetch, ht]

theorem gives_peek (h : r.Shows c) (hpost : post (r.access r.current)) :
    Gives peek r c.peek post :=
  gives_fetch h.next_token hpost

theorem gives_isAtEnd (h : r.Shows c) (hpost : post (r.access r.current)) :
    Gives isAtEnd r c.isAtEnd post := by
  rw [← h.isAtEnd]
  exact (gives_peek h rfl).bind fun r₁ (h₁ : r.access r.current = r₁) => gives_pure (h₁ ▸ hpost)

theorem gives_previous (h : r.ShowsAfter t c) : Gives previous r t (·.ShowsAfter t c) :=
  gives_fetch h.last (h.access _)

/-- There is a token before the next one also at the start, where it is the next one itself. -/
theorem exists_gives_previous (h : r.Shows c) : ∃ t, Gives previous r t (·.ShowsAfter t c) := by
  have hlt : r.current - 1 < r.tokens.length := Nat.lt_of_le_of_lt (Nat.sub_le _ _) h.current_lt
  have ht := List.getElem?_eq_getElem hlt
  exact ⟨_, gives_fetch ht ⟨h.access _, ht⟩⟩

theorem gives_advance (h : r.Shows c) (hahead : c.ahead = t :: ts) :
    Gives advance r t (·.ShowsAfter t c.advance) := by
  have hend : c.isAtEnd = false := by rw [Cursor.isAtEnd, hahead]; rfl
  refine (hend ▸ gives_isAtEnd h (h.access _)).bind fun r₁ (h₁ : r₁.Shows c) => ?_
  have hskip : Gives skip r₁ () (·.ShowsAfter t c.advance) := by
    refine ⟨r₁.next, rfl, .next r₁, h₁.next hahead, ?_⟩
    show r₁.tokens[r₁.current]? = some t
    rw [h₁.next_token, Cursor.peek, hahead]
  exact hskip.bind fun r₂ h₂ => gives_previous h₂

/-- At the last token a reader stays where it is. -/
theorem exists_gives_advance_end (h : r.Shows c) (hahead : c.ahead = []) :
    ∃ t, Gives advance r t (·.ShowsAfter t c) := by
  have hend : c.isAtEnd = true := by rw [Cursor.isAtEnd, hahead]; rfl
  have hlook : Gives isAtEnd r true (·.Shows c) := hend ▸ gives_isAtEnd h (h.access _)
  obtain ⟨r₁, hrun, hmoves, h₁⟩ := hlook
  obtain ⟨t, r₂, hrun₂, hmoves₂, h₂⟩ := exists_gives_previous h₁
  exact ⟨t, r₂, (bind_of_ok hrun).trans hrun₂, hmoves.trans hmoves₂, h₂⟩

theorem gives_check (test : Token.Kind → Bool) (h : r.Shows c) :
    Gives (check test) r (c.ahead.head?.any fun t => test t.kind) (·.Shows c) := by
  refine (gives_isAtEnd h (h.access _)).bind fun r₁ (h₁ : r₁.Shows c) => ?_
  rw [Cursor.isAtEnd]
  cases hahead : c.ahead with
  | nil => exact gives_pure h₁
  | cons t ts =>
      have hpeek : c.peek = t := by rw [Cursor.peek, hahead]
      exact (hpeek ▸ gives_peek h₁ (h₁.access _)).bind fun r₂ h₂ => gives_pure h₂

/-- The token that is asked for is next. -/
theorem gives_accept (h : r.Shows c) (hahead : c.ahead = t :: ts) (ht : test t.kind = true) :
    Gives (accept test) r true (·.ShowsAfter t c.advance) := by
  have hcheck := gives_check test h
  rw [hahead, List.head?_cons, Option.any_some, ht] at hcheck
  refine hcheck.bind fun r₁ h₁ => ?_
  exact (gives_advance h₁ hahead).bind fun r₂ h₂ => gives_pure h₂

/-- The token that is asked for is not next. -/
theorem gives_check_false (test : Token.Kind → Bool) (h : r.Shows c)
    (hmissed : c.ahead = [] ∨ test (nextKind c.ahead) = false) :
    Gives (check test) r false (·.Shows c) := by
  have hcheck := gives_check test h
  cases hahead : c.ahead with
  | nil => rwa [hahead] at hcheck
  | cons t ts =>
      rw [hahead] at hmissed hcheck
      have ht : test t.kind = false := hmissed.resolve_left (List.cons_ne_nil _ _)
      rwa [List.head?_cons, Option.any_some, ht] at hcheck

theorem gives_accept_false (test : Token.Kind → Bool) (h : r.Shows c)
    (hmissed : c.ahead = [] ∨ test (nextKind c.ahead) = false) :
    Gives (accept test) r false (·.Shows c) :=
  (gives_check_false test h hmissed).bind fun _ h₁ => gives_pure h₁

theorem gives_acceptToken (h : r.Shows c) (hahead : c.ahead = t :: ts)
    (ht : test t.kind = true) :
    Gives (acceptToken test) r (some t) (·.Shows c.advance) :=
  (gives_accept h hahead ht).bind fun _ h₁ => (gives_previous h₁).bind fun _ h₂ =>
    gives_pure h₂.toShows

theorem gives_acceptToken_none (test : Token.Kind → Bool) (h : r.Shows c)
    (hmissed : c.ahead = [] ∨ test (nextKind c.ahead) = false) :
    Gives (acceptToken test) r none (·.Shows c) :=
  (gives_accept_false test h hmissed).bind fun _ h₁ => gives_pure h₁

end

/-! ## Rules -/

/-- From a reader that shows a cursor, the first parser does what the second one does. -/
def TracksAt {α : Type} (p : Reading α) (q : Parser α) (r : Reader) (c : Cursor) : Prop :=
  match q c with
  | .ok a c' => Gives p r a (·.Shows c')
  | .error (.failed e) c' => ∃ r', p r = .error (.failed e) r' ∧ r.MovesTo r' ∧ r'.Shows c'
  | .error .exhausted _ => ∃ r', p r = .error .exhausted r'

/-- The first parser does what the second one does. -/
def Tracks {α : Type} (p : Reading α) (q : Parser α) : Prop :=
  ∀ r c, r.Shows c → TracksAt p q r c

section

variable {α β : Type} {p : Reading α} {q : Parser α} {k : α → Reading β} {k' : α → Parser β}
  {r : Reader} {c : Cursor} {a : α} {mid : Reader → Prop} {test : Token.Kind → Bool}
  {d : Parser Bool}

theorem TracksAt.of_gives {c' : Cursor} (hq : q c = .ok a c') (hp : Gives p r a (·.Shows c')) :
    TracksAt p q r c := by
  unfold TracksAt
  rw [hq]
  exact hp

/-- Only the runs matter. -/
theorem TracksAt.of_run {p' : Reading α} {q' : Parser α} (hp : p r = p' r) (hq : q c = q' c)
    (h : TracksAt p' q' r c) : TracksAt p q r c := by
  unfold TracksAt Gives at h ⊢
  rwa [hp, hq]

theorem tracks_pure (a : α) : Tracks (pure a) (pure a) := fun r _ h => ⟨r, rfl, .refl r, h⟩

theorem tracks_exhaust : Tracks (exhaust : Reading α) Parser.exhaust := fun r _ _ => ⟨r, rfl⟩

/-- A reading, and then a parser that does what another one does from where it ended. -/
theorem TracksAt.after {q q' : Parser β} {c' : Cursor} (hp : Gives p r a mid) (hq : q c = q' c')
    (hk : ∀ r', mid r' → TracksAt (k a) q' r' c') : TracksAt (p >>= k) q r c := by
  obtain ⟨r₁, hrun, hmoves, hmid⟩ := hp
  have htracks := hk r₁ hmid
  unfold TracksAt at htracks ⊢
  rw [hq]
  cases hresult : q' c' with
  | ok b c₂ =>
      rw [hresult] at htracks
      obtain ⟨r₂, hrun₂, hmoves₂, h₂⟩ := htracks
      exact ⟨r₂, (bind_of_ok hrun).trans hrun₂, hmoves.trans hmoves₂, h₂⟩
  | error e c₂ =>
      rw [hresult] at htracks
      cases e with
      | failed e =>
          obtain ⟨r₂, hrun₂, hmoves₂, h₂⟩ := htracks
          exact ⟨r₂, (bind_of_ok hrun).trans hrun₂, hmoves.trans hmoves₂, h₂⟩
      | exhausted =>
          obtain ⟨r₂, hrun₂⟩ := htracks
          exact ⟨r₂, (bind_of_ok hrun).trans hrun₂⟩

/-- One parser after another. -/
theorem TracksAt.bind (hp : TracksAt p q r c) (hk : ∀ a, Tracks (k a) (k' a)) :
    TracksAt (p >>= k) (q >>= k') r c := by
  have htracks := hp
  unfold TracksAt at hp
  cases hresult : q c with
  | ok a c₁ =>
      rw [hresult] at hp
      exact .after hp (Parser.bind_of_ok hresult) fun r₁ h₁ => hk a r₁ c₁ h₁
  | error e c₁ =>
      rw [hresult] at hp
      unfold TracksAt
      rw [Parser.bind_of_error hresult]
      cases e with
      | failed e =>
          obtain ⟨r₁, hrun, hmoves, h₁⟩ := hp
          exact ⟨r₁, bind_of_error hrun, hmoves, h₁⟩
      | exhausted =>
          obtain ⟨r₁, hrun⟩ := hp
          exact ⟨r₁, bind_of_error hrun⟩

theorem Tracks.bind (hp : Tracks p q) (hk : ∀ a, Tracks (k a) (k' a)) :
    Tracks (p >>= k) (q >>= k') :=
  fun r c h => (hp r c h).bind hk

theorem Tracks.map (hp : Tracks p q) (f : α → β) :
    Tracks (p >>= fun a => pure (f a)) (q >>= fun a => Pure.pure (f a)) :=
  hp.bind fun a => tracks_pure (f a)

/-- A parser that runs with the budget that its tokens call for. -/
theorem Tracks.budgeted {run : Nat → Reading α} {run' : Nat → Parser α}
    (h : ∀ b, Tracks (run b) (run' b)) : Tracks (budgeted run) fun c => run' c.budget c := by
  intro r c hr
  have hrun : Slice.budgeted run r = run c.budget r := by rw [Slice.budgeted, hr.budget]
  exact .of_run hrun rfl (h c.budget r c hr)

/-! ## Primitive parsers -/

theorem tracks_peek : Tracks peek Parser.peek := fun _ _ h => gives_peek h (h.access _)

theorem tracks_report (cause : ParseError.Cause) (token : Token) :
    Tracks (report cause token) (Parser.report cause token) :=
  fun r _ h => ⟨r.collect _, rfl, .collect r _, h.collect _⟩

theorem tracks_isAtEnd : Tracks isAtEnd Parser.atEnd := fun _ _ h => gives_isAtEnd h (h.access _)

/-- A token that is asked for and is not next. -/
theorem TracksAt.fail (cause : ParseError.Cause) (h : r.Shows c) :
    TracksAt (peek >>= Slice.fail cause : Reading α) (Parser.fail cause) r c := by
  obtain ⟨r₁, hrun, hmoves, h₁⟩ := tracks_peek r c h
  exact ⟨r₁, bind_of_ok hrun, hmoves, h₁⟩

/-! ## Choices by the next token -/

/-- A choice by the next token, at a place. If the token is not the one that is asked for, the
cursor stays where it is. -/
theorem TracksAt.choose {yes no : Reading β} {yes' no' : Parser β} (hd : Asks test d)
    (h : r.Shows c) (hyes : ∀ r t ts, c.ahead = t :: ts → test t.kind = true →
      r.Shows c.advance → TracksAt yes yes' r c.advance)
    (hno : ∀ r, r.Shows c → TracksAt no no' r c) :
    TracksAt (accept test >>= fun b => if b = true then yes else no)
      (d >>= fun b => if b = true then yes' else no') r c := by
  rcases Parser.nextKind_cases test c.ahead with ⟨t, ts, hahead, ht⟩ | hmissed
  · exact .after (gives_accept h hahead ht) (hd.finds _ hahead ht) fun r₁ h₁ =>
      hyes r₁ t ts hahead ht h₁.toShows
  · exact .after (gives_accept_false test h hmissed) (hd.misses _ hmissed) fun r₁ h₁ => hno r₁ h₁

/-- A choice by the next token. -/
theorem Tracks.choose {yes no : Reading β} {yes' no' : Parser β} (hd : Asks test d)
    (hyes : Tracks yes yes') (hno : Tracks no no') :
    Tracks (accept test >>= fun b => if b = true then yes else no)
      (d >>= fun b => if b = true then yes' else no') :=
  fun _ c h => .choose hd h (fun r _ _ _ _ h₁ => hyes r c.advance h₁) fun r h₁ => hno r c h₁

/-- A choice by the next token, which is read for its own sake. -/
theorem TracksAt.chooseToken {k : Option Token → Reading β} {k' : Bool → Parser β}
    (hd : Asks test d) (h : r.Shows c) (hyes : ∀ r t ts, c.ahead = t :: ts →
      test t.kind = true → r.Shows c.advance → TracksAt (k (some t)) (k' true) r c.advance)
    (hno : ∀ r, r.Shows c → TracksAt (k none) (k' false) r c) :
    TracksAt (acceptToken test >>= k) (d >>= k') r c := by
  rcases Parser.nextKind_cases test c.ahead with ⟨t, ts, hahead, ht⟩ | hmissed
  · exact .after (gives_acceptToken h hahead ht) (hd.finds _ hahead ht) fun r₁ h₁ =>
      hyes r₁ t ts hahead ht h₁
  · exact .after (gives_acceptToken_none test h hmissed) (hd.misses _ hmissed)
      fun r₁ h₁ => hno r₁ h₁

/-! ## Recovery -/

theorem gives_skipWithin {b : Nat} {last : Token} (h : r.ShowsAfter last c)
    (hb : c.ahead.length < b) :
    Gives (skipWithin b) r ()
      (·.Shows { c with ahead := Cursor.skipToStatement last c.ahead }) := by
  induction b generalizing r c last with
  | zero => exact absurd hb (Nat.not_lt_zero _)
  | succ b ih =>
      rw [skipWithin]
      refine (gives_isAtEnd h.toShows (h.access _)).bind fun r₁ (h₁ : r₁.ShowsAfter last c) => ?_
      obtain ⟨ahead, eof, collected⟩ := c
      cases ahead with
      | nil => exact gives_pure h₁.toShows
      | cons t ts =>
          refine (gives_previous h₁).bind fun r₂ h₂ => ?_
          rw [Cursor.skipToStatement]
          split
          · exact gives_pure h₂.toShows
          · refine (gives_peek h₂.toShows (h₂.access _)).bind fun r₃ (h₃ : r₃.ShowsAfter last _) => ?_
            show Gives (if Cursor.startsStatement t.kind then _ else _) _ _ _
            split
            · exact gives_pure h₃.toShows
            · refine (gives_advance h₃.toShows rfl).bind fun r₄ h₄ => ?_
              exact ih h₄ (Nat.lt_of_succ_lt_succ hb)

/-- Skipping ends, and goes as far as the cursor does. -/
theorem gives_synchronize (h : r.Shows c) : Gives synchronize r () (·.Shows c.synchronize) := by
  have hskip : ∀ {r' : Reader} {c' : Cursor} {t : Token}, r'.ShowsAfter t c' →
      Gives (budgeted skipWithin) r' ()
        (·.Shows { c' with ahead := Cursor.skipToStatement t c'.ahead }) := by
    intro r' c' t h'
    have hlt : c'.ahead.length < r'.budget := by
      rw [h'.budget, Cursor.budget]
      omega
    exact gives_skipWithin h' hlt
  obtain ⟨ahead, eof, collected⟩ := c
  cases ahead with
  | nil =>
      obtain ⟨t, hadvance⟩ := exists_gives_advance_end h rfl
      exact hadvance.bind fun r₁ h₁ => hskip h₁
  | cons t ts => exact (gives_advance h rfl).bind fun r₁ h₁ => hskip h₁

theorem Tracks.recovering (hp : Tracks p q) : Tracks (recovering p) (Parser.recovering q) := by
  intro r c h
  have htracks := hp r c h
  unfold TracksAt Gives at htracks ⊢
  unfold Slice.recovering Parser.recovering
  cases hresult : q c with
  | ok a c₁ =>
      rw [hresult] at htracks
      obtain ⟨r₁, hrun, hmoves, h₁⟩ := htracks
      exact ⟨r₁, by rw [hrun], hmoves, h₁⟩
  | error e c₁ =>
      rw [hresult] at htracks
      cases e with
      | failed e =>
          obtain ⟨r₁, hrun, hmoves, h₁⟩ := htracks
          obtain ⟨r₂, hrun₂, hmoves₂, h₂⟩ := gives_synchronize (h₁.collect e)
          refine ⟨r₂, by rw [hrun]; simp only [hrun₂], ?_, h₂⟩
          exact (hmoves.trans (.collect r₁ e)).trans hmoves₂
      | exhausted =>
          obtain ⟨r₁, hrun⟩ := htracks
          exact ⟨r₁, by rw [hrun]⟩

end

end Lox.Slice
