import Lox.Proofs.Parsing.FirstError
import Lox.Proofs.Renumbering.Same
import Lox.Proofs.Renumbering.Statement

set_option autoImplicit false

/-! # Lines

A line is what a statement without blocks is written on: tokens up to the first semicolon, with no
brace and no `for` before it (`IsLine`). Whatever stands on a line, the parser does not read past
the semicolon, and recovery stops there or before. So more tokens after the line change nothing, as
long as they do not go on with an `else` (`Parser.lined_declaration`).

`Lined rest before after p p'` compares a run of `p` on the rest of a line with one of `p'` where
the tokens `rest` come after the line. Both give the same or fail in the same way, errors that are
noted included.
-/

namespace Lox

/-- A token that may stand before the semicolon of a line. -/
def Token.Kind.IsInner (k : Token.Kind) : Prop :=
  k ≠ .mark .semicolon ∧ k ≠ .mark .leftBrace ∧ k ≠ .mark .rightBrace ∧ k ≠ .keyword .forWord

/-- The tokens have no brace and no `for`, and one semicolon, which is the last of them. -/
inductive IsLine : List Token → Prop
  | last {t : Token} (h : t.kind = .mark .semicolon) : IsLine [t]
  | inner {t : Token} {ts : List Token} (h : t.kind.IsInner) (hrest : IsLine ts) : IsLine (t :: ts)

/-- A line is other tokens and then a semicolon. -/
theorem isLine_iff {ts : List Token} :
    IsLine ts ↔ ∃ inner t, ts = inner ++ [t] ∧ t.kind = .mark .semicolon ∧
      ∀ u ∈ inner, u.kind.IsInner := by
  constructor
  · intro h
    induction h with
    | last h => exact ⟨[], _, rfl, h, nofun⟩
    | @inner u _ hu _ ih =>
        obtain ⟨inner, t, rfl, ht, hinner⟩ := ih
        exact ⟨u :: inner, t, rfl, ht, List.forall_mem_cons.2 ⟨hu, hinner⟩⟩
  · rintro ⟨inner, t, rfl, ht, hinner⟩
    induction inner with
    | nil => exact .last ht
    | cons u inner ih =>
        obtain ⟨hu, hinner⟩ := List.forall_mem_cons.1 hinner
        exact .inner hu (ih hinner)

namespace IsLine

variable {t : Token} {ts us : List Token}

theorem ne_nil (h : IsLine ts) : ts ≠ [] := by
  cases h <;> exact List.cons_ne_nil _ _

/-- After a token that is not the semicolon, the line goes on. -/
theorem of_cons (h : IsLine (t :: ts)) (ht : t.kind ≠ .mark .semicolon) : IsLine ts := by
  cases h with
  | last hlast => exact absurd hlast ht
  | inner _ hrest => exact hrest

/-- After tokens without a semicolon, the line goes on. -/
theorem of_append (h : IsLine (ts ++ us)) (hts : ∀ t ∈ ts, t.kind ≠ .mark .semicolon) :
    IsLine us := by
  induction ts with
  | nil => exact h
  | cons t ts ih =>
      have hrest := h.of_cons (hts t List.mem_cons_self)
      exact ih hrest fun u hu => hts u (List.mem_cons_of_mem t hu)

theorem kind_ne (h : IsLine (t :: ts)) :
    t.kind ≠ .mark .leftBrace ∧ t.kind ≠ .mark .rightBrace ∧ t.kind ≠ .keyword .forWord := by
  cases h with
  | last hlast =>
      rw [hlast]
      exact ⟨nofun, nofun, nofun⟩
  | inner hinner _ => exact hinner.2

/-- Recovery stops on the line or at its end. -/
theorem skipToStatement (h : IsLine (t :: ts)) (rest : List Token) :
    Cursor.skipToStatement t (ts ++ rest) = Cursor.skipToStatement t ts ++ rest ∧
      (Cursor.skipToStatement t ts = [] ∨ IsLine (Cursor.skipToStatement t ts)) := by
  induction ts generalizing t with
  | nil =>
      cases h with
      | last hlast =>
          refine ⟨?_, .inl rfl⟩
          -- The semicolon was skipped, so recovery stops at whatever comes next.
          cases rest with
          | nil => rfl
          | cons u us =>
              have hmark : t.kind.isMark .semicolon = true := Token.Kind.isMark_iff.2 hlast
              show Cursor.skipToStatement t (u :: us) = u :: us
              rw [Cursor.skipToStatement, if_pos hmark]
      | inner _ hrest => exact absurd rfl hrest.ne_nil
  | cons u us ih =>
      cases h with
      | inner hinner hrest =>
          have hmark : ¬ t.kind.isMark .semicolon = true :=
            fun hmark => hinner.1 (Token.Kind.isMark_iff.1 hmark)
          rw [List.cons_append, Cursor.skipToStatement, Cursor.skipToStatement, if_neg hmark,
            if_neg hmark]
          by_cases hstarts : Cursor.startsStatement u.kind = true
          · rw [if_pos hstarts, if_pos hstarts]
            exact ⟨rfl, .inr hrest⟩
          · rw [if_neg hstarts, if_neg hstarts]
            exact ih hrest

end IsLine

namespace Cursor

/-- A rest of a line is ahead. -/
structure OnLine (c : Cursor) : Prop where
  eof : c.eof.kind = .eof
  ahead : IsLine c.ahead

/-- The line was read. -/
structure AtLineEnd (c : Cursor) : Prop where
  eof : c.eof.kind = .eof
  ahead : c.ahead = []

variable {c c' c₁ : Cursor} {t : Token} {ts rest : List Token} {es : List ParseError}

theorem OnLine.exists_cons (h : c.OnLine) : ∃ t ts, c.ahead = t :: ts :=
  List.exists_cons_of_ne_nil h.ahead.ne_nil

theorem OnLine.reach (h : c.OnLine) (hreach : c.Reaches ts es c₁)
    (hts : ∀ t ∈ ts, t.kind ≠ .mark .semicolon) : c₁.OnLine := by
  refine ⟨hreach.eof_kind h.eof, ?_⟩
  have hahead := h.ahead
  rw [hreach.ahead] at hahead
  exact hahead.of_append hts

/-- After a token that is not the semicolon. -/
theorem OnLine.advance (h : c.OnLine) (hahead : c.ahead = t :: ts)
    (ht : t.kind ≠ .mark .semicolon) : c.advance.OnLine := by
  refine h.reach (Parser.reaches_advance hahead) fun u hu => ?_
  rw [List.mem_singleton.1 hu]
  exact ht

/-- After the semicolon. -/
theorem OnLine.atLineEnd (h : c.OnLine) (hahead : c.ahead = t :: ts)
    (ht : t.kind = .mark .semicolon) : c.advance.AtLineEnd := by
  refine ⟨h.eof, ?_⟩
  have hline := h.ahead
  show c.ahead.tail = []
  rw [hahead] at hline ⊢
  cases hline with
  | last _ => rfl
  | inner hinner _ => exact absurd ht hinner.1

/-- Recovery goes to the same place on the line, or to its end. -/
theorem OnLine.synchronize (h : c.OnLine) (hc : c.Continued .same (some rest) c') :
    (c.synchronize.OnLine ∨ c.synchronize.AtLineEnd) ∧
      c.synchronize.Continued .same (some rest) c'.synchronize := by
  obtain ⟨t, ts, hahead⟩ := h.exists_cons
  have hahead' : c'.ahead = t :: (ts ++ rest) := by
    rw [hc.ahead, hahead, Token.map_renumber_same]
    rfl
  have hsync : c.synchronize = { c with ahead := skipToStatement t ts } := by
    rw [Cursor.synchronize, hahead]
  have hsync' : c'.synchronize = { c' with ahead := skipToStatement t (ts ++ rest) } := by
    rw [Cursor.synchronize, hahead']
  have hline := h.ahead
  rw [hahead] at hline
  obtain ⟨hskip, hends⟩ := hline.skipToStatement rest
  rw [hsync, hsync']
  constructor
  · rcases hends with hnil | hline
    · exact .inr ⟨h.eof, hnil⟩
    · exact .inl ⟨h.eof, hline⟩
  · refine ⟨?_, by rintro ⟨⟩, hc.collected⟩
    rw [Token.map_renumber_same]
    exact hskip

end Cursor

namespace Parser

/-- Runs on a line, and on the same line with `rest` after it, come to the same. -/
structure Lined (rest : List Token) (before after : Cursor → Prop) {α : Type}
    (p p' : Parser α) : Prop where
  gives : ∀ {c a c₁ c'}, before c → p c = .ok a c₁ → c.Continued .same (some rest) c' →
    after c₁ ∧ ∃ c₁', p' c' = .ok a c₁' ∧ c₁.Continued .same (some rest) c₁'
  fails : ∀ {c e c₁ c'}, before c → p c = .error (.failed e) c₁ →
    c.Continued .same (some rest) c' →
    c₁.OnLine ∧ ∃ c₁', p' c' = .error (.failed e) c₁' ∧ c₁.Continued .same (some rest) c₁'

variable {rest : List Token} {before middle after : Cursor → Prop} {α β : Type}
  {p p' : Parser α} {q q' : α → Parser β}

/-! ## Rules -/

theorem Lined.pure (a : α) : Lined rest before before (pure a) (Pure.pure a) where
  gives := by
    rintro c _ _ c' hc ⟨⟩ hcontinued
    exact ⟨hc, c', rfl, hcontinued⟩
  fails := by
    rintro c _ _ c' _ ⟨⟩

theorem Lined.exhaust : Lined rest before after exhaust p' where
  gives := by
    rintro c _ _ c' _ ⟨⟩
  fails := by
    rintro c _ _ c' _ ⟨⟩

/-- There is no run from nowhere. -/
theorem Lined.nowhere : Lined rest (fun _ => False) after p p' where
  gives h := h.elim
  fails h := h.elim

/-- One parser after another. -/
theorem Lined.bind (hp : Lined rest before middle p p')
    (hq : ∀ a, Lined rest middle after (q a) (q' a)) :
    Lined rest before after (p >>= q) (p' >>= q') where
  gives hc h hcontinued := by
    obtain ⟨a, c₁, hpc, hqc⟩ := ok_of_bind h
    obtain ⟨hc₁, c₁', hp', hcontinued₁⟩ := hp.gives hc hpc hcontinued
    obtain ⟨hc₂, c₂', hq', hcontinued₂⟩ := (hq a).gives hc₁ hqc hcontinued₁
    exact ⟨hc₂, c₂', (bind_of_ok hp').trans hq', hcontinued₂⟩
  fails hc h hcontinued := by
    rcases error_of_bind h with hpc | ⟨a, c₁, hpc, hqc⟩
    · obtain ⟨hc₁, c₁', hp', hcontinued₁⟩ := hp.fails hc hpc hcontinued
      exact ⟨hc₁, c₁', bind_of_error hp', hcontinued₁⟩
    · obtain ⟨hc₁, c₁', hp', hcontinued₁⟩ := hp.gives hc hpc hcontinued
      obtain ⟨hc₂, c₂', hq', hcontinued₂⟩ := (hq a).fails hc₁ hqc hcontinued₁
      exact ⟨hc₂, c₂', (bind_of_ok hp').trans hq', hcontinued₂⟩

theorem Lined.map (hp : Lined rest before after p p') (f : α → β) :
    Lined rest before after (p >>= fun a => Pure.pure (f a)) (p' >>= fun a => Pure.pure (f a)) :=
  hp.bind fun a => .pure (f a)

/-- A parser that runs with the budget that its tokens call for. -/
theorem Lined.budgeted (run run' : Nat → Parser α)
    (h : ∀ b k, Lined rest before after (run b) (run' (b + k))) :
    Lined rest before after (fun c => run c.budget c) (fun c => run' c.budget c) where
  gives {c _ _ c'} hc hp hcontinued := by
    obtain ⟨k, hk⟩ := Nat.exists_eq_add_of_le hcontinued.budget_le
    show _ ∧ ∃ c₁', run' c'.budget c' = _ ∧ _
    rw [hk]
    exact (h c.budget k).gives hc hp hcontinued
  fails {c _ _ c'} hc hp hcontinued := by
    obtain ⟨k, hk⟩ := Nat.exists_eq_add_of_le hcontinued.budget_le
    show _ ∧ ∃ c₁', run' c'.budget c' = _ ∧ _
    rw [hk]
    exact (h c.budget k).fails hc hp hcontinued

/-! ## Parsers that stay on a line -/

/-- No semicolon was read. -/
def NoSemicolon (ts : List Token) (_ : Token) : Prop := ∀ t ∈ ts, t.kind ≠ .mark .semicolon

theorem NoSemicolon.nil {t : Token} : NoSemicolon [] t := nofun

theorem NoSemicolon.cons {t u : Token} {ts : List Token} (ht : t.kind ≠ .mark .semicolon)
    (hts : NoSemicolon ts u) : NoSemicolon ([t] ++ ts) u := by
  intro v hv
  rcases List.mem_cons.1 hv with rfl | hv
  · exact ht
  · exact hts v hv

/-- A parser that reads no semicolon stays on the line, so it does not see what comes after. -/
theorem Lined.of_follows {f : α → α} (hf : Follows .same (some rest) .looks f p p')
    (hid : ∀ a, f a = a)
    (hhalts : ∀ c : Cursor, c.eof.kind = .eof → p.Halts c NoSemicolon NoSemicolon) :
    Lined rest Cursor.OnLine Cursor.OnLine p p' where
  gives {c a c₁ c'} hc hp hcontinued := by
    have hrun := hhalts c hc.eof
    unfold Halts at hrun
    rw [hp] at hrun
    obtain ⟨read, noted, hreach, hread⟩ := hrun
    have hc₁ := hc.reach hreach hread
    obtain ⟨c₁', hp', hcontinued₁⟩ := hf.gives hp hcontinued (.inr (.inl hc₁.ahead.ne_nil))
    rw [hid] at hp'
    exact ⟨hc₁, c₁', hp', hcontinued₁⟩
  fails {c e c₁ c'} hc hp hcontinued := by
    have hrun := hhalts c hc.eof
    unfold Halts at hrun
    rw [hp] at hrun
    obtain ⟨-, read, noted, hreach, hread⟩ := hrun
    have hc₁ := hc.reach hreach hread
    exact ⟨hc₁, hf.fails hp hcontinued (.inr (.inl hc₁.ahead.ne_nil))⟩

theorem lined_peek : Lined rest Cursor.OnLine Cursor.OnLine peek peek :=
  .of_follows follows_peek Token.renumber_same fun c _ => ⟨[], [], .refl c, .nil⟩

theorem lined_expression : Lined rest Cursor.OnLine Cursor.OnLine expression expression := by
  refine .of_follows follows_expression Expr.renumber_same fun c hc => ?_
  have hhalts : expression.Halts c _ _ :=
    .budgeted expressionWithin ((expressionHalts c.budget).expression c hc)
  refine hhalts.mono ?_ ?_
  · intro ts t ⟨hts, _⟩
    have hleads : Grammar.Leads ts := Grammar.leadsFrom_of_relaxed hts
    exact Grammar.Outlook.forall_ne_semicolon_of_run (hleads [])
  · intro ts t ⟨⟨more, hmore⟩, _⟩ u hu
    have hleads : Grammar.Leads (ts ++ more) := Grammar.leadsFrom_of_relaxed hmore
    exact Grammar.Outlook.forall_ne_semicolon_of_run (hleads []) u (List.mem_append_left _ hu)

theorem halts_expectMark {c : Cursor} {m : Mark} (hm : m ≠ .semicolon)
    (cause : ParseError.Cause) (hc : c.eof.kind = .eof) :
    (expectMark m cause).Halts c NoSemicolon NoSemicolon := by
  have hbind : (expectMark m cause >>= Pure.pure).Halts c NoSemicolon NoSemicolon := by
    refine .expectMark hc (fun t c₁ _ ht => .pure (.cons ?_ .nil)) fun _ => .nil
    rw [ht]
    exact fun hmark => hm (Token.Kind.mark.inj hmark)
  rwa [bind_pure] at hbind

theorem lined_expectMark (m : Mark) (hm : m ≠ .semicolon) (cause : ParseError.Cause) :
    Lined rest Cursor.OnLine Cursor.OnLine (expectMark m cause) (expectMark m cause) :=
  .of_follows (follows_expectMark m cause).looks Token.renumber_same
    fun _ hc => halts_expectMark hm cause hc

theorem halts_expectName {c : Cursor} (cause : ParseError.Cause) (hc : c.eof.kind = .eof) :
    (expectName cause).Halts c NoSemicolon NoSemicolon := by
  have hbind : (expectName cause >>= Pure.pure).Halts c NoSemicolon NoSemicolon := by
    refine .expectName hc (fun t c₁ _ ht => .pure (.cons ?_ .nil)) fun _ => .nil
    rw [ht]
    exact nofun
  rwa [bind_pure] at hbind

theorem lined_expectName (cause : ParseError.Cause) :
    Lined rest Cursor.OnLine Cursor.OnLine (expectName cause) (expectName cause) :=
  .of_follows (follows_expectName cause).looks Name.renumber_same
    fun _ hc => halts_expectName cause hc

theorem halts_parameterList {b count : Nat} {c : Cursor} (hc : c.eof.kind = .eof) :
    (parameterListWithin b count).Halts c NoSemicolon NoSemicolon := by
  induction b generalizing count c with
  | zero => exact .exhaust
  | succ b ih =>
      have hlist : ∀ c : Cursor, c.eof.kind = .eof →
          (do
            let parameter ← expectName .parameterName
            if ← acceptMark .comma then
              let parameters ← parameterListWithin b (count + 1)
              pure (parameter :: parameters)
            else
              pure [parameter] : Parser (List Name)).Halts c NoSemicolon NoSemicolon := by
        intro c hc
        refine .expectName hc (fun t c₁ hreach ht => ?_) fun _ => .nil
        have hc₁ := hreach.eof_kind hc
        have hname : t.kind ≠ .mark .semicolon := by
          rw [ht]
          exact nofun
        refine .byMark hc₁ (fun comma c₂ hreach₂ _ hcomma => ?_)
          fun _ => .pure (.cons hname .nil)
        have hmark : comma.kind ≠ .mark .semicolon := by
          rw [hcomma]
          exact nofun
        have hnext : (parameterListWithin b (count + 1)).Halts c₂ NoSemicolon NoSemicolon :=
          ih (hreach₂.eof_kind hc₁)
        have hmore := hnext.mono (fun _ _ hus => NoSemicolon.cons hname (.cons hmark hus))
          fun _ _ hus => NoSemicolon.cons hname (.cons hmark hus)
        refine .bind hmore fun parameters c₃ ts es _ hts => .pure ?_
        rwa [List.append_nil]
      rw [parameterListWithin]
      split
      · exact .peek (.report fun c₁ es hreach _ => hlist c₁ (hreach.eof_kind hc))
      · exact hlist c hc

theorem lined_parameters : Lined rest Cursor.OnLine Cursor.OnLine parameters parameters := by
  refine .of_follows follows_parameters (fun ns => Name.map_renumber_same ns) fun c hc => ?_
  rw [parameters]
  refine .checkMark hc (fun _ => .pure .nil) fun _ => ?_
  exact .budgeted (parameterListWithin · 0) (halts_parameterList hc)

theorem lined_superclassClause :
    Lined rest Cursor.OnLine Cursor.OnLine superclassClause superclassClause := by
  refine .of_follows follows_superclassClause Name.optionMap_renumber_same fun c hc => ?_
  rw [superclassClause]
  refine .byMark hc (fun less c₁ hreach _ hless => ?_) fun _ => .pure .nil
  have hmark : less.kind ≠ .mark .semicolon := by
    rw [hless]
    rintro ⟨⟩
  refine .bind ((halts_expectName _ (hreach.eof_kind hc)).mono (fun _ _ => id) fun _ _ hus =>
    .cons hmark hus) fun name c₂ ts es _ hts => .pure ?_
  rw [List.append_nil]
  exact .cons hmark hts

/-! ## The end of a line -/

theorem lined_expectSemicolon (cause : ParseError.Cause) :
    Lined rest Cursor.OnLine Cursor.AtLineEnd (expectMark .semicolon cause)
      (expectMark .semicolon cause) where
  gives {c a c₁ c'} hc hp hcontinued := by
    have hne : c.ahead ≠ [] := hc.ahead.ne_nil
    have hpeek : c'.peek = c.peek := hcontinued.peek (.inr hne)
    have hmark := hcontinued.isAtMark (.inr hne) .semicolon
    unfold expectMark at hp ⊢
    split at hp
    · rename_i hsemicolon
      cases hp
      obtain ⟨u, us, hahead', hu⟩ := isAtMark_iff.1 hsemicolon
      refine ⟨hc.atLineEnd hahead' hu, c'.advance, ?_, hcontinued.advance (.inr hne)⟩
      rw [hmark, if_pos hsemicolon, hpeek]
    · cases hp
  fails {c e c₁ c'} hc hp hcontinued := by
    have hne : c.ahead ≠ [] := hc.ahead.ne_nil
    have hpeek : c'.peek = c.peek := hcontinued.peek (.inr hne)
    have hmark := hcontinued.isAtMark (.inr hne) .semicolon
    unfold expectMark at hp ⊢
    split at hp
    · cases hp
    · rename_i hsemicolon
      cases hp
      refine ⟨hc, c', ?_, hcontinued⟩
      rw [hmark, if_neg hsemicolon, hpeek]

/-- There is no brace on a line. -/
theorem lined_expectBrace (cause : ParseError.Cause) :
    Lined rest Cursor.OnLine (fun _ => False) (expectMark .leftBrace cause)
      (expectMark .leftBrace cause) where
  gives {c a c₁ c'} hc hp _ := by
    exfalso
    unfold expectMark at hp
    split at hp
    · rename_i hbrace
      obtain ⟨t, ts, hahead, ht⟩ := isAtMark_iff.1 hbrace
      have hline := hc.ahead
      rw [hahead] at hline
      exact hline.kind_ne.1 ht
    · cases hp
  fails hc hp hcontinued := (lined_expectMark .leftBrace nofun cause).fails hc hp hcontinued

/-! ## Choices by the next token -/

section Choice

variable {test : Token.Kind → Bool} {d : Parser Bool} {yes yes' no no' : Parser β}

/-- A choice on a line: where it is read, the token asked for leads to `middle`. -/
theorem Lined.choose (hd : Asks test d)
    (hmiddle : ∀ {c : Cursor} {t ts}, c.OnLine → c.ahead = t :: ts → test t.kind = true →
      middle c.advance)
    (hyes : Lined rest middle after yes yes') (hno : Lined rest Cursor.OnLine after no no') :
    Lined rest Cursor.OnLine after (d >>= fun b => if b = true then yes else no)
      (d >>= fun b => if b = true then yes' else no') where
  gives {c a c₁ c'} hc h hcontinued := by
    rcases nextKind_cases test c.ahead with ⟨t, ts, hahead, ht⟩ | hmissed
    · obtain ⟨hfinds, hadvance⟩ :=
        hd.finds' (fun b => if b = true then yes' else no') hcontinued hahead ht
      rw [hd.finds _ hahead ht] at h
      rw [hfinds]
      exact hyes.gives (hmiddle hc hahead ht) h hadvance
    · rw [hd.misses _ hmissed] at h
      rw [hd.misses' _ hcontinued hmissed (.inl (.inr hc.ahead.ne_nil))]
      exact hno.gives hc h hcontinued
  fails {c e c₁ c'} hc h hcontinued := by
    rcases nextKind_cases test c.ahead with ⟨t, ts, hahead, ht⟩ | hmissed
    · obtain ⟨hfinds, hadvance⟩ :=
        hd.finds' (fun b => if b = true then yes' else no') hcontinued hahead ht
      rw [hd.finds _ hahead ht] at h
      rw [hfinds]
      exact hyes.fails (hmiddle hc hahead ht) h hadvance
    · rw [hd.misses _ hmissed] at h
      rw [hd.misses' _ hcontinued hmissed (.inl (.inr hc.ahead.ne_nil))]
      exact hno.fails hc h hcontinued

/-- A choice by a token that a line goes on after. -/
theorem Lined.chooseInner (hd : Asks test d) (htest : test (.mark .semicolon) = false)
    (hyes : Lined rest Cursor.OnLine after yes yes')
    (hno : Lined rest Cursor.OnLine after no no') :
    Lined rest Cursor.OnLine after (d >>= fun b => if b = true then yes else no)
      (d >>= fun b => if b = true then yes' else no') := by
  refine .choose hd (fun {c t ts} hc hahead ht => hc.advance hahead fun hsemicolon => ?_) hyes hno
  rw [hsemicolon, htest] at ht
  cases ht

/-- A choice by a token that is on no line. -/
theorem Lined.chooseNever (hd : Asks test d)
    (htest : ∀ {t : Token} {ts : List Token}, IsLine (t :: ts) → test t.kind = false)
    (hno : Lined rest Cursor.OnLine after no no') :
    Lined rest Cursor.OnLine after (d >>= fun b => if b = true then yes else no)
      (d >>= fun b => if b = true then yes' else no') := by
  have hnever : ∀ {c : Cursor} {t ts}, c.OnLine → c.ahead = t :: ts → test t.kind = true →
      False := by
    intro c t ts hc hahead ht
    have hline := hc.ahead
    rw [hahead] at hline
    rw [htest hline] at ht
    cases ht
  exact .choose hd hnever .nowhere hno

/-- A choice at the end of a line, by a token that does not come after it. -/
theorem Lined.chooseAtEnd (hd : Asks test d) (hrest : test (nextKind rest) = false)
    (hno : Lined rest Cursor.AtLineEnd after no no') :
    Lined rest Cursor.AtLineEnd after (d >>= fun b => if b = true then yes else no)
      (d >>= fun b => if b = true then yes' else no') where
  gives {c a c₁ c'} hc h hcontinued := by
    rw [hd.misses _ (.inl hc.ahead)] at h
    rw [hd.misses' _ hcontinued (.inl hc.ahead) (.inr hrest)]
    exact hno.gives hc h hcontinued
  fails {c e c₁ c'} hc h hcontinued := by
    rw [hd.misses _ (.inl hc.ahead)] at h
    rw [hd.misses' _ hcontinued (.inl hc.ahead) (.inr hrest)]
    exact hno.fails hc h hcontinued

end Choice

/-! ## Statements on a line -/

theorem lined_variableDeclaration :
    Lined rest Cursor.OnLine Cursor.AtLineEnd variableDeclaration variableDeclaration := by
  rw [variableDeclaration]
  refine (lined_expectName _).bind fun name => ?_
  refine .chooseInner (asks_acceptMark .equal) rfl ?_ ((lined_expectSemicolon _).map _)
  exact lined_expression.bind fun e => (lined_expectSemicolon _).map _

theorem lined_expressionStatement :
    Lined rest Cursor.OnLine Cursor.AtLineEnd expressionStatement expressionStatement := by
  rw [expressionStatement]
  exact lined_expression.bind fun e => (lined_expectSemicolon _).map _

theorem lined_printStatement :
    Lined rest Cursor.OnLine Cursor.AtLineEnd printStatement printStatement := by
  rw [printStatement]
  exact lined_expression.bind fun e => (lined_expectSemicolon _).map _

theorem lined_returnStatement (keyword : Name) :
    Lined rest Cursor.OnLine Cursor.AtLineEnd (returnStatement keyword)
      (returnStatement keyword) := by
  rw [returnStatement]
  refine .choose (asks_acceptMark .semicolon) (fun {c t ts} hc hahead ht => ?_) (.pure _) ?_
  · exact hc.atLineEnd hahead (Token.Kind.isMark_iff.1 ht)
  · exact lined_expression.bind fun e => (lined_expectSemicolon _).map _

theorem lined_statement (hrest : nextKind rest ≠ .keyword .elseWord) (b k : Nat) :
    Lined rest Cursor.OnLine Cursor.AtLineEnd (statementWithin b) (statementWithin (b + k)) := by
  induction b with
  | zero => exact .exhaust
  | succ b ih =>
      rw [Nat.add_right_comm, statementWithin, statementWithin]
      refine lined_peek.bind fun token => ?_
      -- The clauses of a `for` have semicolons, so a line could end within them.
      refine .chooseNever (asks_acceptKeyword .forWord) (fun hline => ?_) ?_
      · exact Bool.eq_false_iff.2 fun h => hline.kind_ne.2.2 (Token.Kind.isKeyword_iff.1 h)
      refine .chooseInner (asks_acceptKeyword .ifWord) rfl ?_ ?_
      · refine (lined_expectMark .leftParen (by decide) _).bind fun _ =>
          lined_expression.bind fun condition =>
            (lined_expectMark .rightParen (by decide) _).bind fun _ => ih.bind fun yes => ?_
        -- The line is read, and an `else` could only come after it.
        refine .chooseAtEnd (asks_acceptKeyword .elseWord) ?_ (.pure _)
        exact Bool.eq_false_iff.2 fun h => hrest (Token.Kind.isKeyword_iff.1 h)
      refine .chooseInner (asks_acceptKeyword .printWord) rfl lined_printStatement ?_
      refine .chooseInner (asks_acceptKeyword .returnWord) rfl (lined_returnStatement _) ?_
      refine .chooseInner (asks_acceptKeyword .whileWord) rfl ?_ ?_
      · exact (lined_expectMark .leftParen (by decide) _).bind fun _ =>
          lined_expression.bind fun condition =>
            (lined_expectMark .rightParen (by decide) _).bind fun _ => ih.map _
      refine .chooseNever (asks_acceptMark .leftBrace) (fun hline => ?_) lined_expressionStatement
      exact Bool.eq_false_iff.2 fun h => hline.kind_ne.1 (Token.Kind.isMark_iff.1 h)

/-- A class fails on a line, at its body if not before. -/
theorem lined_class (b k : Nat) :
    Lined rest Cursor.OnLine Cursor.AtLineEnd (classWithin b) (classWithin (b + k)) := by
  cases b with
  | zero => exact .exhaust
  | succ b =>
      rw [Nat.add_right_comm, classWithin, classWithin]
      exact (lined_expectName _).bind fun name => lined_superclassClause.bind fun superclass =>
        (lined_expectBrace _).bind fun _ => .nowhere

/-- And so does a function. -/
theorem lined_function (kind : FunctionKind) (b k : Nat) :
    Lined rest Cursor.OnLine Cursor.AtLineEnd (functionWithin b kind)
      (functionWithin (b + k) kind) := by
  cases b with
  | zero => exact .exhaust
  | succ b =>
      rw [Nat.add_right_comm, functionWithin, functionWithin]
      exact (lined_expectName _).bind fun name =>
        (lined_expectMark .leftParen (by decide) _).bind fun _ => lined_parameters.bind fun parameters =>
          (lined_expectMark .rightParen (by decide) _).bind fun _ =>
            (lined_expectBrace _).bind fun _ => .nowhere

theorem lined_declarationOrFail (hrest : nextKind rest ≠ .keyword .elseWord) (b k : Nat) :
    Lined rest Cursor.OnLine Cursor.AtLineEnd (declarationOrFail b)
      (declarationOrFail (b + k)) := by
  cases b with
  | zero => exact .exhaust
  | succ b =>
      rw [Nat.add_right_comm, declarationOrFail, declarationOrFail]
      refine .chooseInner (asks_acceptKeyword .classWord) rfl (lined_class b k) ?_
      refine .chooseInner (asks_acceptKeyword .funWord) rfl ((lined_function _ b k).map _) ?_
      exact .chooseInner (asks_acceptKeyword .varWord) rfl lined_variableDeclaration
        (lined_statement hrest b k)

/-- Recovery stays on the line, or goes to its end. -/
theorem Lined.recovering (h : Lined rest Cursor.OnLine Cursor.AtLineEnd p p') :
    Lined rest Cursor.OnLine (fun c => c.OnLine ∨ c.AtLineEnd) (recovering p)
      (recovering p') where
  gives {c o c₁ c'} hc hp hcontinued := by
    rcases recovering_cases hp with ⟨a, hpc, rfl⟩ | ⟨e, c₂, hpc, rfl, rfl⟩
    · obtain ⟨hc₁, c₁', hp', hcontinued₁⟩ := h.gives hc hpc hcontinued
      refine ⟨.inr hc₁, c₁', ?_, hcontinued₁⟩
      rw [Parser.recovering, hp']
    · obtain ⟨hc₂, c₂', hp', hcontinued₂⟩ := h.fails hc hpc hcontinued
      -- A failed parser has not read the semicolon, so recovery finds it.
      have hcollect : (c₂.collect e).OnLine := ⟨hc₂.eof, hc₂.ahead⟩
      obtain ⟨hsync, hcontinued₃⟩ := hcollect.synchronize (hcontinued₂.collect e)
      refine ⟨hsync, _, ?_, hcontinued₃⟩
      rw [Parser.recovering, hp']
      rfl
  fails _ h := absurd h (neverFails_recovering _ _ _ _)

/-- A declaration or statement on a line, or one that had to be skipped. -/
theorem lined_declaration (hrest : nextKind rest ≠ .keyword .elseWord) :
    Lined rest Cursor.OnLine (fun c => c.OnLine ∨ c.AtLineEnd) declaration declaration := by
  refine .budgeted declarationWithin declarationWithin fun b k => ?_
  cases b with
  | zero => exact .exhaust
  | succ b =>
      rw [Nat.add_right_comm]
      exact (lined_declarationOrFail hrest b k).recovering

end Parser

end Lox
