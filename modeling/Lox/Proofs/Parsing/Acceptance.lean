import Lox.Proofs.Parsing.Yield

set_option autoImplicit false

/-! # Tokens that a parser accepts

`p.Accepts eof ts rest post` says that the parser `p` reads exactly the tokens `ts` when `rest` and
the token `eof` are ahead after them, that it notes no error, and that its value satisfies `post`.
Which token comes after matters only through its kind (`nextKind`).

As for `Yields`, the rules follow the shape of a parser.
-/

namespace Lox

/-- The kind of the first token, or of the token that ends the source. -/
def nextKind : List Token → Token.Kind
  | [] => .eof
  | t :: _ => t.kind

@[simp] theorem nextKind_cons (t : Token) (ts : List Token) : nextKind (t :: ts) = t.kind := rfl

namespace Cursor

variable {eof : Token}

theorem peek_cons (t : Token) (ts : List Token) : (Cursor.mk (t :: ts) eof []).peek = t := rfl

theorem peek_kind (heof : eof.kind = .eof) (ts : List Token) :
    (Cursor.mk ts eof []).peek.kind = nextKind ts := by
  cases ts with
  | nil => exact heof
  | cons t ts => rfl

theorem isAtMark_eq (m : Mark) (ts : List Token) (eof : Token) :
    (Cursor.mk ts eof []).isAtMark m = (nextKind ts).isMark m := by
  cases ts with
  | nil => rfl
  | cons t ts => rfl

theorem isAtMark_cons {m : Mark} {t : Token} {ts : List Token} (h : t.kind = .mark m) :
    (Cursor.mk (t :: ts) eof []).isAtMark m = true :=
  Token.Kind.isMark_iff.2 h

theorem isAtMark_eq_false {m : Mark} {ts : List Token} (h : nextKind ts ≠ .mark m) :
    (Cursor.mk ts eof []).isAtMark m = false := by
  rw [isAtMark_eq, Bool.eq_false_iff]
  exact fun hmark => h (Token.Kind.isMark_iff.1 hmark)

end Cursor

namespace Parser

/-- The parser reads exactly these tokens before the rest, and its value satisfies `post`. -/
def Accepts {α : Type} (p : Parser α) (eof : Token) (ts rest : List Token) (post : α → Prop) :
    Prop :=
  ∃ a, post a ∧ p ⟨ts ++ rest, eof, []⟩ = .ok a ⟨rest, eof, []⟩

/-- Any value. -/
def anything {α : Type} (_ : α) : Prop := True

variable {α β : Type} {p : Parser α} {q : α → Parser β} {eof : Token} {ts us rest : List Token}
  {mid : α → Prop} {post : β → Prop}

/-! ## Rules -/

theorem Accepts.mono {post post' : α → Prop} (h : p.Accepts eof ts rest post)
    (hpost : ∀ a, post a → post' a) : p.Accepts eof ts rest post' := by
  obtain ⟨a, ha, h⟩ := h
  exact ⟨a, hpost a ha, h⟩

theorem Accepts.pure {post : α → Prop} {a : α} (h : post a) :
    (pure a : Parser α).Accepts eof [] rest post :=
  ⟨a, h, rfl⟩

theorem Accepts.pure_bind {a : α} (hq : (q a).Accepts eof ts rest post) :
    (Pure.pure a >>= q).Accepts eof ts rest post :=
  hq

/-- One parser after another: what both of them read. -/
theorem Accepts.bind (hp : p.Accepts eof ts (us ++ rest) mid)
    (hq : ∀ a, mid a → (q a).Accepts eof us rest post) :
    (p >>= q).Accepts eof (ts ++ us) rest post := by
  obtain ⟨a, ha, hp⟩ := hp
  obtain ⟨b, hb, hq⟩ := hq a ha
  refine ⟨b, hb, ?_⟩
  rw [List.append_assoc, bind_of_ok hp]
  exact hq

/-- A parser before one that reads nothing. -/
theorem Accepts.bind_nil (hp : p.Accepts eof ts rest mid)
    (hq : ∀ a, mid a → (q a).Accepts eof [] rest post) :
    (p >>= q).Accepts eof ts rest post := by
  rw [← List.append_nil ts]
  exact .bind hp hq

/-- A parser that runs with the budget that its tokens call for. -/
theorem Accepts.budgeted {post : α → Prop} (run : Nat → Parser α)
    (h : (run (16 * ((ts ++ rest).length + 1))).Accepts eof ts rest post) :
    Accepts (fun c => run c.budget c) eof ts rest post :=
  h

/-! ## Primitive parsers -/

theorem Accepts.peek {q : Token → Parser β}
    (hq : (q (Cursor.mk (ts ++ rest) eof []).peek).Accepts eof ts rest post) :
    (peek >>= q).Accepts eof ts rest post :=
  hq

theorem Accepts.advance {q : Token → Parser β} {t : Token}
    (hq : (q t).Accepts eof ts rest post) :
    (advance >>= q).Accepts eof (t :: ts) rest post :=
  hq

theorem Accepts.checkMark {q : Bool → Parser β} {m : Mark}
    (hq : (q ((nextKind (ts ++ rest)).isMark m)).Accepts eof ts rest post) :
    (checkMark m >>= q).Accepts eof ts rest post := by
  rw [← Cursor.isAtMark_eq _ _ eof] at hq
  exact hq

theorem accepts_expectMark {t : Token} {m : Mark} (cause : ParseError.Cause)
    (ht : t.kind = .mark m) : (expectMark m cause).Accepts eof [t] rest (· = t) := by
  refine ⟨t, rfl, ?_⟩
  rw [expectMark, List.cons_append, if_pos (Cursor.isAtMark_cons ht)]
  rfl

theorem Accepts.expectMark {q : Token → Parser β} {t : Token} {m : Mark}
    {cause : ParseError.Cause} (ht : t.kind = .mark m)
    (hq : (q t).Accepts eof ts rest post) :
    (expectMark m cause >>= q).Accepts eof (t :: ts) rest post := by
  refine Accepts.bind (accepts_expectMark cause ht) ?_
  rintro _ rfl
  exact hq

theorem accepts_expectName {t : Token} (cause : ParseError.Cause) (ht : t.kind = .identifier) :
    (expectName cause).Accepts eof [t] rest (· = t.toName) := by
  refine ⟨t.toName, rfl, ?_⟩
  obtain ⟨kind, text, line, start⟩ := t
  cases ht
  rfl

theorem Accepts.expectName {q : Name → Parser β} {t : Token} {cause : ParseError.Cause}
    (ht : t.kind = .identifier) (hq : (q t.toName).Accepts eof ts rest post) :
    (expectName cause >>= q).Accepts eof (t :: ts) rest post := by
  refine Accepts.bind (accepts_expectName cause ht) ?_
  rintro _ rfl
  exact hq

/-! ## Choices by the next token -/

section Choice

variable {yes no : Parser β} {t : Token}

/-- The mark is next. -/
theorem Accepts.mark {m : Mark} (ht : t.kind = .mark m) (hyes : yes.Accepts eof ts rest post) :
    (acceptMark m >>= fun b => if b = true then yes else no).Accepts eof (t :: ts) rest
      post := by
  obtain ⟨a, ha, hyes⟩ := hyes
  have haccept : acceptMark m ⟨t :: ts ++ rest, eof, []⟩ = .ok true ⟨ts ++ rest, eof, []⟩ := by
    rw [acceptMark, List.cons_append, if_pos (Cursor.isAtMark_cons ht)]
    rfl
  exact ⟨a, ha, (bind_of_ok haccept).trans hyes⟩

/-- The mark is not next. -/
theorem Accepts.noMark {m : Mark} (hnext : nextKind (ts ++ rest) ≠ .mark m)
    (hno : no.Accepts eof ts rest post) :
    (acceptMark m >>= fun b => if b = true then yes else no).Accepts eof ts rest post := by
  obtain ⟨a, ha, hno⟩ := hno
  have haccept : acceptMark m ⟨ts ++ rest, eof, []⟩ = .ok false ⟨ts ++ rest, eof, []⟩ := by
    rw [acceptMark, Cursor.isAtMark_eq_false hnext]
    rfl
  exact ⟨a, ha, (bind_of_ok haccept).trans hno⟩

/-- The keyword is next. -/
theorem Accepts.keyword {w : Keyword} (ht : t.kind = .keyword w)
    (hyes : yes.Accepts eof ts rest post) :
    (acceptKeyword w >>= fun b => if b = true then yes else no).Accepts eof (t :: ts) rest
      post := by
  obtain ⟨a, ha, hyes⟩ := hyes
  have haccept :
      acceptKeyword w ⟨t :: ts ++ rest, eof, []⟩ = .ok true ⟨ts ++ rest, eof, []⟩ := by
    simp only [acceptKeyword, List.cons_append]
    rw [if_pos (Token.Kind.isKeyword_iff.2 ht)]
    rfl
  exact ⟨a, ha, (bind_of_ok haccept).trans hyes⟩

/-- The keyword is not next. -/
theorem Accepts.noKeyword {w : Keyword} (hnext : nextKind (ts ++ rest) ≠ .keyword w)
    (hno : no.Accepts eof ts rest post) :
    (acceptKeyword w >>= fun b => if b = true then yes else no).Accepts eof ts rest post := by
  obtain ⟨a, ha, hno⟩ := hno
  have haccept : acceptKeyword w ⟨ts ++ rest, eof, []⟩ = .ok false ⟨ts ++ rest, eof, []⟩ := by
    cases hahead : ts ++ rest with
    | nil => rfl
    | cons t us =>
        rw [hahead] at hnext
        have hword : t.kind.isKeyword w = false := by
          rw [Bool.eq_false_iff]
          exact fun h => hnext (Token.Kind.isKeyword_iff.1 h)
        simp only [acceptKeyword, hword]
        rfl
  exact ⟨a, ha, (bind_of_ok haccept).trans hno⟩

end Choice

end Parser

end Lox
