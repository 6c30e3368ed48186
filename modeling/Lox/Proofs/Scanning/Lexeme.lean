import Lox.Proofs.Scanning.Tokens

set_option autoImplicit false

/-! # The lexical grammar

`Lexeme text kind` says that a text is a token of this kind, without saying how a text is cut into
tokens. `Piece.reads_cut` is what the scanner cuts off: a gap, an error, or the longest lexeme at
its place.

The first character of a lexeme tells of which sort it is (`Lexeme.continues`), so no two sorts
compete. Lexemes of several lengths from one place are marks that an equals sign extends, numerals
and words.
-/

namespace Lox

/-- Digits, and perhaps a point with digits on both sides. -/
inductive Numeral : List Char → Prop
  | whole {digits : List Char} (hne : digits ≠ []) (h : ∀ c ∈ digits, c.isDigit = true) :
      Numeral digits
  | decimal {digits fraction : List Char} (hne : digits ≠ []) (h : ∀ c ∈ digits, c.isDigit = true)
      (hne' : fraction ≠ []) (h' : ∀ c ∈ fraction, c.isDigit = true) :
      Numeral (digits ++ '.' :: fraction)

/-- A text is a token of a kind. -/
inductive Lexeme : List Char → Token.Kind → Prop
  | mark (m : Mark) : Lexeme m.text.toList (.mark m)
  /-- The contents of a string are what stands between its quotes. -/
  | string {contents : List Char} (h : '"' ∉ contents) :
      Lexeme ('"' :: (contents ++ ['"'])) (.string (String.ofList contents))
  | number {text : List Char} (h : Numeral text) : Lexeme text (.number (Number.ofNumeral text))
  | keyword (w : Keyword) : Lexeme w.text.toList (.keyword w)
  /-- A word is an identifier only as a whole word that is no keyword. -/
  | identifier {c : Char} {cs : List Char} (hc : startsWord c = true)
      (hcs : ∀ d ∈ cs, continuesWord d = true) (h : ∀ w : Keyword, w.text.toList ≠ c :: cs) :
      Lexeme (c :: cs) .identifier

/-- The text is a token of this kind and of no other one, and no longer text from the same place on
is a token. -/
structure LongestLexeme (text : List Char) (kind : Token.Kind) (after : List Char) : Prop where
  lexeme : Lexeme text kind
  only : ∀ kind', Lexeme text kind' → kind' = kind
  longest : ∀ text' kind', Lexeme text' kind' → text' <+: text ++ after →
    text'.length ≤ text.length

/-- A comment starts here. -/
def StartsComment (cs : List Char) : Prop := ['/', '/'] <+: cs

/-- What a piece is, given what stands after it. -/
inductive Piece.Reads : Piece → List Char → Prop
  | blank {c : Char} (h : isBlank c = true) (after : List Char) : Reads ⟨[c], .gap⟩ after
  /-- A comment goes on up to a line end or the end of the source. -/
  | comment {text after : List Char} (h : '\n' ∉ text) (hend : ∀ c ∈ after.head?, c = '\n') :
      Reads ⟨'/' :: '/' :: text, .gap⟩ after
  | token {text after : List Char} {kind : Token.Kind} (h : LongestLexeme text kind after)
      (hcomment : ¬ StartsComment (text ++ after)) : Reads ⟨text, .token kind⟩ after
  /-- Nothing starts with a character that is not expected. -/
  | unexpected {c : Char} {after : List Char} (hblank : isBlank c = false) (hquote : c ≠ '"')
      (h : ∀ text kind, Lexeme text kind → ¬ text <+: c :: after) :
      Reads ⟨[c], .error (.unexpected c)⟩ after
  | unterminated {contents : List Char} (h : '"' ∉ contents) :
      Reads ⟨'"' :: contents, .error .unterminatedString⟩ []

/-! ## First characters -/

/-- What a character starts. -/
inductive Start
  | single (mark : Mark)
  | pair (alone extended : Mark)
  | blank
  | slash
  | quote
  | digit
  | letter
  | other

/-- What a character starts. -/
def Start.of (c : Char) : Start :=
  match Mark.ofChar? c, Mark.pairOfChar? c with
  | some m, _ => .single m
  | none, some (alone, extended) => .pair alone extended
  | none, none =>
    if isBlank c then .blank
    else if c = '/' then .slash
    else if c = '"' then .quote
    else if c.isDigit then .digit
    else if startsWord c then .letter
    else .other

/-- What is cut off a text that begins with a character of this sort. -/
def Start.cut (c : Char) (cs : List Char) : Start → Piece × List Char
  | single m => (.ofMark [c] m, cs)
  | pair alone extended =>
    match cs with
    | '=' :: rest => (.ofMark [c, '='] extended, rest)
    | _ => (.ofMark [c] alone, cs)
  | blank => (⟨[c], .gap⟩, cs)
  | slash =>
    match cs with
    | '/' :: rest => (⟨c :: '/' :: rest.takeWhile (· != '\n'), .gap⟩, rest.dropWhile (· != '\n'))
    | _ => (.ofMark [c] .slash, cs)
  | quote =>
    match cs.dropWhile (· != '"') with
    | d :: rest =>
      (⟨c :: (cs.takeWhile (· != '"') ++ [d]),
        .token (.string (String.ofList (cs.takeWhile (· != '"'))))⟩, rest)
    | [] => (⟨c :: cs.takeWhile (· != '"'), .error .unterminatedString⟩, [])
  | digit =>
    (⟨(cutNumeral (c :: cs)).1, .token (.number (Number.ofNumeral (cutNumeral (c :: cs)).1))⟩,
      (cutNumeral (c :: cs)).2)
  | letter =>
    (⟨c :: cs.takeWhile continuesWord,
      .token (.ofWord (String.ofList (c :: cs.takeWhile continuesWord)))⟩,
      cs.dropWhile continuesWord)
  | other => (⟨[c], .error (.unexpected c)⟩, cs)

/-- What a character is that starts something of this sort. -/
def Start.Holds (c : Char) : Start → Prop
  | single m => m.text.toList = [c]
  | pair alone extended => alone.text.toList = [c] ∧ extended.text.toList = [c, '=']
  | blank => isBlank c = true
  | slash => c = '/'
  | quote => c = '"'
  | digit => c.isDigit = true
  | letter => startsWord c = true
  | other => isBlank c = false ∧ c ≠ '"'

/-- How a lexeme goes on after a first character of this sort. -/
def Start.Continues (c : Char) (cs : List Char) (kind : Token.Kind) : Start → Prop
  | single m => cs = [] ∧ kind = .mark m
  | pair alone extended => cs = [] ∧ kind = .mark alone ∨ cs = ['='] ∧ kind = .mark extended
  | slash => cs = [] ∧ kind = .mark .slash
  | quote => ∃ contents, '"' ∉ contents ∧ cs = contents ++ ['"'] ∧
      kind = .string (String.ofList contents)
  | digit => Numeral (c :: cs) ∧ kind = .number (Number.ofNumeral (c :: cs))
  | letter => (∀ d ∈ cs, continuesWord d = true) ∧ kind = .ofWord (String.ofList (c :: cs))
  | blank | other => False

section Characters

variable {c : Char} {cs : List Char} {kind : Token.Kind}

theorem Mark.ofChar?_eq_none {f : Char → Bool}
    (hf : ['(', ')', '{', '}', ',', '.', '-', '+', ';', '*'].any f = false)
    (h : f c = true) : Mark.ofChar? c = none := by
  rw [List.any_eq_false] at hf
  unfold Mark.ofChar?
  split <;> first | rfl | exact absurd h (hf _ (by decide))

theorem Mark.pairOfChar?_eq_none {f : Char → Bool} (hf : ['!', '=', '<', '>'].any f = false)
    (h : f c = true) : Mark.pairOfChar? c = none := by
  rw [List.any_eq_false] at hf
  unfold Mark.pairOfChar?
  split <;> first | rfl | exact absurd h (hf _ (by decide))

theorem Mark.text_of_ofChar? {m : Mark} (h : Mark.ofChar? c = some m) : m.text.toList = [c] := by
  unfold Mark.ofChar? at h
  split at h <;> cases h <;> rfl

theorem Mark.text_of_pairOfChar? {alone extended : Mark}
    (h : Mark.pairOfChar? c = some (alone, extended)) :
    alone.text.toList = [c] ∧ extended.text.toList = [c, '='] := by
  unfold Mark.pairOfChar? at h
  split at h <;> cases h <;> exact ⟨rfl, rfl⟩

theorem ne_of_class {f : Char → Bool} {d : Char} (hf : f d = false) (h : f c = true) : c ≠ d := by
  rintro rfl
  rw [hf] at h
  cases h

theorem isBlank_eq_false {f : Char → Bool} (hf : [' ', '\r', '\t', '\n'].any f = false)
    (h : f c = true) : isBlank c = false := by
  rw [List.any_eq_false] at hf
  have hne : ∀ d ∈ [' ', '\r', '\t', '\n'], (c == d) = false := by
    intro d hd
    have hd' : f d = false := Bool.eq_false_iff.2 (hf d hd)
    exact beq_false_of_ne (ne_of_class hd' h)
  rw [isBlank, hne ' ' (by decide), hne '\r' (by decide), hne '\t' (by decide),
    hne '\n' (by decide)]
  rfl

theorem Start.of_isDigit (h : c.isDigit = true) : Start.of c = .digit := by
  rw [Start.of, Mark.ofChar?_eq_none (by decide) h, Mark.pairOfChar?_eq_none (by decide) h]
  dsimp only
  rw [isBlank_eq_false (by decide) h, if_neg Bool.false_ne_true,
    if_neg (ne_of_class (by decide) h), if_neg (ne_of_class (by decide) h), if_pos h]

theorem isDigit_eq_false_of_startsWord (h : startsWord c = true) : c.isDigit = false := by
  rw [Bool.eq_false_iff]
  intro hdigit
  have hword : ¬ c = '_' := ne_of_class (by decide) hdigit
  have halpha : c.isAlpha = (decide (c.val ≥ 'A'.val ∧ c.val ≤ 'Z'.val) ||
      (decide (c.val ≥ 'a'.val) && decide (c.val ≤ 'z'.val))) := rfl
  simp only [startsWord, halpha, Char.isDigit, Bool.or_eq_true, Bool.and_eq_true,
    decide_eq_true_eq, beq_iff_eq, hword, or_false, UInt32.le_iff_toNat_le, ge_iff_le] at h hdigit
  simp only [show ('0' : Char).val.toNat = 48 from rfl, show ('9' : Char).val.toNat = 57 from rfl,
    show ('A' : Char).val.toNat = 65 from rfl, show ('a' : Char).val.toNat = 97 from rfl] at h hdigit
  omega

theorem Start.of_startsWord (h : startsWord c = true) : Start.of c = .letter := by
  rw [Start.of, Mark.ofChar?_eq_none (by decide) h, Mark.pairOfChar?_eq_none (by decide) h]
  dsimp only
  rw [isBlank_eq_false (by decide) h, if_neg Bool.false_ne_true,
    if_neg (ne_of_class (by decide) h), if_neg (ne_of_class (by decide) h),
    isDigit_eq_false_of_startsWord h, if_neg Bool.false_ne_true, if_pos h]

/-- A character is what it is taken for. -/
theorem Start.holds_of (c : Char) : (Start.of c).Holds c := by
  unfold Start.of
  split
  · rename_i m _ hm
    exact Mark.text_of_ofChar? hm
  · rename_i alone extended _ hpair
    exact Mark.text_of_pairOfChar? hpair
  · by_cases hblank : isBlank c
    · rw [if_pos hblank]
      exact hblank
    rw [if_neg hblank]
    by_cases hslash : c = '/'
    · rw [if_pos hslash]
      exact hslash
    rw [if_neg hslash]
    by_cases hquote : c = '"'
    · rw [if_pos hquote]
      exact hquote
    rw [if_neg hquote]
    by_cases hdigit : c.isDigit
    · rw [if_pos hdigit]
      exact hdigit
    rw [if_neg hdigit]
    by_cases hletter : startsWord c
    · rw [if_pos hletter]
      exact hletter
    rw [if_neg hletter]
    exact ⟨Bool.eq_false_iff.2 hblank, hquote⟩

theorem Keyword.text_chars (w : Keyword) :
    ∃ c cs, w.text.toList = c :: cs ∧ startsWord c = true ∧ ∀ d ∈ cs, continuesWord d = true := by
  cases w <;> exact ⟨_, _, rfl, by decide, List.all_eq_true.1 (by decide)⟩

theorem Keyword.ofText?_text (w : Keyword) : Keyword.ofText? w.text = some w := by
  cases w <;> rfl

theorem Token.Kind.ofWord_text (w : Keyword) : Kind.ofWord w.text = .keyword w := by
  rw [ofWord, Keyword.ofText?_text]

/-- What a word spells that is no identifier. -/
theorem Keyword.text_of_ofText? {word : String} {w : Keyword} (h : Keyword.ofText? word = some w) :
    w.text = word := by
  simpa using List.find?_some h

theorem Token.Kind.ofWord_of_forall_ne {word : String} (h : ∀ w : Keyword, w.text ≠ word) :
    Kind.ofWord word = .identifier := by
  rw [ofWord]
  cases hword : Keyword.ofText? word with
  | none => rfl
  | some w => exact absurd (Keyword.text_of_ofText? hword) (h w)

theorem Numeral.isDigit_head (h : Numeral (c :: cs)) : c.isDigit = true := by
  generalize htext : c :: cs = text at h
  cases h with
  | whole hne h =>
      subst htext
      exact h c List.mem_cons_self
  | @decimal digits fraction hne h hne' h' =>
      cases digits with
      | nil => exact absurd rfl hne
      | cons d ds =>
          injection htext with hc
          subst hc
          exact h c List.mem_cons_self

/-- The first character of a lexeme tells of which sort it is. -/
theorem Lexeme.continues (h : Lexeme (c :: cs) kind) : (Start.of c).Continues c cs kind := by
  generalize htext : c :: cs = text at h
  cases h with
  | mark m =>
      cases m <;> (injection htext with hc hcs; subst hc hcs)
      all_goals first | exact ⟨rfl, rfl⟩ | exact .inl ⟨rfl, rfl⟩ | exact .inr ⟨rfl, rfl⟩
  | string hcontents =>
      injection htext with hc hcs
      subst hc hcs
      exact ⟨_, hcontents, rfl, rfl⟩
  | number h =>
      subst htext
      rw [Start.of_isDigit h.isDigit_head]
      exact ⟨h, rfl⟩
  | keyword w =>
      obtain ⟨d, ds, hw, hd, hds⟩ := w.text_chars
      rw [hw] at htext
      injection htext with hc hcs
      subst hc hcs
      rw [Start.of_startsWord hd]
      refine ⟨hds, ?_⟩
      rw [← hw, String.ofList_toList, Token.Kind.ofWord_text]
  | @identifier d ds hd hds hnone =>
      injection htext with hc hcs
      subst hc hcs
      rw [Start.of_startsWord hd]
      refine ⟨hds, (Token.Kind.ofWord_of_forall_ne fun w hw => hnone w ?_).symm⟩
      rw [hw, String.toList_ofList]

theorem Lexeme.ne_nil {text : List Char} (h : Lexeme text kind) : text ≠ [] := by
  cases h with
  | mark m => cases m <;> exact List.cons_ne_nil _ _
  | string => exact List.cons_ne_nil _ _
  | number h =>
      cases h with
      | whole hne => exact hne
      | decimal => exact List.append_ne_nil_of_right_ne_nil _ (List.cons_ne_nil _ _)
  | keyword w => cases w <;> exact List.cons_ne_nil _ _
  | identifier => exact List.cons_ne_nil _ _

/-- A text is a token of one kind only. -/
theorem Lexeme.unique {text : List Char} {kind' : Token.Kind} (h : Lexeme text kind)
    (h' : Lexeme text kind') : kind = kind' := by
  obtain ⟨c, cs, rfl⟩ := List.exists_cons_of_ne_nil h.ne_nil
  have hc := h.continues
  have hc' := h'.continues
  cases hstart : Start.of c with
  | single m | slash =>
      rw [hstart] at hc hc'
      rw [hc.2, hc'.2]
  | pair alone extended =>
      rw [hstart] at hc hc'
      rcases hc with ⟨rfl, rfl⟩ | ⟨rfl, rfl⟩ <;> rcases hc' with ⟨hcs, rfl⟩ | ⟨hcs, rfl⟩ <;>
        first | rfl | cases hcs
  | quote =>
      rw [hstart] at hc hc'
      obtain ⟨contents, -, rfl, rfl⟩ := hc
      obtain ⟨contents', -, hcs, rfl⟩ := hc'
      rw [List.append_inj_left' hcs rfl]
  | digit | letter =>
      rw [hstart] at hc hc'
      rw [hc.2, hc'.2]
  | blank | other =>
      rw [hstart] at hc
      exact hc.elim

end Characters

/-! ## Longest lexemes -/

section Longest

variable {α : Type} {p : α → Bool} {xs ys : List α}

/-- No prefix of such elements is longer than the longest one. -/
theorem length_le_takeWhile (h : xs <+: ys) (hp : ∀ x ∈ xs, p x = true) :
    xs.length ≤ (ys.takeWhile p).length := by
  obtain ⟨rest, rfl⟩ := h
  rw [List.takeWhile_append_of_pos hp, List.length_append]
  exact Nat.le_add_right _ _

variable {text after cs : List Char} {c : Char} {kind : Token.Kind}

/-- What is cut off as a numeral is one. -/
theorem numeral_cutNumeral (h : c.isDigit = true) : Numeral (cutNumeral (c :: cs)).1 := by
  have hne : (c :: cs).takeWhile Char.isDigit ≠ [] := by
    rw [List.takeWhile_cons, if_pos h]
    exact List.cons_ne_nil _ _
  have hdigits : ∀ ds : List Char, ∀ d ∈ ds.takeWhile Char.isDigit, d.isDigit = true :=
    fun ds => List.all_eq_true.1 List.all_takeWhile
  unfold cutNumeral
  split
  · rename_i d rest hrest
    split
    · rename_i hd
      refine .decimal hne (hdigits _) ?_ (hdigits _)
      rw [List.takeWhile_cons, if_pos hd]
      exact List.cons_ne_nil _ _
    · exact .whole hne (hdigits _)
  · exact .whole hne (hdigits _)

/-- No numeral is longer than the one that is cut off. -/
theorem Numeral.length_le (h : Numeral text) (hbegins : text <+: cs) :
    text.length ≤ (cutNumeral cs).1.length := by
  cases h with
  | whole hne h =>
      refine Nat.le_trans (length_le_takeWhile hbegins h) ?_
      unfold cutNumeral
      split
      · split
        · rw [List.length_append]
          exact Nat.le_add_right _ _
        · exact Nat.le_refl _
      · exact Nat.le_refl _
  | @decimal digits fraction hne h hne' h' =>
      obtain ⟨d, ds, rfl⟩ := List.exists_cons_of_ne_nil hne'
      obtain ⟨rest, rfl⟩ := hbegins
      have hpoint : ('.' : Char).isDigit = false := by decide
      have htake : (digits ++ '.' :: d :: ds ++ rest).takeWhile Char.isDigit = digits := by
        rw [List.append_assoc, List.takeWhile_append_of_pos h, List.cons_append,
          List.takeWhile_cons, hpoint]
        exact List.append_nil _
      have hdrop : (digits ++ '.' :: d :: ds ++ rest).dropWhile Char.isDigit =
          '.' :: d :: (ds ++ rest) := by
        rw [List.append_assoc, List.dropWhile_append_of_pos h, List.cons_append,
          List.dropWhile_cons, hpoint]
        rfl
      have hfraction : (d :: ds).length ≤ ((d :: (ds ++ rest)).takeWhile Char.isDigit).length :=
        length_le_takeWhile (List.prefix_append (d :: ds) rest) h'
      have hcut : (cutNumeral (digits ++ '.' :: d :: ds ++ rest)).1 =
          digits ++ '.' :: (d :: (ds ++ rest)).takeWhile Char.isDigit := by
        unfold cutNumeral
        rw [hdrop, htake]
        exact congrArg Prod.fst (if_pos (h' d List.mem_cons_self))
      rw [hcut]
      simp only [List.length_append, List.length_cons] at hfraction ⊢
      omega

/-- A text is the longest lexeme at its place if no lexeme that starts with its first character is
longer. -/
theorem LongestLexeme.of (h : Lexeme text kind) (hcut : text ++ after = c :: cs)
    (hle : ∀ cs' kind', (Start.of c).Continues c cs' kind' → cs' <+: cs →
      cs'.length + 1 ≤ text.length) : LongestLexeme text kind after where
  lexeme := h
  only kind' h' := h'.unique h
  longest text' kind' h' hbegins := by
    rw [hcut] at hbegins
    obtain ⟨d, ds, rfl⟩ := List.exists_cons_of_ne_nil h'.ne_nil
    obtain ⟨rfl, hds⟩ := List.cons_prefix_cons.1 hbegins
    exact hle ds kind' h'.continues hds

theorem not_startsComment (h : Start.of c ≠ .slash) : ¬ StartsComment (c :: cs) := by
  intro hcomment
  obtain ⟨rfl, -⟩ := List.cons_prefix_cons.1 hcomment
  exact h rfl

end Longest

/-! ## What is cut off -/

namespace Piece

variable {c : Char} {cs : List Char}

theorem reads_single {m : Mark} (hstart : Start.of c = .single m) (hm : m.text.toList = [c]) :
    Reads (.ofMark [c] m) cs := by
  refine .token (.of (hm ▸ .mark m) rfl fun cs' kind' hcs' _ => ?_) ?_
  · rw [hstart] at hcs'
    rw [hcs'.1]
    exact Nat.le_refl 1
  · exact not_startsComment (by rw [hstart]; exact nofun)

theorem reads_extended {alone extended : Mark} (hstart : Start.of c = .pair alone extended)
    (hm : extended.text.toList = [c, '=']) : Reads (.ofMark [c, '='] extended) cs := by
  refine .token (.of (hm ▸ .mark extended) rfl fun cs' kind' hcs' _ => ?_) ?_
  · rw [hstart] at hcs'
    rcases hcs' with ⟨rfl, -⟩ | ⟨rfl, -⟩
    · exact Nat.le_succ 1
    · exact Nat.le_refl 2
  · exact not_startsComment (by rw [hstart]; exact nofun)

theorem reads_alone {alone extended : Mark} (hstart : Start.of c = .pair alone extended)
    (hm : alone.text.toList = [c]) (hcs : ¬ ['='] <+: cs) : Reads (.ofMark [c] alone) cs := by
  refine .token (.of (hm ▸ .mark alone) rfl fun cs' kind' hcs' hbegins => ?_) ?_
  · rw [hstart] at hcs'
    rcases hcs' with ⟨rfl, -⟩ | ⟨rfl, -⟩
    · exact Nat.le_refl 1
    · exact absurd hbegins hcs
  · exact not_startsComment (by rw [hstart]; exact nofun)

theorem reads_slash (hcs : ¬ ['/'] <+: cs) : Reads (.ofMark ['/'] .slash) cs := by
  refine .token (.of (.mark .slash) rfl fun cs' kind' hcs' _ => ?_) fun hcomment => ?_
  · rw [hcs'.1]
    exact Nat.le_refl 1
  · exact hcs (List.cons_prefix_cons.1 hcomment).2

theorem notMem_takeWhile (x : Char) : x ∉ cs.takeWhile (· != x) := by
  intro hx
  have hne := List.all_eq_true.1 List.all_takeWhile x hx
  rw [bne_self_eq_false] at hne
  cases hne

theorem eq_of_dropWhile {x y : Char} {rest : List Char}
    (h : cs.dropWhile (· != x) = y :: rest) : y = x := by
  have hstop := List.head?_dropWhile_not (· != x) cs
  rw [h] at hstop
  simpa using hstop

theorem reads_string {quote : Char} {rest : List Char}
    (hrest : cs.dropWhile (· != '"') = quote :: rest) :
    Reads ⟨'"' :: (cs.takeWhile (· != '"') ++ [quote]),
      .token (.string (String.ofList (cs.takeWhile (· != '"'))))⟩ rest := by
  obtain rfl := eq_of_dropWhile hrest
  have hcut : '"' :: (cs.takeWhile (· != '"') ++ ['"']) ++ rest = '"' :: cs := by
    have hall := List.takeWhile_append_dropWhile (p := (· != '"')) (l := cs)
    rw [hrest] at hall
    rw [List.cons_append, List.append_assoc, List.singleton_append, hall]
  have hstop : ∀ cs' kind', (Start.of '"').Continues '"' cs' kind' → cs' <+: cs →
      cs'.length + 1 ≤ ('"' :: (cs.takeWhile (· != '"') ++ ['"'])).length := by
    rintro cs' kind' ⟨contents, hcontents, rfl, -⟩ hbegins
    have hne : ∀ d ∈ contents, (d != '"') = true := by
      intro d hd
      rw [bne_iff_ne]
      rintro rfl
      exact hcontents hd
    have hle := length_le_takeWhile ((List.prefix_append contents _).trans hbegins) hne
    simp only [List.length_append, List.length_cons, List.length_nil]
    omega
  refine .token (.of (.string (notMem_takeWhile '"')) hcut hstop) ?_
  rw [hcut]
  exact not_startsComment nofun

theorem reads_numeral (hstart : Start.of c = .digit) (hdigit : c.isDigit = true) :
    Reads ⟨(cutNumeral (c :: cs)).1, .token (.number (Number.ofNumeral (cutNumeral (c :: cs)).1))⟩
      (cutNumeral (c :: cs)).2 := by
  have hcut := cutNumeral_append (c :: cs)
  refine .token (.of (.number (numeral_cutNumeral hdigit)) hcut fun cs' kind' hcs' hbegins => ?_) ?_
  · rw [hstart] at hcs'
    exact hcs'.1.length_le (List.cons_prefix_cons.2 ⟨rfl, hbegins⟩)
  · rw [hcut]
    exact not_startsComment (by rw [hstart]; exact nofun)

/-- A word is a keyword or an identifier. -/
theorem lexeme_word (hc : startsWord c = true) (hcs : ∀ d ∈ cs, continuesWord d = true) :
    Lexeme (c :: cs) (.ofWord (String.ofList (c :: cs))) := by
  cases hword : Keyword.ofText? (String.ofList (c :: cs)) with
  | some w =>
      have htext := Keyword.text_of_ofText? hword
      have hchars : w.text.toList = c :: cs := by rw [htext, String.toList_ofList]
      rw [← htext, Token.Kind.ofWord_text, ← hchars]
      exact .keyword w
  | none =>
      rw [Token.Kind.ofWord, hword]
      refine .identifier hc hcs fun w hw => ?_
      have hfound := Keyword.ofText?_text w
      rw [← String.ofList_toList (s := w.text), hw, hword] at hfound
      cases hfound

theorem reads_word (hstart : Start.of c = .letter) (hc : startsWord c = true) :
    Reads ⟨c :: cs.takeWhile continuesWord,
      .token (.ofWord (String.ofList (c :: cs.takeWhile continuesWord)))⟩
      (cs.dropWhile continuesWord) := by
  have hcut : c :: cs.takeWhile continuesWord ++ cs.dropWhile continuesWord = c :: cs := by
    rw [List.cons_append, List.takeWhile_append_dropWhile]
  have hword := lexeme_word hc (List.all_eq_true.1 (List.all_takeWhile (l := cs)))
  refine .token (.of hword hcut fun cs' kind' hcs' hbegins => ?_) ?_
  · rw [hstart] at hcs'
    exact Nat.succ_le_succ (length_le_takeWhile hbegins hcs'.1)
  · rw [hcut]
    exact not_startsComment (by rw [hstart]; exact nofun)

theorem reads_unexpected (hstart : Start.of c = .other) (hblank : isBlank c = false)
    (hquote : c ≠ '"') : Reads ⟨[c], .error (.unexpected c)⟩ cs := by
  refine .unexpected hblank hquote fun text kind h hbegins => ?_
  obtain ⟨d, ds, rfl⟩ := List.exists_cons_of_ne_nil h.ne_nil
  obtain ⟨rfl, -⟩ := List.cons_prefix_cons.1 hbegins
  have hcontinues := h.continues
  rw [hstart] at hcontinues
  exact hcontinues

/-- What is cut off depends on what the first character starts. -/
theorem cut_eq (c : Char) (cs : List Char) : cut c cs = (Start.of c).cut c cs := by
  unfold cut
  split
  · rename_i m _ hm
    rw [Start.of, hm]
    rfl
  · rename_i alone extended hm hpair
    rw [Start.of, hm, hpair]
    rfl
  · rename_i hm hpair
    rw [Start.of, hm, hpair]
    simp only
    by_cases hblank : isBlank c
    · rw [if_pos hblank, if_pos hblank]
      rfl
    rw [if_neg hblank, if_neg hblank]
    by_cases hslash : c = '/'
    · rw [if_pos hslash, if_pos hslash]
      rfl
    rw [if_neg hslash, if_neg hslash]
    by_cases hquote : c = '"'
    · rw [if_pos hquote, if_pos hquote]
      rfl
    rw [if_neg hquote, if_neg hquote]
    by_cases hdigit : c.isDigit
    · rw [if_pos hdigit, if_pos hdigit]
      rfl
    rw [if_neg hdigit, if_neg hdigit]
    by_cases hletter : startsWord c
    · rw [if_pos hletter, if_pos hletter]
      rfl
    rw [if_neg hletter, if_neg hletter]
    rfl

/-- What is cut off a text is a gap, an error or the longest lexeme. -/
theorem reads_cut (c : Char) (cs : List Char) : (cut c cs).1.Reads (cut c cs).2 := by
  have hholds := Start.holds_of c
  rw [cut_eq]
  cases hstart : Start.of c with
  | single m =>
      rw [hstart] at hholds
      exact reads_single hstart hholds
  | pair alone extended =>
      rw [hstart] at hholds
      unfold Start.cut
      dsimp only
      split
      · exact reads_extended hstart hholds.2
      · rename_i hcs
        refine reads_alone hstart hholds.1 fun hbegins => ?_
        obtain ⟨rest, rfl⟩ := hbegins
        exact hcs rest rfl
  | blank =>
      rw [hstart] at hholds
      exact .blank hholds _
  | slash =>
      rw [hstart] at hholds
      obtain rfl : c = '/' := hholds
      unfold Start.cut
      dsimp only
      split
      · rename_i rest
        refine .comment (notMem_takeWhile '\n') fun d hd => ?_
        obtain ⟨tail, htail⟩ := List.head?_eq_some_iff.1 (Option.mem_def.1 hd)
        exact eq_of_dropWhile htail
      · rename_i hcs
        refine reads_slash fun hbegins => ?_
        obtain ⟨rest, rfl⟩ := hbegins
        exact hcs rest rfl
  | quote =>
      rw [hstart] at hholds
      obtain rfl : c = '"' := hholds
      unfold Start.cut
      dsimp only
      split
      · rename_i quote rest hrest
        exact reads_string hrest
      · exact .unterminated (notMem_takeWhile '"')
  | digit =>
      rw [hstart] at hholds
      exact reads_numeral hstart hholds
  | letter =>
      rw [hstart] at hholds
      exact reads_word hstart hholds
  | other =>
      rw [hstart] at hholds
      exact reads_unexpected hstart hholds.1 hholds.2

theorem Reads.lexeme {p : Piece} {after : List Char} {kind : Token.Kind} (h : p.Reads after)
    (hsort : p.sort = .token kind) : Lexeme p.text kind := by
  cases h with
  | token h =>
      cases hsort
      exact h.lexeme
  | _ => cases hsort

theorem lexeme_of_mem_split {cs : List Char} {p : Piece} {kind : Token.Kind} (h : p ∈ split cs)
    (hsort : p.sort = .token kind) : Lexeme p.text kind := by
  fun_induction split cs with
  | case1 => cases h
  | case2 c cs ih =>
      rcases List.mem_cons.1 h with rfl | h
      · exact (reads_cut c cs).lexeme hsort
      · exact ih h

end Piece

/-- The text of a token of a source is a token of its kind. -/
theorem Scan.lexeme_of_mem {source : String} {offset : Nat} {t : Token}
    (h : t ∈ (ofText source offset).tokens) : Lexeme t.lexeme.toList t.kind := by
  obtain ⟨p, hp, hsort, htext⟩ := Item.exists_piece_of_mem_tokens h
  rw [htext, String.toList_ofList]
  exact Piece.lexeme_of_mem_split hp hsort

end Lox
