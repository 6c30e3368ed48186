import Lox.Proofs.Bytes.Encoding
import Lox.Proofs.Scanning.Alike

set_option autoImplicit false

/-! # The steps of a scanner over bytes

`Scanner.At` says which characters a scanner was through and which are left. From there every step
of the scanner ends without a fault.

There is one lemma for each step, with the scanner after it: `Scanner.pass` is the scanner behind
some more characters. A loop over the bytes is an induction on the characters that are left
(`skipWithin_eq`).
-/

namespace Lox.Bytes

/-- The scanner was through the bytes of the first characters, and is before those of the rest. -/
structure Scanner.At (s : Scanner) (read rest : List Char) : Prop where
  chars : s.source.toList = read ++ rest
  curr : s.curr = (encode read).length

/-- The scanner behind some more characters. -/
def Scanner.pass (s : Scanner) (cs : List Char) : Scanner :=
  { s with curr := s.curr + (encode cs).length }

variable {s : Scanner} {read rest cs : List Char} {c d : Char} {b : UInt8} {bs : List UInt8}
  {test : Char → Bool}

namespace Scanner.At

theorem bytes (h : s.At read rest) : s.bytes = encode read ++ encode rest := by
  rw [Scanner.bytes, toList_toUTF8, h.chars, encode_append]

theorem length_bytes (h : s.At read rest) :
    s.bytes.length = s.curr + (encode rest).length := by
  rw [h.bytes, List.length_append, h.curr]

theorem drop (h : s.At read rest) : s.bytes.drop s.curr = encode rest := by
  rw [h.bytes, h.curr, List.drop_left]

theorem getElem? (h : s.At read rest) (n : Nat) : s.bytes[s.curr + n]? = (encode rest)[n]? := by
  rw [← h.drop, List.getElem?_drop]

theorem pass (h : s.At read (cs ++ rest)) : (s.pass cs).At (read ++ cs) rest where
  chars := by rw [List.append_assoc]; exact h.chars
  curr := by rw [Scanner.pass, h.curr, encode_append, List.length_append]

theorem pass_cons (h : s.At read (c :: rest)) : (s.pass [c]).At (read ++ [c]) rest := pass h

theorem isAtEnd_nil (h : s.At read []) : s.isAtEnd = true := by
  rw [isAtEnd, h.length_bytes]
  exact decide_eq_true (Nat.le_refl _)

theorem isAtEnd_cons (h : s.At read (c :: cs)) : s.isAtEnd = false := by
  have hpos := length_utf8EncodeChar_pos c
  rw [isAtEnd, h.length_bytes, encode_cons, List.length_append]
  exact decide_eq_false (by omega)

theorem peek_nil (h : s.At read []) : s.peek = 0 := by
  rw [peek, ← Nat.add_zero s.curr, h.getElem?]
  rfl

theorem peek_cons (h : s.At read (c :: cs)) (hb : String.utf8EncodeChar c = b :: bs) :
    s.peek = b := by
  rw [peek, ← Nat.add_zero s.curr, h.getElem?, encode_cons, hb]
  rfl

/-- What the next byte says of the next character. -/
theorem test_peek (h : s.At read rest) (htest : OnlyAscii test) (hzero : test '\x00' = false) :
    test (char s.peek) = rest.head?.any test := by
  cases rest with
  | nil =>
      rw [h.peek_nil]
      exact hzero
  | cons c cs =>
      obtain ⟨b, bs, hb⟩ := exists_first c
      rw [h.peek_cons hb, htest.of_first hb]
      rfl

/-- The byte after a character of one byte is the first one of the next character. -/
theorem test_peekNext (h : s.At read (c :: rest)) (hc : c.toNat < 128) (htest : OnlyAscii test)
    (hzero : test '\x00' = false) : test (char s.peekNext) = rest.head?.any test := by
  have hnext := h.pass_cons.test_peek htest hzero
  have hpeek : (s.pass [c]).peek = s.peekNext := by
    rw [peek, Scanner.pass, encode_cons, utf8EncodeChar_ascii hc]
    rfl
  rwa [hpeek] at hnext

theorem length_lt_budget (h : s.At read rest) : rest.length < s.budget := by
  have hle := length_le_length_encode rest
  rw [Scanner.budget, h.length_bytes]
  omega

end Scanner.At

/-! ## Primitive steps -/

section

variable {α β : Type} {p : Scanning α} {k : α → Scanning β} {s' : Scanner} {a : α}

theorem bind_of_ok (h : p s = .ok a s') : (p >>= k) s = k a s' := by
  show EStateM.bind p k s = _
  rw [EStateM.bind, h]

end

theorem advance_eq (h : s.At read (c :: cs)) (hc : c.toNat < 128) :
    advance s = .ok c.toUInt8 (s.pass [c]) := by
  have hbyte : s.bytes[s.curr]? = some c.toUInt8 := by
    rw [← Nat.add_zero s.curr, h.getElem?, encode_cons, utf8EncodeChar_ascii hc]
    rfl
  rw [advance, hbyte, Scanner.pass, encode_cons, utf8EncodeChar_ascii hc]
  rfl

theorem advance_first (h : s.At read (c :: cs)) (hb : String.utf8EncodeChar c = b :: bs) :
    advance s = .ok b { s with curr := s.curr + 1 } := by
  have hbyte : s.bytes[s.curr]? = some b := by
    rw [← Nat.add_zero s.curr, h.getElem?, encode_cons, hb]
    rfl
  rw [advance, hbyte]

theorem ahead_eq (h : s.At read rest) : ahead s = .ok (encode rest) s := by
  have hle : s.curr ≤ s.bytes.length := by
    rw [h.length_bytes]
    exact Nat.le_add_right _ _
  rw [ahead, if_pos hle, h.drop]

theorem slice_eq {text after : List Char} {first last : Nat}
    (hsource : s.source.toList = read ++ text ++ after) (hfirst : first = (encode read).length)
    (hlast : last = (encode (read ++ text)).length) :
    slice first last s = .ok (String.ofList text) s := by
  rw [slice, hfirst, hlast, slice?_eq hsource]

/-- The lexeme is what the scanner was through since its start. -/
theorem lexeme_eq {text : List Char} (h : s.At (read ++ text) rest)
    (hstart : s.start = (encode read).length) : lexeme s = .ok (String.ofList text) s :=
  slice_eq h.chars hstart h.curr

theorem matchByte_eq (h : s.At read (d :: cs)) (hd : d.toNat < 128) (hzero : d ≠ '\x00') :
    matchByte d s = .ok true (s.pass [d]) := by
  have hpeek := h.test_peek (.beq hd) (beq_false_of_ne hzero.symm)
  have htest : (char s.peek == d && !s.isAtEnd) = true := by
    rw [hpeek, h.isAtEnd_cons]
    simp
  show (if char s.peek == d && !s.isAtEnd then _ else _ : Scanning Bool) s = _
  rw [if_pos htest, Scanner.pass, encode_cons, utf8EncodeChar_ascii hd]
  rfl

theorem matchByte_ne (h : s.At read rest) (hd : d.toNat < 128) (hzero : d ≠ '\x00')
    (hrest : rest.head? ≠ some d) : matchByte d s = .ok false s := by
  have hpeek := h.test_peek (.beq hd) (beq_false_of_ne hzero.symm)
  have htest : ¬ (char s.peek == d && !s.isAtEnd) = true := by
    rw [hpeek]
    cases rest with
    | nil => simp
    | cons c cs =>
        have hne : (c == d) = false := beq_false_of_ne fun heq => hrest (congrArg some heq)
        simp [hne]
  show (if char s.peek == d && !s.isAtEnd then _ else _ : Scanning Bool) s = _
  rw [if_neg htest]
  rfl

/-- A loop over bytes goes on as long as the characters pass the test. -/
theorem skipWithin_eq (htest : OnlyAscii test) (hzero : test '\x00' = false) {budget : Nat}
    (h : s.At read rest) (hbudget : rest.length < budget) :
    skipWithin test budget s = .ok () (s.pass (rest.takeWhile test)) := by
  induction rest generalizing s read budget with
  | nil =>
      obtain ⟨n, rfl⟩ := Nat.exists_eq_succ_of_ne_zero (Nat.ne_zero_of_lt hbudget)
      have hpeek := h.test_peek htest hzero
      show (if test (char s.peek) then _ else _ : Scanning Unit) s = _
      rw [hpeek]
      rfl
  | cons c cs ih =>
      obtain ⟨n, rfl⟩ := Nat.exists_eq_succ_of_ne_zero (Nat.ne_zero_of_lt hbudget)
      have hpeek : test (char s.peek) = test c := h.test_peek htest hzero
      show (if test (char s.peek) then _ else _ : Scanning Unit) s = _
      by_cases hc : test c = true
      · rw [hpeek, if_pos hc, bind_of_ok (advance_eq h (htest c hc)),
          ih h.pass_cons (Nat.lt_of_succ_lt_succ hbudget), List.takeWhile_cons, if_pos hc]
        simp only [Scanner.pass, encode_cons, encode_nil, List.append_nil, List.length_append,
          Nat.add_assoc]
      · rw [hpeek, if_neg hc, List.takeWhile_cons, if_neg hc]
        rfl

theorem skipWhile_eq (htest : OnlyAscii test) (hzero : test '\x00' = false) (h : s.At read rest) :
    skipWhile test s = .ok () (s.pass (rest.takeWhile test)) :=
  skipWithin_eq htest hzero h h.length_lt_budget

/-! ## First characters -/

theorem onlyAscii_isDigit : OnlyAscii Char.isDigit := by
  intro c hc
  simp only [Char.isDigit, Bool.and_eq_true, decide_eq_true_eq, UInt32.le_iff_toNat_le, ge_iff_le]
    at hc
  exact Nat.lt_of_le_of_lt hc.2 (by decide)

theorem onlyAscii_startsWord : OnlyAscii startsWord := by
  intro c hc
  have halpha : c.isAlpha = (decide (c.val ≥ 'A'.val ∧ c.val ≤ 'Z'.val) ||
      (decide (c.val ≥ 'a'.val) && decide (c.val ≤ 'z'.val))) := rfl
  simp only [startsWord, halpha, Bool.or_eq_true, Bool.and_eq_true, decide_eq_true_eq, beq_iff_eq,
    UInt32.le_iff_toNat_le, ge_iff_le] at hc
  rcases hc with (⟨-, hle⟩ | ⟨-, hle⟩) | rfl
  · exact Nat.lt_of_le_of_lt hle (by decide)
  · exact Nat.lt_of_le_of_lt hle (by decide)
  · decide

theorem onlyAscii_continuesWord : OnlyAscii continuesWord := by
  intro c hc
  rcases Bool.or_eq_true_iff.1 hc with hc | hc
  · exact onlyAscii_startsWord c hc
  · exact onlyAscii_isDigit c hc

theorem onlyAscii_isBlank : OnlyAscii isBlank := by
  intro c hc
  simp only [isBlank, Bool.or_eq_true, beq_iff_eq] at hc
  rcases hc with ((rfl | rfl) | rfl) | rfl <;> decide

theorem ascii_of_mark {m : Mark} (h : m.text.toList = c :: cs) : c.toNat < 128 ∧ c ≠ '\n' := by
  cases m <;> (injection h with hc; subst hc; decide)

/-- A character of more than one byte starts nothing. -/
theorem start_other_or_ascii (c : Char) : Start.of c = .other ∨ c.toNat < 128 := by
  have hholds := Start.holds_of c
  cases hstart : Start.of c with
  | other => exact .inl rfl
  | single m =>
      rw [hstart] at hholds
      exact .inr (ascii_of_mark hholds).1
  | pair alone extended =>
      rw [hstart] at hholds
      exact .inr (ascii_of_mark hholds.1).1
  | blank =>
      rw [hstart] at hholds
      exact .inr (onlyAscii_isBlank c hholds)
  | slash =>
      rw [hstart] at hholds
      obtain rfl : c = '/' := hholds
      exact .inr (by decide)
  | quote =>
      rw [hstart] at hholds
      obtain rfl : c = '"' := hholds
      exact .inr (by decide)
  | digit =>
      rw [hstart] at hholds
      exact .inr (onlyAscii_isDigit c hholds)
  | letter =>
      rw [hstart] at hholds
      exact .inr (onlyAscii_startsWord c hholds)

/-- The first byte of a character tells what the character starts. -/
theorem start_of_first (hb : String.utf8EncodeChar c = b :: bs) :
    Start.of (char b) = Start.of c := by
  by_cases hc : c.toNat < 128
  · rw [utf8EncodeChar_ascii hc, List.cons.injEq] at hb
    rw [← hb.1, char_toUInt8 hc]
  · have hfirst : ¬ (char b).toNat < 128 :=
      Nat.not_lt_of_le (le_of_mem_utf8EncodeChar (Nat.le_of_not_lt hc) (hb ▸ List.mem_cons_self))
    rw [(start_other_or_ascii c).resolve_right hc,
      (start_other_or_ascii (char b)).resolve_right hfirst]

/-! ## Lexemes -/

theorem pass_pass (s : Scanner) (cs ds : List Char) : (s.pass cs).pass ds = s.pass (cs ++ ds) := by
  simp only [Scanner.pass, encode_append, List.length_append, Nat.add_assoc]

/-- A character of one byte is read as its byte, and the rest of the lexeme after it. -/
theorem scanToken_ascii (h : s.At read (c :: cs)) (hc : c.toNat < 128) :
    scanToken s = scanFrom c (Start.of c) (s.pass [c]) := by
  rw [scanToken, bind_of_ok (advance_eq h hc), char_toUInt8 hc]

/-- A comment goes up to a line end, which is not read. -/
theorem comment_eq {text : List Char} (h : s.At read (text ++ rest)) (htext : '\n' ∉ text)
    (hrest : ∀ c ∈ rest.head?, c = '\n') : comment s = .ok () (s.pass text) := by
  show (ahead >>= fun bytes => endComment s (memchr '\n' bytes)) s = _
  rw [bind_of_ok (ahead_eq h)]
  cases rest with
  | nil =>
      rw [List.append_nil] at h ⊢
      rw [memchr_eq_none (by decide) htext, Scanner.pass, ← h.length_bytes]
      rfl
  | cons c cs =>
      obtain rfl : c = '\n' := hrest c rfl
      rw [memchr_eq_some (by decide) htext]
      rfl

/-- A string that ends. -/
theorem string_closed {contents : List Char} (h : s.At read (contents ++ '"' :: rest))
    (hcontents : '"' ∉ contents) :
    string s = .ok () { s.pass (contents ++ ['"']) with
      line := s.line + contents.count '\n'
      pending := some (.string (String.ofList contents)) } := by
  have hsource : s.source.toList = read ++ contents ++ '"' :: rest := by
    rw [h.chars, List.append_assoc]
  have hlast : s.curr + (encode contents).length = (encode (read ++ contents)).length := by
    rw [h.curr, encode_append, List.length_append]
  show (ahead >>= fun bytes => endString s bytes (memchr '"' bytes)) s = _
  rw [bind_of_ok (ahead_eq h), memchr_eq_some (by decide) hcontents, endString,
    bind_of_ok (slice_eq hsource h.curr hlast), toList_toUTF8, String.toList_ofList,
    countP_encode (by decide), Scanner.pass, encode_append, List.length_append]
  rfl

/-- A string that does not end. -/
theorem string_unterminated (h : s.At read rest) (hrest : '"' ∉ rest) :
    string s = .error (.failed .unterminatedString (s.line + rest.count '\n'))
      { s.pass rest with line := s.line + rest.count '\n' } := by
  show (ahead >>= fun bytes => endString s bytes (memchr '"' bytes)) s = _
  rw [bind_of_ok (ahead_eq h), memchr_eq_none (by decide) hrest, endString]
  dsimp only
  rw [countP_encode (by decide), Scanner.pass, ← h.length_bytes]
  rfl

/-- The point and the digits with which a numeral goes on. -/
def fractionOf : List Char → List Char
  | '.' :: d :: cs => if d.isDigit then '.' :: (d :: cs).takeWhile Char.isDigit else []
  | _ => []

theorem cutNumeral_fst (cs : List Char) :
    (cutNumeral cs).1 = cs.takeWhile Char.isDigit ++ fractionOf (cs.dropWhile Char.isDigit) := by
  unfold cutNumeral
  split
  · rename_i d rest hrest
    rw [hrest, fractionOf]
    split
    · rfl
    · rw [List.append_nil]
  · rename_i hrest
    unfold fractionOf
    split
    · exact absurd ‹_› (hrest _ _)
    · rw [List.append_nil]

/-- Two bytes ahead tell whether a numeral goes on with a fraction. -/
theorem test_fraction (h : s.At read rest) :
    (char s.peek == '.' && (char s.peekNext).isDigit) = true ↔
      ∃ d ds, rest = '.' :: d :: ds ∧ d.isDigit = true := by
  have hpoint := h.test_peek (.beq (d := '.') (by decide)) (by decide)
  rw [Bool.and_eq_true, hpoint]
  constructor
  · rintro ⟨hhead, hnext⟩
    cases rest with
    | nil => cases hhead
    | cons c cs =>
        obtain rfl : c = '.' := beq_iff_eq.1 hhead
        rw [h.test_peekNext (by decide) onlyAscii_isDigit (by decide)] at hnext
        cases cs with
        | nil => cases hnext
        | cons d ds => exact ⟨d, ds, rfl, hnext⟩
  · rintro ⟨d, ds, rfl, hd⟩
    rw [h.test_peekNext (by decide) onlyAscii_isDigit (by decide)]
    exact ⟨rfl, hd⟩

theorem fraction_eq (h : s.At read rest) : fraction s = .ok () (s.pass (fractionOf rest)) := by
  show (if char s.peek == '.' && (char s.peekNext).isDigit then _ else _ : Scanning Unit) s = _
  by_cases hgoes : ∃ d ds, rest = '.' :: d :: ds ∧ d.isDigit = true
  · rw [if_pos ((test_fraction h).2 hgoes)]
    obtain ⟨d, ds, rfl, hd⟩ := hgoes
    rw [bind_of_ok (advance_eq h (by decide)),
      skipWhile_eq onlyAscii_isDigit (by decide) h.pass_cons, pass_pass, fractionOf, if_pos hd]
    rfl
  · have hstop : fractionOf rest = [] := by
      unfold fractionOf
      split
      · rename_i d ds
        exact if_neg fun hd => hgoes ⟨d, ds, rfl, hd⟩
      · rfl
    rw [if_neg (mt (test_fraction h).1 hgoes), hstop]
    rfl

/-- A numeral from after its first digit. -/
theorem number_eq (h : s.At (read ++ [c]) cs) (hc : c.isDigit = true)
    (hstart : s.start = (encode read).length) :
    ∃ more, (cutNumeral (c :: cs)).1 = c :: more ∧
      number s = .ok () { s.pass more with
        pending := some (.number (Number.ofNumeral (c :: more))) } := by
  have hnumeral := cutNumeral_fst (c :: cs)
  rw [List.takeWhile_cons, if_pos hc, List.dropWhile_cons, if_pos hc, List.cons_append] at hnumeral
  refine ⟨_, hnumeral, ?_⟩
  have hwhole : s.At (read ++ [c]) (cs.takeWhile Char.isDigit ++ cs.dropWhile Char.isDigit) := by
    rw [List.takeWhile_append_dropWhile]
    exact h
  have hcut := Piece.cutNumeral_append (c :: cs)
  rw [hnumeral, List.cons_append, List.cons.injEq] at hcut
  have hpassed := Scanner.At.pass (hcut.2.symm ▸ h)
  rw [List.append_assoc] at hpassed
  rw [number, bind_of_ok (skipWhile_eq onlyAscii_isDigit (by decide) h),
    bind_of_ok (fraction_eq hwhole.pass), pass_pass, bind_of_ok (lexeme_eq hpassed hstart),
    List.singleton_append, String.toList_ofList]
  rfl

/-- A word from after its first character. -/
theorem identifier_eq (h : s.At (read ++ [c]) cs) (hstart : s.start = (encode read).length) :
    identifier s = .ok () { s.pass (cs.takeWhile continuesWord) with
      pending := some (.ofWord (String.ofList (c :: cs.takeWhile continuesWord))) } := by
  have hword : s.At (read ++ [c]) (cs.takeWhile continuesWord ++ cs.dropWhile continuesWord) := by
    rw [List.takeWhile_append_dropWhile]
    exact h
  have hpassed := hword.pass
  rw [List.append_assoc] at hpassed
  rw [identifier, bind_of_ok (skipWhile_eq onlyAscii_continuesWord (by decide) h),
    bind_of_ok (lexeme_eq hpassed hstart), List.singleton_append]
  rfl

/-- A character that is not expected is passed as a whole, from wherever in it the scanner is. -/
theorem unexpected_eq (hsource : s.source.toList = read ++ c :: cs)
    (hstart : s.start = (encode read).length) :
    unexpected s = .error (.failed (.unexpected c) s.line)
      { s with curr := (encode (read ++ [c])).length } := by
  have hall : s.source.toList = read ++ c :: cs ++ [] := by rw [List.append_nil, hsource]
  have hlast : s.bytes.length = (encode (read ++ c :: cs)).length := by
    rw [Scanner.bytes, toList_toUTF8, hsource]
  have hcurr : s.start + c.utf8Size = (encode (read ++ [c])).length := by
    rw [hstart, encode_append, List.length_append, encode_cons, encode_nil, List.append_nil,
      String.length_utf8EncodeChar]
  show (slice s.start s.bytes.length >>= fun text => _) s = _
  rw [bind_of_ok (slice_eq hall hstart hlast), String.toList_ofList, ← hcurr]
  rfl

end Lox.Bytes
