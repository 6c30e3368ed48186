import Lox.Proofs.Bytes.Lexeme

set_option autoImplicit false

/-! # The same lexemes from bytes and from characters

What `scanToken` reads is the piece that `Piece.cut` cuts off the characters that are left
(`scanToken_eq`): the same text, a token of the same kind or the same error, and a gap where there
is neither. The cases are those of the first character.
-/

namespace Lox.Bytes

/-- How a scanner ends that was before a piece. -/
def outcome (p : Piece) (s : Scanner) : EStateM.Result Stop Scanner Unit :=
  let after := { s.pass p.text with line := s.line + p.text.count '\n' }
  match p.sort with
  | .gap => .ok () after
  | .token kind => .ok () { after with pending := some kind }
  | .error cause => .error (.failed cause after.line) after

variable {s : Scanner} {read rest cs text : List Char} {c : Char}

/-- A token on one line. -/
theorem outcome_token (h : '\n' ∉ text) (kind : Token.Kind) :
    outcome ⟨text, .token kind⟩ s = .ok () { s.pass text with pending := some kind } := by
  rw [outcome]
  dsimp only
  rw [List.count_eq_zero.2 h]
  rfl

/-- A gap on one line. -/
theorem outcome_gap (h : '\n' ∉ text) : outcome ⟨text, .gap⟩ s = .ok () (s.pass text) := by
  rw [outcome]
  dsimp only
  rw [List.count_eq_zero.2 h]
  rfl

theorem notMem_of_forall {test : Char → Bool} (hnewline : test '\n' = false)
    (h : ∀ d ∈ text, test d = true) : '\n' ∉ text := fun hmem =>
  Bool.false_ne_true (hnewline.symm.trans (h _ hmem))

theorem notMem_cutNumeral (cs : List Char) : '\n' ∉ (cutNumeral cs).1 := by
  have hdigits : ∀ ds : List Char, '\n' ∉ ds.takeWhile Char.isDigit := fun ds =>
    notMem_of_forall (by decide) fun d => of_mem_takeWhile
  rw [cutNumeral_fst]
  refine List.not_mem_append (hdigits cs) ?_
  unfold fractionOf
  split
  · split
    · exact List.not_mem_cons_of_ne_of_not_mem (by decide) (hdigits _)
    · exact List.not_mem_nil
  · exact List.not_mem_nil

/-! ## One case for each first character -/

section

variable (h : s.At read (c :: cs))

theorem scanFrom_single {m : Mark} (hm : m.text.toList = [c]) :
    scanFrom c (.single m) (s.pass [c]) = outcome ((Start.single m).cut c cs).1 s := by
  have hline : '\n' ∉ [c] := mt List.mem_singleton.1 (ascii_of_mark hm).2.symm
  exact (outcome_token hline _).symm

include h in
theorem scanFrom_pair {alone extended : Mark} (hm : alone.text.toList = [c]) :
    scanFrom c (.pair alone extended) (s.pass [c]) =
      outcome ((Start.pair alone extended).cut c cs).1 s := by
  have hne := (ascii_of_mark hm).2.symm
  show (matchByte '=' >>= fun matched => if matched then leave (.mark extended)
    else leave (.mark alone) : Scanning Unit) (s.pass [c]) = _
  by_cases hcs : cs.head? = some '='
  · obtain ⟨tail, rfl⟩ := List.head?_eq_some_iff.1 hcs
    have hline : '\n' ∉ [c, '='] := by simp [hne]
    rw [bind_of_ok (matchByte_eq h.pass_cons (by decide) (by decide)), if_pos rfl, pass_pass]
    exact (outcome_token hline _).symm
  · have hline : '\n' ∉ [c] := mt List.mem_singleton.1 hne
    have halone : ∀ tail, cs ≠ '=' :: tail := fun tail htail => hcs (by rw [htail]; rfl)
    rw [bind_of_ok (matchByte_ne h.pass_cons (by decide) (by decide) hcs),
      if_neg Bool.false_ne_true, Start.cut_alone halone]
    exact (outcome_token hline _).symm

theorem scanFrom_blank :
    scanFrom c .blank (s.pass [c]) = outcome (Start.blank.cut c cs).1 s := by
  show (if c == '\n' then countLines 1 else pure () : Scanning Unit) (s.pass [c]) = _
  by_cases hc : c = '\n'
  · subst hc
    rfl
  · rw [if_neg (by simpa using hc)]
    exact (outcome_gap (mt List.mem_singleton.1 (Ne.symm hc))).symm

include h in
theorem scanFrom_slash (hc : c = '/') :
    scanFrom c .slash (s.pass [c]) = outcome (Start.slash.cut c cs).1 s := by
  subst hc
  show (matchByte '/' >>= fun matched => if matched then comment
    else leave (.mark .slash) : Scanning Unit) (s.pass ['/']) = _
  by_cases hcs : cs.head? = some '/'
  · obtain ⟨tail, rfl⟩ := List.head?_eq_some_iff.1 hcs
    have htail := List.takeWhile_append_dropWhile (p := (· != '\n')) (l := tail)
    have hline : '\n' ∉ tail.takeWhile (· != '\n') :=
      notMem_of_forall (by decide) fun d => of_mem_takeWhile
    have hend : ∀ d ∈ (tail.dropWhile (· != '\n')).head?, d = '\n' := fun d hd => by
      obtain ⟨rest, hrest⟩ := List.head?_eq_some_iff.1 (Option.mem_def.1 hd)
      exact Piece.eq_of_dropWhile hrest
    have hnext := h.pass_cons.pass_cons
    rw [← htail] at hnext
    rw [bind_of_ok (matchByte_eq h.pass_cons (by decide) (by decide)), if_pos rfl,
      comment_eq hnext hline hend, pass_pass, pass_pass]
    exact (outcome_gap (by simp [hline])).symm
  · have halone : ∀ tail, cs ≠ '/' :: tail := fun tail htail => hcs (by rw [htail]; rfl)
    rw [bind_of_ok (matchByte_ne h.pass_cons (by decide) (by decide) hcs),
      if_neg Bool.false_ne_true, Start.cut_slash halone]
    exact (outcome_token (by decide) _).symm

include h in
theorem scanFrom_quote (hc : c = '"') :
    scanFrom c .quote (s.pass [c]) = outcome (Start.quote.cut c cs).1 s := by
  subst hc
  show string (s.pass ['"']) = _
  by_cases hcs : '"' ∈ cs
  · obtain ⟨contents, rest, rfl, hcontents⟩ := List.eq_append_cons_of_mem hcs
    have hne : ∀ d ∈ contents, (d != '"') = true := fun d hd =>
      bne_iff_ne.2 fun heq => hcontents (heq ▸ hd)
    rw [string_closed h.pass_cons hcontents, Start.cut_string hne, pass_pass, outcome]
    simp [Scanner.pass]
  · have hne : ∀ d ∈ cs, (d != '"') = true := fun d hd => bne_iff_ne.2 fun heq => hcs (heq ▸ hd)
    rw [string_unterminated h.pass_cons hcs, Start.cut_unterminated hne, pass_pass, outcome]
    simp [Scanner.pass]

include h in
theorem scanFrom_digit (hstart : s.start = s.curr) (hc : c.isDigit = true) :
    scanFrom c .digit (s.pass [c]) = outcome (Start.digit.cut c cs).1 s := by
  obtain ⟨more, hnumeral, hnumber⟩ := number_eq h.pass_cons hc (hstart.trans h.curr)
  have hline := notMem_cutNumeral (c :: cs)
  rw [hnumeral] at hline
  show number (s.pass [c]) = _
  rw [hnumber, Start.cut, hnumeral, pass_pass]
  exact (outcome_token hline _).symm

include h in
theorem scanFrom_letter (hstart : s.start = s.curr) (hc : startsWord c = true) :
    scanFrom c .letter (s.pass [c]) = outcome (Start.letter.cut c cs).1 s := by
  have hne : '\n' ≠ c := fun heq => by
    rw [← heq] at hc
    exact absurd hc (by decide)
  have hline : '\n' ∉ cs.takeWhile continuesWord :=
    notMem_of_forall (by decide) fun d => of_mem_takeWhile
  show identifier (s.pass [c]) = _
  rw [identifier_eq h.pass_cons (hstart.trans h.curr), pass_pass]
  exact (outcome_token (by simp [hne, hline]) _).symm

end

theorem scanToken_other (h : s.At read (c :: cs)) (hstart : s.start = s.curr)
    (hother : Start.of c = .other) : scanToken s = outcome (Start.other.cut c cs).1 s := by
  obtain ⟨b, bs, hb⟩ := exists_first c
  have hholds := Start.holds_of c
  rw [hother] at hholds
  have hne : c ≠ '\n' := by
    rintro rfl
    exact absurd hholds.1 (by decide)
  have hread : unexpected { s with curr := s.curr + 1 } = .error (.failed (.unexpected c) s.line)
      { s with curr := (encode (read ++ [c])).length } :=
    unexpected_eq h.chars (hstart.trans h.curr)
  rw [scanToken, bind_of_ok (advance_first h hb), start_of_first hb, hother]
  refine hread.trans ?_
  rw [outcome]
  simp [Start.cut, Scanner.pass, hne, h.curr]

/-- What is read from the bytes is the piece that is cut off the characters. -/
theorem scanToken_eq (h : s.At read (c :: cs)) (hstart : s.start = s.curr) :
    scanToken s = outcome (Piece.cut c cs).1 s := by
  have hholds := Start.holds_of c
  rw [Piece.cut_eq]
  rcases start_other_or_ascii c with hother | hc
  · rw [hother]
    exact scanToken_other h hstart hother
  rw [scanToken_ascii h hc]
  cases hsort : Start.of c with
  | single m =>
      rw [hsort] at hholds
      exact scanFrom_single hholds
  | pair alone extended =>
      rw [hsort] at hholds
      exact scanFrom_pair h hholds.1
  | blank => exact scanFrom_blank
  | slash =>
      rw [hsort] at hholds
      exact scanFrom_slash h hholds
  | quote =>
      rw [hsort] at hholds
      exact scanFrom_quote h hholds
  | digit =>
      rw [hsort] at hholds
      exact scanFrom_digit h hstart hholds
  | letter =>
      rw [hsort] at hholds
      exact scanFrom_letter h hstart hholds
  | other =>
      have hread := scanToken_ascii h hc
      rw [hsort] at hread
      exact hread.symm.trans (scanToken_other h hstart hsort)

end Lox.Bytes
