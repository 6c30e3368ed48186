import Mathlib.Data.List.Forall2
import Lox.Proofs.Bytes.Agreement

set_option autoImplicit false

/-! # The partition of a source into bytes

A scanner over the bytes of a source never stops with a fault. What it gives at its calls are the
items of the scan of its characters, one by one and in their order, and then nothing
(`nth_shows`). So its cuts partition the source (`partitions`): each of them starts and ends between
two characters, and its text is the longest lexeme at its place, or an error.

`Scanner.Stands` holds between two lexemes. The induction goes along the pieces of the characters
that are left; gaps are passed on the way.
-/

namespace Lox.Bytes

/-- The cut is this item, with its place counted in bytes. -/
structure Cut.Shows (source : String) (cut : Cut) (item : Item) : Prop where
  found : cut.found = item.found
  start : cut.start = (encode (source.toList.take item.start)).length
  stop : cut.stop = (encode (source.toList.take item.stop)).length

/-- The items of the characters that are left, and the end of the source. -/
def itemsFrom (read rest : List Char) : List Item :=
  Item.locate (1 + read.count '\n') read.length (Piece.split rest) ++
    [.token ⟨.eof, "", 1 + (read ++ rest).count '\n', (read ++ rest).length⟩]

theorem itemsFrom_nil (source : String) :
    itemsFrom [] source.toList = (Scan.ofText source 0).allItems := by
  rw [Scan.allItems, Scan.ofText, Nat.zero_add]
  rfl

theorem itemsFrom_cons (read : List Char) (c : Char) (cs : List Char) :
    itemsFrom read (c :: cs) =
      (Item.ofPiece? (Piece.cut c cs).1 (1 + (read ++ (Piece.cut c cs).1.text).count '\n')
        read.length).toList ++ itemsFrom (read ++ (Piece.cut c cs).1.text) (Piece.cut c cs).2 := by
  have hall : read ++ c :: cs = read ++ (Piece.cut c cs).1.text ++ (Piece.cut c cs).2 := by
    rw [List.append_assoc, Piece.cut_append]
  have hlines : (read ++ (Piece.cut c cs).1.text).count '\n' =
      read.count '\n' + (Piece.cut c cs).1.text.count '\n' := List.count_append
  have hlength : (read ++ (Piece.cut c cs).1.text).length =
      read.length + (Piece.cut c cs).1.text.length := List.length_append
  rw [itemsFrom, itemsFrom, Piece.split_cons, Item.locate, hall, hlines, hlength, Nat.add_assoc,
    List.append_assoc (Option.toList _)]

/-- The scanner stands between two lexemes. -/
structure Scanner.Stands (source : String) (s : Scanner) (read rest : List Char) : Prop extends
    s.At read rest where
  same : s.source = source
  line : s.line = 1 + read.count '\n'

variable {source : String} {s : Scanner} {read rest cs : List Char} {c : Char}

namespace Scanner.Stands

theorem ofText (source : String) : (Scanner.ofText source).Stands source [] source.toList :=
  ⟨⟨rfl, rfl⟩, rfl, rfl⟩

/-- A scanner behind a piece. -/
theorem past {text : List Char} (h : s.Stands source read (text ++ rest))
    (pending : Option Token.Kind) :
    Stands source { s.pass text with line := s.line + text.count '\n', pending := pending }
      (read ++ text) rest where
  chars := h.toAt.pass.chars
  curr := h.toAt.pass.curr
  same := h.same
  line := by
    show s.line + _ = _
    rw [h.line, List.count_append, Nat.add_assoc]

/-- The place behind what was read. -/
theorem take_length (h : s.Stands source read rest) :
    (encode (source.toList.take read.length)).length = s.curr := by
  rw [← h.same, h.chars, List.take_left, h.curr]

end Scanner.Stands

/-! ## One call -/

/-- What the scanner gives for a piece that is an item. -/
theorem Cut.shows {p : Piece} {item : Item} {found : Found} {after : Scanner} {line : Nat}
    (h : s.Stands source read (p.text ++ rest))
    (hitem : Item.ofPiece? p line read.length = some item) (hfound : found = item.found)
    (hcurr : after.curr = (s.pass p.text).curr) (hstart : after.start = s.curr) :
    Cut.Shows source ⟨found, after.start, after.curr⟩ item := by
  have hplace : item.start = read.length ∧ item.stop = (read ++ p.text).length := by
    obtain ⟨text, sort⟩ := p
    rw [List.length_append]
    cases sort with
    | gap => cases hitem
    | token kind =>
        cases hitem
        exact ⟨rfl, congrArg (read.length + ·) String.length_ofList⟩
    | error cause =>
        cases hitem
        exact ⟨rfl, rfl⟩
  refine ⟨hfound, ?_, ?_⟩
  · rw [hplace.1, h.take_length, hstart]
  · have hsource : source.toList = read ++ p.text ++ rest := by
      rw [← h.same, h.chars, List.append_assoc]
    rw [hplace.2, hsource, List.take_left, hcurr]
    exact h.toAt.pass.curr

/-- A lexeme is read, and given if it is a token or an error. -/
theorem cut_eq (h : s.Stands source read (c :: cs)) :
    ∃ s', s'.Stands source (read ++ (Piece.cut c cs).1.text) (Piece.cut c cs).2 ∧
      s'.start = s.curr ∧ s'.curr = (s.pass (Piece.cut c cs).1.text).curr ∧
      cut s = .ok ((Item.ofPiece? (Piece.cut c cs).1 s'.line read.length).map
        fun item => ⟨item.found, s'.start, s'.curr⟩) s' := by
  have hbegun : Scanner.Stands source { s with start := s.curr, pending := none } read (c :: cs) :=
    ⟨⟨h.chars, h.curr⟩, h.same, h.line⟩
  have hread := scanToken_eq hbegun.toAt rfl
  have hcut := Piece.cut_append c cs
  generalize Piece.cut c cs = piece at hread hcut ⊢
  obtain ⟨⟨text, sort⟩, after⟩ := piece
  rw [← hcut] at hbegun
  have hpassed := hbegun.past none
  refine ⟨_, hpassed, rfl, rfl, ?_⟩
  rw [cut, hread]
  cases sort with
  | gap => rfl
  | error cause => rfl
  | token kind =>
      rw [outcome]
      dsimp only
      rw [lexeme_eq hpassed.toAt h.curr]
      rfl

theorem Scanner.Stands.curr_le (h : s.Stands source read rest) : s.curr ≤ s.bytes.length := by
  rw [h.length_bytes]
  exact Nat.le_add_right _ _

theorem nextWithin_nil (h : s.Stands source read []) (budget : Nat) :
    nextWithin (budget + 1) s =
      .ok (some ⟨.token .eof "" s.line, s.bytes.length, s.bytes.length⟩)
        { s with curr := s.bytes.length + 1 } := by
  show (if s.curr ≤ s.bytes.length then if s.isAtEnd = true then _ else _ else _ :
    Scanning (Option Cut)) s = _
  exact (congrFun (if_pos h.curr_le) s).trans (congrFun (if_pos h.isAtEnd_nil) s)

theorem nextWithin_cons (h : s.Stands source read (c :: cs)) (budget : Nat) :
    nextWithin (budget + 1) s = (cut >>= fun
      | some c => pure (some c)
      | none => nextWithin budget : Scanning (Option Cut)) s := by
  have hmore : ¬ s.isAtEnd = true := by
    rw [h.isAtEnd_cons]
    exact Bool.false_ne_true
  show (if s.curr ≤ s.bytes.length then if s.isAtEnd = true then _ else _ else _ :
    Scanning (Option Cut)) s = _
  exact (congrFun (if_pos h.curr_le) s).trans (congrFun (if_neg hmore) s)

/-- A call gives the next item. After it the other items are left, or the end was given. -/
theorem nextWithin_shows {budget : Nat} (h : s.Stands source read rest)
    (hbudget : rest.length < budget) :
    ∃ cut item s', nextWithin budget s = .ok (some cut) s' ∧ cut.Shows source item ∧
      ((∃ read' rest', s'.Stands source read' rest' ∧
          itemsFrom read rest = item :: itemsFrom read' rest') ∨
        (s'.bytes.length < s'.curr ∧ itemsFrom read rest = [item])) := by
  fun_induction Piece.split rest generalizing s read budget with
  | case1 =>
      obtain ⟨budget, rfl⟩ := Nat.exists_eq_succ_of_ne_zero (Nat.ne_zero_of_lt hbudget)
      have hend : (encode (source.toList.take read.length)).length = s.bytes.length := by
        rw [h.take_length, h.length_bytes, encode_nil]
        rfl
      refine ⟨_, .token ⟨.eof, "", 1 + read.count '\n', read.length⟩, _, nextWithin_nil h budget,
        ⟨?_, hend.symm, hend.symm⟩, .inr ⟨Nat.lt_succ_self _, ?_⟩⟩
      · rw [h.line]
        rfl
      · rw [itemsFrom, Piece.split_nil, List.append_nil]
        rfl
  | case2 c cs ih =>
      obtain ⟨budget, rfl⟩ := Nat.exists_eq_succ_of_ne_zero (Nat.ne_zero_of_lt hbudget)
      obtain ⟨s', hstands, hstart, hcurr, hcut⟩ := cut_eq h
      rw [hstands.line] at hcut
      rw [nextWithin_cons h, bind_of_ok hcut, itemsFrom_cons]
      cases hitem : Item.ofPiece? (Piece.cut c cs).1
          (1 + (read ++ (Piece.cut c cs).1.text).count '\n') read.length with
      | none =>
          have hshorter := Piece.length_cut_snd_le c cs
          exact ih hstands (Nat.lt_of_le_of_lt hshorter (Nat.lt_of_succ_lt_succ hbudget))
      | some item =>
          rw [← Piece.cut_append c cs] at h
          exact ⟨_, item, s', rfl, Cut.shows h hitem rfl hcurr hstart, .inl ⟨_, _, hstands, rfl⟩⟩

/-! ## All calls -/

theorem next_shows (h : s.Stands source read rest) :
    ∃ cut item s', next s = .ok (some cut) s' ∧ cut.Shows source item ∧
      ((∃ read' rest', s'.Stands source read' rest' ∧
          itemsFrom read rest = item :: itemsFrom read' rest') ∨
        (s'.bytes.length < s'.curr ∧ itemsFrom read rest = [item])) :=
  nextWithin_shows h h.length_lt_budget

theorem nth_zero {s s' : Scanner} {cut : Option Cut} (h : next s = .ok cut s') :
    nth s 0 = .ok cut := by
  rw [nth, h]

theorem nth_succ {s s' : Scanner} {cut : Option Cut} (h : next s = .ok cut s') (n : Nat) :
    nth s (n + 1) = nth s' n := by
  rw [nth, h]

/-- Nothing is given after the end. -/
theorem nth_of_lt (h : s.bytes.length < s.curr) (n : Nat) : nth s n = .ok none := by
  have hnext : next s = .ok none s := by
    show (if s.curr ≤ s.bytes.length then _ else _ : Scanning (Option Cut)) s = _
    rw [if_neg (Nat.not_le_of_lt h)]
    rfl
  induction n with
  | zero => exact nth_zero hnext
  | succ n ih => rw [nth_succ hnext, ih]

/-- The calls give the items in their order, and then nothing. -/
theorem nth_shows (h : s.Stands source read rest) :
    ∃ cuts : List Cut, (∀ n, nth s n = .ok cuts[n]?) ∧
      List.Forall₂ (Cut.Shows source) cuts (itemsFrom read rest) := by
  generalize hitems : itemsFrom read rest = items
  induction items generalizing s read rest with
  | nil => exact absurd hitems (List.append_ne_nil_of_right_ne_nil _ (List.cons_ne_nil _ _))
  | cons item items ih =>
      obtain ⟨cut, first, s', hnext, hshows, hrest⟩ := next_shows h
      rcases hrest with ⟨read', rest', hstands, hcons⟩ | ⟨hlt, hcons⟩
      · rw [hitems, List.cons.injEq] at hcons
        obtain ⟨rfl, hcons⟩ := hcons
        obtain ⟨cuts, hcuts, hall⟩ := ih hstands hcons.symm
        refine ⟨cut :: cuts, fun n => ?_, .cons hshows hall⟩
        cases n with
        | zero => exact nth_zero hnext
        | succ n => rw [nth_succ hnext, hcuts, List.getElem?_cons_succ]
      · rw [hitems, List.cons.injEq] at hcons
        obtain ⟨rfl, rfl⟩ := hcons
        refine ⟨[cut], fun n => ?_, .cons hshows .nil⟩
        cases n with
        | zero => exact nth_zero hnext
        | succ n => rw [nth_succ hnext, nth_of_lt hlt, List.getElem?_cons_succ, List.getElem?_nil]

/-! ## The partition -/

/-- The cut covers this text of a source, with what stands before it and after it. -/
structure Cut.StandsAt (source : String) (cut : Cut) (before text after : List Char) : Prop where
  start : cut.start = (String.ofList before).utf8ByteSize
  stop : cut.stop = (String.ofList (before ++ text)).utf8ByteSize
  /-- Both places are between two characters. -/
  startValid : (String.Pos.Raw.mk cut.start).IsValid source
  stopValid : (String.Pos.Raw.mk cut.stop).IsValid source
  /-- The bytes from one place to the other are those of the text. -/
  bytes : source.toUTF8.extract cut.start cut.stop = (String.ofList text).toUTF8
  line : cut.found.line = 1 + (before ++ text).count '\n'
  fits : cut.found.Fits text after

/-- Where the last of some cuts ends, or the place before them. -/
def stopAfter (place : Nat) : List Cut → Nat
  | [] => place
  | cut :: cuts => stopAfter cut.stop cuts

/-- The cuts partition a source. -/
structure Partitions (cuts : List Cut) (source : String) : Prop where
  /-- The spans are disjoint and in order. -/
  increasing : cuts.Pairwise (·.stop ≤ ·.start)
  /-- Each cut comes behind the one before it and a gap, and is what its text should be. Only the
  last one covers no text. -/
  stands : ∀ xs cut ys, cuts = xs ++ cut :: ys →
    ∃ read gap text after, source.toList = read ++ gap ++ text ++ after ∧
      (String.ofList read).utf8ByteSize = stopAfter 0 xs ∧ Gap gap (text ++ after) ∧
      cut.StandsAt source (read ++ gap) text after ∧ (text = [] ↔ ys = [])
  /-- The last cut is the end of the source, and no other one is. -/
  eof : ∃ xs, cuts = xs ++ [⟨.token .eof "" (1 + source.toList.count '\n'),
      source.utf8ByteSize, source.utf8ByteSize⟩] ∧
    ∀ cut ∈ xs, ∀ lexeme line, cut.found ≠ .token .eof lexeme line

/-- The bytes of more characters are more bytes. -/
theorem length_encode_take_le {m n : Nat} (h : m ≤ n) (cs : List Char) :
    (encode (cs.take m)).length ≤ (encode (cs.take n)).length := by
  obtain ⟨more, hmore⟩ := List.take_prefix_take_left (l := cs) h
  rw [← hmore, encode_append, List.length_append]
  exact Nat.le_add_right _ _

section

variable {α β : Type} {R : α → β → Prop}

theorem exists_of_forall₂_append {xs ys : List α} {a : α} {bs : List β}
    (h : List.Forall₂ R (xs ++ a :: ys) bs) :
    ∃ xs' b ys', bs = xs' ++ b :: ys' ∧ List.Forall₂ R xs xs' ∧ R a b ∧ List.Forall₂ R ys ys' := by
  induction xs generalizing bs with
  | nil =>
      cases h with
      | cons hab hys => exact ⟨[], _, _, rfl, .nil, hab, hys⟩
  | cons x xs ih =>
      cases h with
      | cons hx hrest =>
          obtain ⟨xs', b, ys', rfl, hxs, hab, hys⟩ := ih hrest
          exact ⟨_ :: xs', b, ys', rfl, .cons hx hxs, hab, hys⟩

end

theorem stopAfter_eq {cuts : List Cut} {items : List Item}
    (h : List.Forall₂ (Cut.Shows source) cuts items) (place : Nat) :
    stopAfter (encode (source.toList.take place)).length cuts =
      (encode (source.toList.take (Item.stopAfter place items))).length := by
  induction h generalizing place with
  | nil => rfl
  | cons hshows _ ih => rw [stopAfter, Item.stopAfter, hshows.stop, ih]

theorem pairwise_of_shows {cuts : List Cut} {items : List Item}
    (h : List.Forall₂ (Cut.Shows source) cuts items) (hitems : items.Pairwise (·.stop ≤ ·.start)) :
    cuts.Pairwise (·.stop ≤ ·.start) := by
  induction h with
  | nil => exact .nil
  | cons hshows hrest ih =>
      obtain ⟨hfirst, hitems⟩ := List.pairwise_cons.1 hitems
      refine List.pairwise_cons.2 ⟨fun cut hcut => ?_, ih hitems⟩
      obtain ⟨xs, ys, rfl⟩ := List.append_of_mem hcut
      obtain ⟨xs', item, ys', rfl, -, hshows', -⟩ := exists_of_forall₂_append hrest
      rw [hshows.stop, hshows'.start]
      exact length_encode_take_le (hfirst item (List.mem_append_right xs' List.mem_cons_self)) _

/-- A cut stands where its item does. -/
theorem Cut.Shows.standsAt {cut : Cut} {item : Item} {before text after : List Char}
    (h : cut.Shows source item) (hsource : source.toList = before ++ text ++ after)
    (hitem : item.StandsAt 0 before text after) : cut.StandsAt source before text after := by
  have hstart : cut.start = (encode before).length := by
    rw [h.start, hitem.start, Nat.zero_add, hsource, List.append_assoc, List.take_left]
  have hstop : cut.stop = (encode (before ++ text)).length := by
    rw [h.stop, hitem.stop, Nat.zero_add, hsource, List.take_left]
  refine ⟨?_, ?_, ?_, ?_, ?_, ?_, ?_⟩
  · rw [hstart, utf8ByteSize_ofList]
  · rw [hstop, utf8ByteSize_ofList]
  · rw [hstart]
    exact isValid_length_encode (hsource.trans (List.append_assoc _ _ _))
  · rw [hstop]
    exact isValid_length_encode hsource
  · rw [hstart, hstop]
    exact extract_toByteArray hsource
  · rw [h.found, hitem.line]
  · rw [h.found]
    exact hitem.fits

theorem partitions_of_shows {cuts : List Cut}
    (h : List.Forall₂ (Cut.Shows source) cuts (Scan.ofText source 0).allItems) :
    Partitions cuts source := by
  have hscan := Scan.partitions_ofText source 0
  refine ⟨pairwise_of_shows h hscan.increasing, fun xs cut ys hcuts => ?_, ?_⟩
  · rw [hcuts] at h
    obtain ⟨xs', item, ys', hitems, hxs, hshows, hys⟩ := exists_of_forall₂_append h
    obtain ⟨read, gap, text, after, hsource, hread, hgap, hstands, hlast⟩ :=
      hscan.stands xs' item ys' hitems
    have hplace := stopAfter_eq hxs 0
    rw [List.take_zero, encode_nil, ← hread, Nat.zero_add, hsource, List.append_assoc _ text,
      List.append_assoc read, List.take_left, ← utf8ByteSize_ofList] at hplace
    refine ⟨read, gap, text, after, hsource, hplace.symm, hgap,
      hshows.standsAt hsource hstands, hlast.trans ?_⟩
    rw [← List.length_eq_zero_iff, ← hys.length_eq, List.length_eq_zero_iff]
  · have hitems : List.Forall₂ (flip (Cut.Shows source))
        ((Scan.ofText source 0).items ++ [.token (Scan.ofText source 0).eof]) cuts := h.flip
    obtain ⟨xs, ⟨found, start, stop⟩, ys, rfl, hxs, hlast, hys⟩ :=
      exists_of_forall₂_append hitems
    cases hys
    have hend : (encode (source.toList.take (0 + source.length))).length = source.utf8ByteSize := by
      rw [Nat.zero_add, ← String.length_toList, List.take_length, ← utf8ByteSize_ofList,
        String.ofList_toList]
    have heof := hscan.eof
    obtain ⟨hfound, hstart, hstop⟩ := hlast
    rw [heof] at hfound hstart hstop
    obtain rfl : found = .token .eof "" (1 + source.toList.count '\n') := hfound
    obtain rfl : start = _ := hstart.trans hend
    obtain rfl : stop = _ := hstop.trans hend
    refine ⟨xs, rfl, fun cut hcut lexeme line hcutEof => ?_⟩
    obtain ⟨before, after, rfl⟩ := List.append_of_mem hcut
    obtain ⟨before', item, after', hitems, -, hshows, -⟩ := exists_of_forall₂_append hxs.flip
    rw [hshows.found] at hcutEof
    cases item with
    | error e => cases hcutEof
    | token t =>
        injection hcutEof with hkind
        refine hscan.notEof t ?_ hkind
        rw [hitems]
        exact List.mem_append_right before' List.mem_cons_self

/-- A scanner over the bytes of a source never stops with a fault. It gives the items of the source
one by one, the end once, and nothing after it, and what it gives partitions the source. -/
theorem partitions (source : String) :
    ∃ cuts : List Cut, (∀ n, nth (Scanner.ofText source) n = .ok cuts[n]?) ∧
      List.Forall₂ (Cut.Shows source) cuts (Scan.ofText source 0).allItems ∧
      Partitions cuts source := by
  obtain ⟨cuts, hcuts, hshows⟩ := nth_shows (Scanner.Stands.ofText source)
  rw [itemsFrom_nil] at hshows
  exact ⟨cuts, hcuts, hshows, partitions_of_shows hshows⟩

/-- A cut can lie between two bytes that are no characters: here the second one starts at the third
of four bytes. -/
example : (nth (.ofText "éé") 1).toOption.join.map (fun c => (c.start, c.stop)) = some (2, 4) := by
  decide +kernel

end Lox.Bytes
