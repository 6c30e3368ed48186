import Lox.Proofs.Scanning.Lexeme

set_option autoImplicit false

/-! # The partition of a text

The items of a text cover it but for gaps of blanks and comments (`Scan.partitions_ofText`). They
come in the order of the text, each is the longest lexeme at its place or an error, and one token at
the end says that nothing is left.

`Lays` follows the scanner through a text: what was read before, what is left, and the items of
what is left. A gap that is cut off in several pieces is put together on the way
(`Lays.afterGap`).
-/

namespace Lox

/-- Blanks and comments, with what stands after them. A comment ends with its line. -/
inductive Gap : List Char → List Char → Prop
  | nil (after : List Char) : Gap [] after
  | blank {c : Char} {gap after : List Char} (h : isBlank c = true) (hgap : Gap gap after) :
      Gap (c :: gap) after
  | comment {text gap after : List Char} (h : '\n' ∉ text)
      (hend : ∀ c ∈ (gap ++ after).head?, c = '\n') (hgap : Gap gap after) :
      Gap ('/' :: '/' :: (text ++ gap)) after

/-- A token or an error without its place in the source. -/
inductive Found
  | token (kind : Token.Kind) (lexeme : String) (line : Nat)
  | error (cause : LexError.Cause) (line : Nat)
deriving Inhabited

namespace Found

/-- The line on which a token or an error ends. -/
def line : Found → Nat
  | token _ _ line => line
  | error _ line => line

/-- This is what the scanner should make of a text, given what stands after it. -/
inductive Fits : Found → List Char → List Char → Prop
  | token {kind : Token.Kind} {lexeme : String} {line : Nat} {text after : List Char}
      (htext : lexeme = String.ofList text) (h : LongestLexeme text kind after)
      (hcomment : ¬ StartsComment (text ++ after)) : Fits (.token kind lexeme line) text after
  /-- A character with which no token, no string and no gap starts. -/
  | unexpected {c : Char} {line : Nat} {after : List Char} (hblank : isBlank c = false)
      (hquote : c ≠ '"') (h : ∀ text kind, Lexeme text kind → ¬ text <+: c :: after) :
      Fits (.error (.unexpected c) line) [c] after
  /-- A quote and everything after it. -/
  | unterminated {line : Nat} {contents : List Char} (h : '"' ∉ contents) :
      Fits (.error .unterminatedString line) ('"' :: contents) []
  | eof (line : Nat) : Fits (.token .eof "" line) [] []

end Found

namespace Item

/-- The item without its place. -/
def found : Item → Found
  | token t => .token t.kind t.lexeme t.line
  | error e => .error e.cause e.line

/-- The offset of the first character of an item. -/
def start : Item → Nat
  | token t => t.start
  | error e => e.start

/-- The offset after the last character of an item. -/
def stop : Item → Nat
  | token t => t.stop
  | error e => e.stop

/-- Where the last of some items ends, or the place before them. -/
def stopAfter (place : Nat) : List Item → Nat
  | [] => place
  | item :: items => stopAfter item.stop items

/-- The item covers this text, in its place in a source whose first character has this offset. -/
structure StandsAt (item : Item) (offset : Nat) (before text after : List Char) : Prop where
  start : item.start = offset + before.length
  stop : item.stop = offset + (before ++ text).length
  line : item.found.line = 1 + (before ++ text).count '\n'
  fits : item.found.Fits text after

end Item

/-- The items of what is left of a source after what was read of it. -/
inductive Lays (offset : Nat) : List Char → List Char → List Item → Prop
  | eof {before gap : List Char} {item : Item} (hgap : Gap gap [])
      (h : item.StandsAt offset (before ++ gap) [] []) : Lays offset before gap [item]
  | item {before gap text after : List Char} {item : Item} {items : List Item}
      (hgap : Gap gap (text ++ after)) (hne : text ≠ [])
      (h : item.StandsAt offset (before ++ gap) text after)
      (hrest : Lays offset (before ++ gap ++ text) after items) :
      Lays offset before (gap ++ (text ++ after)) (item :: items)

/-! ## Pieces -/

namespace Piece

variable {p : Piece} {after : List Char} {offset : Nat} {before : List Char}

/-- A piece that is an item stands where the piece does. -/
theorem Reads.standsAt {item : Item} (h : p.Reads after)
    (hitem : Item.ofPiece? p (1 + (before ++ p.text).count '\n') (offset + before.length) =
      some item) : item.StandsAt offset before p.text after := by
  have hstop : ∀ text : List Char, offset + before.length + text.length =
      offset + (before ++ text).length := fun text => by
    rw [List.length_append, Nat.add_assoc]
  cases h with
  | blank | comment => cases hitem
  | token h hcomment =>
      cases hitem
      refine ⟨rfl, ?_, rfl, .token rfl h hcomment⟩
      show _ + (String.ofList _).length = _
      rw [String.length_ofList, hstop]
  | unexpected hblank hquote h =>
      cases hitem
      exact ⟨rfl, hstop _, rfl, .unexpected hblank hquote h⟩
  | unterminated h =>
      cases hitem
      exact ⟨rfl, hstop _, rfl, .unterminated h⟩

/-- A piece that is no item is a gap. -/
theorem Reads.gap {gap : List Char} {line start : Nat} (h : p.Reads (gap ++ after))
    (hitem : Item.ofPiece? p line start = none) (hgap : Gap gap after) :
    Gap (p.text ++ gap) after := by
  generalize hrest : gap ++ after = rest at h
  cases h with
  | blank h => exact .blank h hgap
  | comment h hend => exact .comment h (hrest ▸ hend) hgap
  | token | unexpected | unterminated => cases hitem

end Piece

namespace Lays

variable {offset : Nat} {before rest : List Char} {items : List Item}

/-- A gap before a gap. -/
theorem afterGap {p : Piece} {line start : Nat} (h : Lays offset (before ++ p.text) rest items)
    (hp : p.Reads rest) (hitem : Item.ofPiece? p line start = none) :
    Lays offset before (p.text ++ rest) items := by
  cases h with
  | eof hgap h =>
      rw [List.append_assoc] at h
      exact .eof (Piece.Reads.gap (by rwa [List.append_nil]) hitem hgap) h
  | item hgap hne h hrest =>
      rw [List.append_assoc before] at h hrest
      rw [← List.append_assoc]
      exact .item (hp.gap hitem hgap) hne h hrest

/-- An item without a gap before it. -/
theorem first {text : List Char} {item : Item} (hne : text ≠ [])
    (h : item.StandsAt offset before text rest) (hrest : Lays offset (before ++ text) rest items) :
    Lays offset before (text ++ rest) (item :: items) := by
  have hbefore : before ++ [] = before := List.append_nil before
  exact .item (.nil _) hne (by rwa [hbefore]) (by rwa [hbefore])

/-- The scanner lays out what is left of a source. -/
theorem of_split (offset : Nat) (before cs : List Char) :
    Lays offset before cs
      (Item.locate (1 + before.count '\n') (offset + before.length) (Piece.split cs) ++
        [.token ⟨.eof, "", 1 + (before ++ cs).count '\n', offset + (before ++ cs).length⟩]) := by
  fun_induction Piece.split cs generalizing before with
  | case1 =>
      refine .eof (.nil _) ?_
      rw [List.append_nil]
      refine ⟨rfl, ?_, ?_, .eof _⟩
      · rw [List.append_nil]
        rfl
      · rw [List.append_nil]
        rfl
  | case2 c cs ih =>
      have hcut := Piece.cut_append c cs
      have hreads := Piece.reads_cut c cs
      have hne := Piece.cut_text_ne_nil c cs
      generalize Piece.cut c cs = cut at hcut hreads hne ih
      obtain ⟨p, rest⟩ := cut
      have hih := ih (before ++ p.text)
      rw [List.append_assoc, List.count_append, List.length_append, ← Nat.add_assoc,
        ← Nat.add_assoc] at hih
      rw [Item.locate, ← hcut]
      cases hitem : Item.ofPiece? p (1 + before.count '\n' + p.text.count '\n')
          (offset + before.length) with
      | none => exact hih.afterGap hreads hitem
      | some item =>
          refine .first hne (hreads.standsAt ?_) hih
          rw [List.count_append, ← Nat.add_assoc, hitem]

/-! ## Items that are laid out -/

theorem le_start (h : Lays offset before rest items) :
    ∀ item ∈ items, offset + before.length ≤ item.start := by
  induction h with
  | eof hgap h =>
      intro item hitem
      rw [List.mem_singleton.1 hitem, h.start, List.length_append]
      omega
  | item hgap hne h hrest ih =>
      intro item hitem
      rcases List.mem_cons.1 hitem with rfl | hitem
      · rw [h.start, List.length_append]
        omega
      · have hle := ih item hitem
        simp only [List.length_append] at hle
        omega

theorem pairwise (h : Lays offset before rest items) :
    items.Pairwise (·.stop ≤ ·.start) := by
  induction h with
  | eof => exact List.pairwise_singleton _ _
  | item hgap hne h hrest ih =>
      refine List.pairwise_cons.2 ⟨fun item hitem => ?_, ih⟩
      rw [h.stop]
      exact hrest.le_start item hitem

theorem ne_nil (h : Lays offset before rest items) : items ≠ [] := by
  cases h <;> exact List.cons_ne_nil _ _

/-- Every item has its place, behind the item before it and a gap. Only the last item covers no
text. -/
theorem stands (h : Lays offset before rest items) {xs ys : List Item} {item : Item}
    (hitems : items = xs ++ item :: ys) :
    ∃ read gap text after, before ++ rest = read ++ gap ++ text ++ after ∧
      offset + read.length = Item.stopAfter (offset + before.length) xs ∧
      Gap gap (text ++ after) ∧ item.StandsAt offset (read ++ gap) text after ∧
      (text = [] ↔ ys = []) := by
  induction h generalizing xs with
  | @eof before gap last hgap h =>
      cases xs with
      | nil =>
          cases hitems
          exact ⟨before, gap, [], [], by simp, rfl, hgap, h, by simp⟩
      | cons x xs => cases xs <;> cases hitems
  | @item before gap text after first items hgap hne h hrest ih =>
      cases xs with
      | nil =>
          cases hitems
          exact ⟨before, gap, text, after, by simp, rfl, hgap, h, by simp [hne, hrest.ne_nil]⟩
      | cons x xs =>
          rw [List.cons_append, List.cons.injEq] at hitems
          obtain ⟨rfl, hitems⟩ := hitems
          obtain ⟨read, gap', text', after', hsource, hread, hplace⟩ := ih hitems
          refine ⟨read, gap', text', after', ?_, ?_, hplace⟩
          · rw [← hsource]
            simp
          · rw [hread, Item.stopAfter, h.stop]

end Lays

/-! ## Scans -/

/-- The items partition a source whose first character has this offset. -/
structure Scan.Partitions (scan : Scan) (source : String) (offset : Nat) : Prop where
  /-- The spans are disjoint and in order. -/
  increasing : scan.allItems.Pairwise (·.stop ≤ ·.start)
  /-- Each item comes behind the one before it and a gap, and is what its text should be. -/
  stands : ∀ xs item ys, scan.allItems = xs ++ item :: ys →
    ∃ read gap text after, source.toList = read ++ gap ++ text ++ after ∧
      offset + read.length = Item.stopAfter offset xs ∧
      Gap gap (text ++ after) ∧ item.StandsAt offset (read ++ gap) text after ∧
      (text = [] ↔ ys = [])
  /-- Only the last item ends the source. -/
  notEof : ∀ t, .token t ∈ scan.items → t.kind ≠ .eof
  eof : scan.eof = ⟨.eof, "", 1 + source.toList.count '\n', offset + source.length⟩

theorem Lexeme.kind_ne_eof {text : List Char} {kind : Token.Kind} (h : Lexeme text kind) :
    kind ≠ .eof := by
  cases h <;> exact nofun

/-- Nothing but the end of a source is the token that ends it. -/
theorem Found.Fits.text_eq_nil {kind : Token.Kind} {lexeme : String} {line : Nat}
    {text after : List Char} (h : (Found.token kind lexeme line).Fits text after)
    (hkind : kind = .eof) : text = [] := by
  cases h with
  | token htext h hcomment => exact absurd hkind h.lexeme.kind_ne_eof
  | eof => rfl

namespace Scan

variable (source : String) (offset : Nat)

theorem lays : Lays offset [] source.toList (ofText source offset).allItems :=
  Lays.of_split offset [] source.toList

theorem partitions_ofText : (ofText source offset).Partitions source offset := by
  have hlays := lays source offset
  refine ⟨hlays.pairwise, fun xs item ys hitems => ?_, fun t ht hkind => ?_, ?_⟩
  · exact hlays.stands hitems
  · obtain ⟨xs, ys, hitems⟩ := List.append_of_mem ht
    have hall : (ofText source offset).allItems =
        xs ++ .token t :: (ys ++ [.token (ofText source offset).eof]) := by
      rw [allItems, hitems, List.append_assoc, List.cons_append]
    obtain ⟨_, _, text, _, -, -, -, hstands, hlast⟩ := hlays.stands hall
    -- What covers no text is the last item, and this one is not the last.
    exact List.append_ne_nil_of_right_ne_nil _ (List.cons_ne_nil _ _)
      (hlast.1 (hstands.fits.text_eq_nil hkind))
  · rw [← String.length_toList]
    rfl

end Scan

end Lox
