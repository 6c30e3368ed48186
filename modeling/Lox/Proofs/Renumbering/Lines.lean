import Lox.Proofs.Renumbering.Scan
import Lox.Proofs.Scanning.Lines

set_option autoImplicit false

/-! # Texts on lines of their own

A text that comes after another one, on lines of its own, has the items that it has by itself, so
many lines further down (`Scan.allItems_line`). The first text may end anywhere but in a string,
for a string that is not closed takes in what comes after it.
-/

namespace Lox.Scan

variable {source : String} {offset : Nat}

/-- The source ends where its last text does. -/
theorem eof_line (source more : String) (offset : Nat) :
    (ofText (source ++ "\n" ++ more) offset).eof =
      (ofText more offset).eof.renumber
        (.down (1 + source.toList.count '\n') (source.length + 1)) := by
  have hcount : (source ++ "\n" ++ more).toList.count '\n' =
      source.toList.count '\n' + 1 + more.toList.count '\n' := by
    rw [String.toList_append, String.toList_append, List.count_append, List.count_append]
    rfl
  have hlength : (source ++ "\n" ++ more).length = source.length + 1 + more.length := by
    rw [String.length_append, String.length_append]
    rfl
  simp only [ofText, Token.renumber, Renumbering.down, String.length_toList, hcount, hlength,
    Token.mk.injEq, true_and]
  omega

/-- Scanning is compositional at line ends: if no string of the first text is left open, its items
are followed by those of the text after it, with the end of the source, so many lines further
down. -/
theorem allItems_line (h : ∀ e ∈ (ofText source offset).errors, e.cause ≠ .unterminatedString)
    (more : String) :
    (ofText (source ++ "\n" ++ more) offset).allItems =
      (ofText source offset).items ++
        (ofText more offset).allItems.map
          (Item.renumber (.down (1 + source.toList.count '\n') (source.length + 1))) := by
  have hmore : Item.locate (1 + source.toList.count '\n' + 1) (offset + source.length + 1)
      (Piece.split more.toList) =
        (ofText more offset).items.map
          (Item.renumber (.down (1 + source.toList.count '\n') (source.length + 1))) := by
    rw [Nat.add_comm _ 1, Nat.add_assoc offset]
    exact Item.locate_down 1 offset _ _ _
  rw [allItems, allItems, items_line h, hmore, eof_line, List.map_append, List.append_assoc]
  rfl

/-- What an item is shown as, and the line on which it ends. -/
def Item.shown : Item → String × Nat
  | .token t => (t.lexeme, t.line)
  | .error e => (e.cause.message, e.line)

/-- A text with an unexpected character that ends in a numeral and a comment, before one that starts
with a string of two lines. The items of the second text are two lines further down. -/
theorem allItems_line_comment :
    ∃ first second, first = "x = @\n1. // y" ∧ second = "\"a\nb\" #" ∧
      (∀ e ∈ (ofText first 0).errors, e.cause ≠ .unterminatedString) ∧
      (ofText (first ++ "\n" ++ second) 0).allItems =
        (ofText first 0).items ++
          (ofText second 0).allItems.map (Item.renumber (.down 2 14)) ∧
      (ofText first 0).items.map Item.shown =
        [("x", 1), ("=", 1), ("Unexpected character: @", 1), ("1", 2), (".", 2)] ∧
      (ofText second 0).allItems.map Item.shown =
        [("\"a\nb\"", 2), ("Unexpected character: #", 2), ("", 2)] ∧
      (ofText (first ++ "\n" ++ second) 0).allItems.map Item.shown =
        [("x", 1), ("=", 1), ("Unexpected character: @", 1), ("1", 2), (".", 2),
          ("\"a\nb\"", 4), ("Unexpected character: #", 4), ("", 4)] := by
  let first := "x = @\n1. // y"
  let second := "\"a\nb\" #"
  have h : ∀ e ∈ (ofText first 0).errors, e.cause ≠ .unterminatedString := by decide +kernel
  have hlines : 1 + first.toList.count '\n' = 2 := by decide
  have hlength : first.length + 1 = 14 := by decide
  have hjoined := allItems_line h second
  rw [hlines, hlength] at hjoined
  exact ⟨first, second, rfl, rfl, h, hjoined, by decide +kernel, by decide +kernel,
    by decide +kernel⟩

end Lox.Scan
