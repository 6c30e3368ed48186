import Lox.Proofs.Scanning.Alike

set_option autoImplicit false

/-! # Nested texts

A nest is a word, or a word and more nests after it in one pair of parentheses, with single spaces
between. The text of a nest tells the nest, whatever stands after it that does not go on with a word
(`Nest.append_inj`): a word ends where a space or a parenthesis comes, so nothing needs to be known
of the words but that they have neither.
-/

namespace Lox

/-- Words in parentheses in parentheses. -/
inductive Nest
  | word (text : List Char)
  | node (head : List Char) (parts : List Nest)

/-- The character does not end a word. -/
def staysInWord (c : Char) : Bool := c != ' ' && c != '(' && c != ')'

/-- A text without spaces and parentheses that is not empty. -/
structure IsWord (text : List Char) : Prop where
  ne_nil : text ≠ []
  stays : text.all staysInWord = true

namespace Nest

mutual

/-- The text of a nest. -/
def text : Nest → List Char
  | word text => text
  | node head parts => '(' :: (head ++ (texts parts ++ [')']))

/-- The texts of nests, a space before each. -/
def texts : List Nest → List Char
  | [] => []
  | n :: ns => ' ' :: (n.text ++ texts ns)

end

mutual

/-- All words in the nest are words. -/
def Spaced : Nest → Prop
  | word text => IsWord text
  | node head parts => IsWord head ∧ SpacedAll parts

@[inherit_doc Spaced]
def SpacedAll : List Nest → Prop
  | [] => True
  | n :: ns => n.Spaced ∧ SpacedAll ns

end

/-- No word goes on here. -/
def EndsWord (rest : List Char) : Prop := rest.head?.any staysInWord = false

theorem endsWord_texts (ns : List Nest) (rest : List Char) :
    EndsWord (texts ns ++ ')' :: rest) := by
  cases ns <;> rfl

end Nest

/-- A word is read up to where it ends. -/
theorem IsWord.append_inj {w w' rest rest' : List Char} (hw : IsWord w) (hw' : IsWord w')
    (hrest : Nest.EndsWord rest) (hrest' : Nest.EndsWord rest') (h : w ++ rest = w' ++ rest') :
    w = w' ∧ rest = rest' := by
  have htake := congrArg (List.takeWhile staysInWord) h
  have hdrop := congrArg (List.dropWhile staysInWord) h
  have hall := List.all_eq_true.1 hw.stays
  have hall' := List.all_eq_true.1 hw'.stays
  rw [takeWhile_span hall hrest, takeWhile_span hall' hrest'] at htake
  rw [dropWhile_span hall hrest, dropWhile_span hall' hrest'] at hdrop
  exact ⟨htake, hdrop⟩

/-- No word begins with a parenthesis. -/
theorem IsWord.ne_paren {w rest rest' : List Char} (hw : IsWord w) : w ++ rest ≠ '(' :: rest' := by
  intro h
  obtain ⟨c, cs, rfl⟩ := List.exists_cons_of_ne_nil hw.ne_nil
  obtain rfl : c = '(' := (List.cons.inj h).1
  exact absurd (List.all_eq_true.1 hw.stays '(' List.mem_cons_self) (by decide)

namespace Nest

mutual

/-- The text of a nest tells the nest. -/
theorem append_inj : (n n' : Nest) → n.Spaced → n'.Spaced → {rest rest' : List Char} →
    EndsWord rest → EndsWord rest' → n.text ++ rest = n'.text ++ rest' → n = n' ∧ rest = rest'
  | word w, word w', hn, hn', rest, rest', hrest, hrest', h => by
      obtain ⟨rfl, hrest⟩ := hn.append_inj hn' hrest hrest' h
      exact ⟨rfl, hrest⟩
  | word w, node head parts, hn, _, rest, rest', _, _, h => absurd h hn.ne_paren
  | node head parts, word w, _, hn', rest, rest', _, _, h => absurd h.symm hn'.ne_paren
  | node head parts, node head' parts', ⟨hhead, hparts⟩, ⟨hhead', hparts'⟩, rest, rest',
      _, _, h => by
      simp only [text, List.cons_append, List.append_assoc, List.nil_append, List.cons.injEq,
        true_and] at h
      obtain ⟨rfl, htexts⟩ := hhead.append_inj hhead' (endsWord_texts _ _) (endsWord_texts _ _) h
      obtain ⟨rfl, hrest⟩ := texts_inj parts parts' hparts hparts' htexts
      exact ⟨rfl, hrest⟩

/-- The texts of nests up to a closing parenthesis tell the nests. -/
theorem texts_inj : (ns ns' : List Nest) → SpacedAll ns → SpacedAll ns' → {rest rest' : List Char} →
    texts ns ++ ')' :: rest = texts ns' ++ ')' :: rest' → ns = ns' ∧ rest = rest'
  | [], [], _, _, rest, rest', h => ⟨rfl, (List.cons.inj h).2⟩
  | [], n :: ns, _, _, rest, rest', h => absurd (List.cons.inj h).1 (by decide)
  | n :: ns, [], _, _, rest, rest', h => absurd (List.cons.inj h).1 (by decide)
  | n :: ns, n' :: ns', ⟨hn, hns⟩, ⟨hn', hns'⟩, rest, rest', h => by
      simp only [texts, List.cons_append, List.append_assoc, List.cons.injEq, true_and] at h
      obtain ⟨rfl, htexts⟩ := append_inj n n' hn hn' (endsWord_texts _ _) (endsWord_texts _ _) h
      obtain ⟨rfl, hrest⟩ := texts_inj ns ns' hns hns' htexts
      exact ⟨rfl, hrest⟩

end

theorem text_inj {n n' : Nest} (hn : n.Spaced) (hn' : n'.Spaced) (h : n.text = n'.text) :
    n = n' := by
  have hend : EndsWord [] := rfl
  exact (append_inj n n' hn hn' hend hend (congrArg (· ++ []) h)).1

end Nest

end Lox
