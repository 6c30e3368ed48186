import Lox.Proofs.Form.Expression
import Lox.Proofs.Grammar.Flattening

set_option autoImplicit false

/-! # The prefix form is unambiguous

Expressions that were read from sources are shown by the same prefix form only if they are the same
but for their places (`Expr.form_unambiguous`). Strings are left out, since their contents stand in
the form as they are, and so are numbers that are too large for a double, whose form is that of a
name. What is needed of the leaves holds since each of them is that of a token of a source.
-/

namespace Lox

/-! ## Words -/

theorem staysInWord_of_ne {c : Char} (hspace : c ≠ ' ') (hopen : c ≠ '(') (hclose : c ≠ ')') :
    staysInWord c = true := by
  simp [staysInWord, hspace, hopen, hclose]

theorem staysInWord_of_continuesWord {c : Char} (h : continuesWord c = true) :
    staysInWord c = true :=
  staysInWord_of_ne (ne_of_class (by decide) h) (ne_of_class (by decide) h)
    (ne_of_class (by decide) h)

theorem isWord_of_identifier {text : List Char} (h : Lexeme text .identifier) : IsWord text := by
  cases h with
  | @identifier c cs hc hcs hkeyword =>
      have hstart : continuesWord c = true := by rw [continuesWord, hc, Bool.true_or]
      have hall : ∀ d ∈ c :: cs, continuesWord d = true := List.forall_mem_cons.2 ⟨hstart, hcs⟩
      exact ⟨List.cons_ne_nil c cs,
        List.all_eq_true.2 fun d hd => staysInWord_of_continuesWord (hall d hd)⟩

theorem isWord_of_numeral {text : List Char} (h : Numeral text) : IsWord text := by
  refine ⟨(Lexeme.number h).ne_nil, List.all_eq_true.2 fun c hc => ?_⟩
  have hne : ∀ {d : Char}, d.isDigit = false → d ≠ '.' → c ≠ d := by
    rintro d hdigit hpoint rfl
    exact Number.notMem_of_numeral h hdigit hpoint hc
  exact staysInWord_of_ne (hne (by decide) (by decide)) (hne (by decide) (by decide))
    (hne (by decide) (by decide))

theorem Literal.isWord_form {value : Literal} (h : Leaf.Shown (.literal value)) :
    IsWord value.form.toList := by
  cases value with
  | nil => exact ⟨by decide, by decide⟩
  | bool value => cases value <;> exact ⟨by decide, by decide⟩
  | number x =>
      obtain ⟨b, hb, hsign⟩ := h
      obtain ⟨numeral, v, htext, hwrites, -⟩ :=
        Number.Format.tree.exists_numeral hb hsign (.inr rfl)
      rw [form, htext, String.toList_ofList]
      exact isWord_of_numeral hwrites.numeral
  | string contents => exact h.elim

theorem UnaryOp.isWord_text (op : UnaryOp) : IsWord op.text.toList := by
  cases op <;> exact ⟨by decide, by decide⟩

theorem InfixOp.isWord_text (op : InfixOp) : IsWord op.text.toList := by
  rcases op with op | op <;> cases op <;> exact ⟨by decide, by decide⟩

theorem isWord_of_mem_formHeads {head : List Char} (h : head ∈ Expr.formHeads) : IsWord head := by
  simp only [Expr.formHeads, List.mem_cons, List.not_mem_nil, or_false] at h
  rcases h with rfl | rfl | rfl | rfl | rfl <;> exact ⟨by decide, by decide⟩

mutual

/-- The words of a form are words. -/
theorem Expr.spaced_nest : (e : Expr) → (∀ l ∈ e.leaves, l.Shown) → e.nest.Spaced
  | .literal _, h => Literal.isWord_form (h _ List.mem_cons_self)
  | .grouping inner, h =>
    ⟨isWord_of_mem_formHeads (by decide), Expr.spaced_nest inner h, trivial⟩
  | .unary op _ operand, h => ⟨op.isWord_text, Expr.spaced_nest operand h, trivial⟩
  | .binary op _ left right, h =>
    have ⟨hleft, hright⟩ := List.forall_mem_append.1 h
    ⟨(InfixOp.binary op).isWord_text, Expr.spaced_nest left hleft, Expr.spaced_nest right hright,
      trivial⟩
  | .logical op left right, h =>
    have ⟨hleft, hright⟩ := List.forall_mem_append.1 h
    ⟨(InfixOp.logical op).isWord_text, Expr.spaced_nest left hleft, Expr.spaced_nest right hright,
      trivial⟩
  | .variable _, h => isWord_of_identifier (h _ List.mem_cons_self)
  | .assign _ value, h =>
    have ⟨hname, hvalue⟩ := List.forall_mem_cons.1 h
    ⟨isWord_of_mem_formHeads (by decide), isWord_of_identifier hname, Expr.spaced_nest value hvalue,
      trivial⟩
  | .call callee arguments _, h =>
    have ⟨hcallee, harguments⟩ := List.forall_mem_append.1 h
    ⟨isWord_of_mem_formHeads (by decide), Expr.spaced_nest callee hcallee,
      Expr.spaced_nests arguments harguments⟩
  | .get object _, h =>
    have ⟨hobject, hproperty⟩ := List.forall_mem_append.1 h
    ⟨isWord_of_mem_formHeads (by decide), Expr.spaced_nest object hobject,
      isWord_of_identifier (hproperty _ List.mem_cons_self), trivial⟩
  | .set object _ value, h =>
    have ⟨hobject, hrest⟩ := List.forall_mem_append.1 h
    have ⟨hproperty, hvalue⟩ := List.forall_mem_cons.1 hrest
    ⟨isWord_of_mem_formHeads (by decide),
      ⟨isWord_of_mem_formHeads (by decide), Expr.spaced_nest object hobject,
        isWord_of_identifier hproperty, trivial⟩, Expr.spaced_nest value hvalue, trivial⟩
  | .this _, _ => ⟨by decide, by decide⟩
  | .super _ _, h =>
    have ⟨_, hmethod⟩ := List.forall_mem_cons.1 h
    ⟨isWord_of_mem_formHeads (by decide), isWord_of_identifier (hmethod _ List.mem_cons_self),
      trivial⟩

theorem Expr.spaced_nests : (es : List Expr) → (∀ l ∈ Expr.leavesAll es, l.Shown) →
    Nest.SpacedAll (Expr.nests es)
  | [], _ => trivial
  | e :: es, h =>
    have ⟨he, hes⟩ := List.forall_mem_append.1 h
    ⟨Expr.spaced_nest e he, Expr.spaced_nests es hes⟩

end

/-- Expressions whose leaves can be read back have the same form only if they are the same but for
their places. -/
theorem Expr.renumber_eq_of_form {e e' : Expr} (h : ∀ l ∈ e.leaves, l.Shown)
    (h' : ∀ l ∈ e'.leaves, l.Shown) (hform : e.form = e'.form) :
    e.renumber .blank = e'.renumber .blank := by
  have htext : e.nest.text = e'.nest.text := by
    rw [← e.form_eq, ← e'.form_eq, hform]
  have hnest := Nest.text_inj (e.spaced_nest h) (e'.spaced_nest h') htext
  rw [← e.read_nest h, ← e'.read_nest h', hnest]

/-! ## Leaves of what is read -/

/-- Every leaf of an expression is that of a token, also of one with errors that do not stop the
parser: only what is no leaf of the tokens weighs anything. -/
theorem Expr.exists_token_of_mem_leaves {tokens : List Token} {eof : Token} {e : Expr}
    (heof : eof.kind = .eof) (h : Expr.ofTokens tokens eof = .ok e) {l : Leaf} (hl : l ∈ e.leaves) :
    ∃ t ∈ tokens, t.leaf? = some l := by
  classical
  -- What is no leaf of a token weighs something, so the tokens weigh nothing, nor does the tree.
  let w : Weight := fun l => if ∃ t ∈ tokens, t.leaf? = some l then 0 else 1
  have htokens : w.ofTokens tokens = 0 := by
    refine List.sum_eq_zero_iff_forall_eq_nat.2 fun n hn => ?_
    obtain ⟨t, ht, rfl⟩ := List.mem_map.1 hn
    rw [Weight.ofToken]
    cases hleaf : t.leaf? with
    | none => rfl
    | some l => exact if_pos ⟨t, ht, hleaf⟩
  have hexpr : w.ofExpr e = 0 := by
    obtain ⟨c, hwhole, -⟩ := Parser.ofTokens_eq_ok_iff.1 h
    have hcovers := Parser.covers_expression (w := w) (c := .start tokens eof) heof
    rw [(Parser.wholeExpression_eq_ok_iff.1 hwhole).1] at hcovers
    have hweight : (Cursor.start tokens eof).weight w = w.ofTokens tokens := rfl
    omega
  have hleaf : w l = 0 :=
    List.sum_eq_zero_iff_forall_eq_nat.1 hexpr (w l) (List.mem_map_of_mem hl)
  by_contra hnone
  have hone : w l = 1 := if_neg hnone
  omega

/-- The leaf is not a string, and not a number that is too large for a double. -/
def Leaf.isPlain : Leaf → Bool
  | literal (.number x) => x.isFinite
  | literal (.string _) => false
  | _ => true

/-- The leaf of a token of a source can be read back. -/
theorem Leaf.shown_of_token {t : Token} {l : Leaf} (hlexeme : Lexeme t.lexeme.toList t.kind)
    (h : t.leaf? = some l) (hplain : l.isPlain = true) : l.Shown := by
  have hkeyword : ∀ {w : Keyword}, t.kind = .keyword w → t.lexeme = w.text := by
    intro w hkind
    rw [hkind] at hlexeme
    generalize htext : t.lexeme.toList = text at hlexeme
    cases hlexeme with
    | keyword w => exact String.toList_inj.1 htext
  unfold Token.leaf? at h
  split at h
  · rename_i hkind
    cases h
    rw [hkind] at hlexeme
    exact hlexeme
  · rename_i hkind
    cases h
    exact hkeyword hkind
  · rename_i hkind
    cases h
    exact hkeyword hkind
  · obtain ⟨value, hvalue, rfl⟩ := Option.map_eq_some_iff.1 h
    cases value with
    | nil | bool _ => trivial
    | string contents => cases hplain
    | number x =>
        have hkind : t.kind = .number x := Literal.ofKind?_eq_some_iff.1 hvalue
        rw [hkind] at hlexeme
        obtain ⟨b, hb⟩ := Number.exists_of_isFinite hplain
        generalize t.lexeme.toList = text at hlexeme
        cases hlexeme with
        | number hnumeral => exact ⟨b, hb, Number.negative_ofScientific hb⟩

theorem Expr.shown_of_parsed {source : String} {e : Expr} (h : (Expr.ofText source).parsed = .ok e)
    (hplain : ∀ l ∈ e.leaves, l.isPlain = true) : ∀ l ∈ e.leaves, l.Shown := by
  intro l hl
  obtain ⟨t, ht, hleaf⟩ := Expr.exists_token_of_mem_leaves rfl h hl
  exact Leaf.shown_of_token (Scan.lexeme_of_mem ht) hleaf (hplain l hl)

/-- The prefix form tells expressions apart: two of them that were read from sources, with no
strings and no numbers that are too large, have the same form only if they are the same tree but for
lines and offsets. -/
theorem Expr.form_unambiguous {source source' : String} {e e' : Expr}
    (h : (Expr.ofText source).parsed = .ok e) (h' : (Expr.ofText source').parsed = .ok e')
    (hplain : ∀ l ∈ e.leaves, l.isPlain = true) (hplain' : ∀ l ∈ e'.leaves, l.isPlain = true)
    (hform : e.form = e'.form) : e.renumber .blank = e'.renumber .blank :=
  Expr.renumber_eq_of_form (Expr.shown_of_parsed h hplain) (Expr.shown_of_parsed h' hplain') hform

/-- The same expression on one line and on three, with a `-` of either kind and with a name and a
property that are assigned. -/
theorem Expr.form_unambiguous_lines :
    ∃ e e' : Expr, (Expr.ofText "a.b = c = -d(1, 2.5) - e").parsed = .ok e ∧
      (Expr.ofText "a . b =\n  c = - d(1,\n  2.50) - e").parsed = .ok e' ∧
      e.references.map (·.name.line) = [1, 1, 1, 1] ∧
      e'.references.map (·.name.line) = [1, 2, 2, 3] ∧
      e.form = e'.form ∧ e.renumber .blank = e'.renumber .blank := by
  let check (lines : List Nat) (e : Expr) : Bool :=
    e.leaves.all Leaf.isPlain && (e.references.map (·.name.line) == lines &&
      e.form == "(= (. a b) (= c (- (- (call d 1.0 2.5)) e)))")
  have hcheck {lines : List Nat} {e : Expr} (h : check lines e = true) :
      (∀ l ∈ e.leaves, l.isPlain = true) ∧ e.references.map (·.name.line) = lines ∧
        e.form = "(= (. a b) (= c (- (- (call d 1.0 2.5)) e)))" := by
    simpa [check] using h
  obtain ⟨e, hparsed, he⟩ := Expr.exists_of_parsed "a.b = c = -d(1, 2.5) - e"
    (check [1, 1, 1, 1]) (by decide +kernel)
  obtain ⟨e', hparsed', he'⟩ := Expr.exists_of_parsed "a . b =\n  c = - d(1,\n  2.50) - e"
    (check [1, 2, 2, 3]) (by decide +kernel)
  obtain ⟨hplain, hlines, hform⟩ := hcheck he
  obtain ⟨hplain', hlines', hform'⟩ := hcheck he'
  have hforms : e.form = e'.form := hform.trans hform'.symm
  exact ⟨e, e', hparsed, hparsed', hlines, hlines', hforms,
    Expr.form_unambiguous hparsed hparsed' hplain hplain' hforms⟩

end Lox
