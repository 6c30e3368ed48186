import Lox.Source
import Lox.Proofs.Form.Nest
import Lox.Proofs.Number.Text
import Lox.Proofs.Parsing.Alone
import Lox.Proofs.Parsing.Leaves

set_option autoImplicit false

/-! # Reading the prefix form back

The prefix form of an expression is the text of a nest (`Expr.form_eq`), and the nest reads back as
the expression up to its places (`Expr.read_nest`). What a word stands for can be told from the word
alone: names are no keywords and do not begin with a digit. The head of a node tells the others,
with the number of parts where `-` is the head, and with what the first part is where `=` is.
-/

namespace Lox

/-! ## Nests of expressions -/

mutual

/-- The words and parentheses in the form of an expression. -/
def Expr.nest : Expr → Nest
  | .literal value => .word value.form.toList
  | .grouping inner => .node "group".toList [inner.nest]
  | .unary op _ operand => .node op.text.toList [operand.nest]
  | .binary op _ left right => .node op.text.toList [left.nest, right.nest]
  | .logical op left right => .node op.text.toList [left.nest, right.nest]
  | .variable name => .word name.text.toList
  | .assign name value => .node ['='] [.word name.text.toList, value.nest]
  | .call callee arguments _ => .node "call".toList (callee.nest :: Expr.nests arguments)
  | .get object property => .node ['.'] [object.nest, .word property.text.toList]
  | .set object property value =>
    .node ['='] [.node ['.'] [object.nest, .word property.text.toList], value.nest]
  | .this _ => .word "this".toList
  | .super _ method => .node "super".toList [.word method.text.toList]

/-- The nests of expressions. -/
def Expr.nests : List Expr → List Nest
  | [] => []
  | e :: es => e.nest :: Expr.nests es

end

mutual

/-- The form of an expression is the text of its nest. -/
theorem Expr.form_eq : (e : Expr) → e.form.toList = e.nest.text
  | .literal _ | .variable _ | .this _ => by simp only [Expr.form, Expr.nest, Nest.text]
  | .grouping inner => by
      simp [Expr.form, Expr.nest, Nest.text, Nest.texts, Expr.form_eq inner]
  | .unary _ _ operand => by
      simp [Expr.form, Expr.nest, Nest.text, Nest.texts, Expr.form_eq operand]
  | .binary _ _ left right | .logical _ left right => by
      simp [Expr.form, Expr.nest, Nest.text, Nest.texts, Expr.form_eq left, Expr.form_eq right]
  | .assign _ value => by
      simp [Expr.form, Expr.nest, Nest.text, Nest.texts, Expr.form_eq value]
  | .call callee arguments _ => by
      simp [Expr.form, Expr.nest, Nest.text, Nest.texts, Expr.form_eq callee,
        Expr.forms_eq arguments]
  | .get object _ => by
      simp [Expr.form, Expr.nest, Nest.text, Nest.texts, Expr.form_eq object]
  | .set object _ value => by
      simp [Expr.form, Expr.nest, Nest.text, Nest.texts, Expr.form_eq object, Expr.form_eq value]
  | .super _ _ => by simp [Expr.form, Expr.nest, Nest.text, Nest.texts]

theorem Expr.forms_eq : (es : List Expr) → (Expr.forms es).toList = Nest.texts (Expr.nests es)
  | [] => rfl
  | e :: es => by
      simp [Expr.forms, Expr.nests, Nest.texts, Expr.form_eq e, Expr.forms_eq es]

end

/-! ## Reading -/

/-- Zero for all lines and offsets. -/
def Renumbering.blank : Renumbering := ⟨fun _ => 0, fun _ => 0⟩

/-- The unary operator with this spelling. -/
def UnaryOp.ofText? (text : List Char) : Option UnaryOp :=
  [negate, not].find? (·.text.toList == text)

/-- The spelling of an infix operator. -/
def InfixOp.text : InfixOp → String
  | binary op => op.text
  | logical op => op.text

/-- The infix operator with this spelling. -/
def InfixOp.ofText? (text : List Char) : Option InfixOp :=
  [binary .add, binary .subtract, binary .multiply, binary .divide, binary .less,
    binary .lessEqual, binary .greater, binary .greaterEqual, binary .equal, binary .notEqual,
    logical .and, logical .or].find? (·.text.toList == text)

/-- The literal, the name or the `this` that a word is the form of. -/
def Expr.ofWord (text : List Char) : Expr :=
  if text.head?.any Char.isDigit then .literal (.number (Number.ofNumeral text))
  else
    match Keyword.ofText? (String.ofList text) with
    | some .nilWord => .literal .nil
    | some .trueWord => .literal (.bool true)
    | some .falseWord => .literal (.bool false)
    | some .thisWord => .this ⟨"this", 0, 0⟩
    | _ => .variable ⟨String.ofList text, 0, 0⟩

/-- The expression with this operator. -/
def Expr.ofOperator (text : List Char) : List Expr → Expr
  | [operand] => ((UnaryOp.ofText? text).map (.unary · 0 operand)).getD default
  | [left, right] => ((InfixOp.ofText? text).map (·.join 0 left right)).getD default
  | _ => default

/-- The expression that a node is the form of, from what its parts are the forms of. -/
def Expr.ofNode (head : List Char) (parts : List Expr) : Expr :=
  if head = ['='] then
    -- An assigned name is a word, an assigned property a node of its own.
    match parts with
    | [.variable name, value] => .assign name value
    | [.get object property, value] => .set object property value
    | _ => default
  else if head = ['.'] then
    match parts with
    | [object, .variable property] => .get object property
    | _ => default
  else if head = "super".toList then
    match parts with
    | [.variable method] => .super ⟨"super", 0, 0⟩ method
    | _ => default
  else if head = "call".toList then
    match parts with
    | callee :: arguments => .call callee arguments 0
    | _ => default
  else if head = "group".toList then
    match parts with
    | [inner] => .grouping inner
    | _ => default
  else
    -- Only here the number of parts counts: `-` has one or two.
    .ofOperator head parts

mutual

/-- The expression that a nest is the form of. -/
def Nest.read : Nest → Expr
  | .word text => .ofWord text
  | .node head parts => .ofNode head (Nest.reads parts)

/-- The expressions that nests are the forms of. -/
def Nest.reads : List Nest → List Expr
  | [] => []
  | n :: ns => n.read :: Nest.reads ns

end

/-- The leaf can be read back from its form. -/
def Leaf.Shown : Leaf → Prop
  | identifier name => Lexeme name.text.toList .identifier
  | keyword word name => name.text = word.text
  | literal (.number x) =>
    ∃ b, Number.Denotation.ofFloat x = .finite b ∧ b.negative = false
  | literal (.string _) => False
  | literal _ => True

/-- A name reads back. -/
theorem Expr.ofWord_of_identifier {n : Name} (h : Leaf.Shown (.identifier n)) :
    Expr.ofWord n.text.toList = .variable (n.renumber .blank) := by
  have hlexeme : Lexeme n.text.toList .identifier := h
  have hname : n.renumber .blank = ⟨String.ofList n.text.toList, 0, 0⟩ := by
    rw [String.ofList_toList]
    rfl
  rw [hname]
  generalize n.text.toList = text at hlexeme
  cases hlexeme with
  | @identifier c cs hc hcs hkeyword =>
      have hdigit : (c :: cs).head?.any Char.isDigit = false := isDigit_eq_false_of_startsWord hc
      have hnone : Keyword.ofText? (String.ofList (c :: cs)) = none := by
        cases hword : Keyword.ofText? (String.ofList (c :: cs)) with
        | none => rfl
        | some w =>
            have htext := congrArg String.toList (Keyword.text_of_ofText? hword)
            rw [String.toList_ofList] at htext
            exact absurd htext (hkeyword w)
      rw [Expr.ofWord, hdigit, if_neg Bool.false_ne_true, hnone]

/-- A number reads back. -/
theorem Expr.ofWord_of_number {x : Float} (h : Leaf.Shown (.literal (.number x))) :
    Expr.ofWord (Number.Format.tree.text x).toList = .literal (.number x) := by
  obtain ⟨b, hb, hsign⟩ := h
  obtain ⟨numeral, v, htext, hwrites, hvalue⟩ :=
    Number.Format.tree.exists_numeral hb hsign (.inr rfl)
  obtain ⟨c, cs, rfl, hdigit⟩ := (Number.Spells.plain hwrites).exists_digit
  have hhead : (c :: cs).head?.any Char.isDigit = true := hdigit
  rw [htext, String.toList_ofList, Expr.ofWord, if_pos hhead, hvalue]

theorem UnaryOp.ofText?_text (op : UnaryOp) : UnaryOp.ofText? op.text.toList = some op := by
  cases op <;> decide

theorem InfixOp.ofText?_text (op : InfixOp) : InfixOp.ofText? op.text.toList = some op := by
  rcases op with op | op <;> cases op <;> decide

/-- The words before the parts of other expressions are no operators. -/
def Expr.formHeads : List (List Char) :=
  [['='], ['.'], "super".toList, "call".toList, "group".toList]

theorem Expr.ofNode_operator {head : List Char} (h : head ∉ Expr.formHeads) (parts : List Expr) :
    Expr.ofNode head parts = .ofOperator head parts := by
  simp only [formHeads, List.mem_cons, List.not_mem_nil, or_false, not_or] at h
  obtain ⟨hequal, hdot, hsuper, hcall, hgroup⟩ := h
  unfold ofNode
  rw [if_neg hequal, if_neg hdot, if_neg hsuper, if_neg hcall, if_neg hgroup]

theorem Expr.ofNode_unary (op : UnaryOp) (operand : Expr) :
    Expr.ofNode op.text.toList [operand] = .unary op 0 operand := by
  rw [ofNode_operator (by cases op <;> decide), ofOperator, UnaryOp.ofText?_text]
  rfl

theorem Expr.ofNode_infix (op : InfixOp) (left right : Expr) :
    Expr.ofNode op.text.toList [left, right] = op.join 0 left right := by
  rw [ofNode_operator (by rcases op with op | op <;> cases op <;> decide), ofOperator,
    InfixOp.ofText?_text]
  rfl

mutual

/-- The nest of an expression reads back as the expression, but for its places. -/
theorem Expr.read_nest : (e : Expr) → (∀ l ∈ e.leaves, l.Shown) → e.nest.read = e.renumber .blank
  | .literal .nil, _ | .literal (.bool true), _ | .literal (.bool false), _ => rfl
  | .literal (.number x), h => Expr.ofWord_of_number (h _ List.mem_cons_self)
  | .literal (.string _), h => (h _ List.mem_cons_self).elim
  | .grouping inner, h => by
      have hinner := Expr.read_nest inner h
      rw [Expr.nest, Nest.read, Nest.reads, Nest.reads, hinner]
      rfl
  | .unary op _ operand, h => by
      have hoperand := Expr.read_nest operand h
      rw [Expr.nest, Nest.read, Nest.reads, Nest.reads, hoperand]
      exact Expr.ofNode_unary op _
  | .binary op _ left right, h => by
      obtain ⟨hl, hr⟩ := List.forall_mem_append.1 h
      have hleft := Expr.read_nest left hl
      have hright := Expr.read_nest right hr
      rw [Expr.nest, Nest.read, Nest.reads, Nest.reads, Nest.reads, hleft, hright]
      exact Expr.ofNode_infix (.binary op) _ _
  | .logical op left right, h => by
      obtain ⟨hl, hr⟩ := List.forall_mem_append.1 h
      have hleft := Expr.read_nest left hl
      have hright := Expr.read_nest right hr
      rw [Expr.nest, Nest.read, Nest.reads, Nest.reads, Nest.reads, hleft, hright]
      exact Expr.ofNode_infix (.logical op) _ _
  | .variable name, h => Expr.ofWord_of_identifier (h _ List.mem_cons_self)
  | .assign name value, h => by
      obtain ⟨hn, hv⟩ := List.forall_mem_cons.1 h
      have hname := Expr.ofWord_of_identifier hn
      have hvalue := Expr.read_nest value hv
      rw [Expr.nest, Nest.read, Nest.reads, Nest.reads, Nest.reads, Nest.read, hname, hvalue]
      rfl
  | .call callee arguments _, h => by
      obtain ⟨hc, ha⟩ := List.forall_mem_append.1 h
      have hcallee := Expr.read_nest callee hc
      have harguments := Expr.reads_nests arguments ha
      rw [Expr.nest, Nest.read, Nest.reads, hcallee, harguments]
      rfl
  | .get object property, h => by
      obtain ⟨ho, hp⟩ := List.forall_mem_append.1 h
      have hobject := Expr.read_nest object ho
      have hproperty := Expr.ofWord_of_identifier (hp _ List.mem_cons_self)
      rw [Expr.nest, Nest.read, Nest.reads, Nest.reads, Nest.reads, Nest.read, hobject, hproperty]
      rfl
  | .set object property value, h => by
      obtain ⟨ho, hrest⟩ := List.forall_mem_append.1 h
      obtain ⟨hp, hv⟩ := List.forall_mem_cons.1 hrest
      have hobject := Expr.read_nest object ho
      have hproperty := Expr.ofWord_of_identifier hp
      have hvalue := Expr.read_nest value hv
      rw [Expr.nest, Nest.read, Nest.reads, Nest.reads, Nest.reads, Nest.read, Nest.reads,
        Nest.reads, Nest.reads, Nest.read, hobject, hproperty, hvalue]
      rfl
  | .this keyword, h => by
      have hkeyword : keyword.text = "this" := h _ List.mem_cons_self
      rw [Expr.renumber, Name.renumber, hkeyword]
      rfl
  | .super keyword method, h => by
      obtain ⟨hk, hm⟩ := List.forall_mem_cons.1 h
      have hkeyword : keyword.text = "super" := hk
      have hmethod := Expr.ofWord_of_identifier (hm _ List.mem_cons_self)
      have hplace : keyword.renumber .blank = ⟨"super", 0, 0⟩ := by
        rw [Name.renumber, hkeyword]
        rfl
      rw [Expr.nest, Nest.read, Nest.reads, Nest.reads, Nest.read, hmethod, Expr.renumber, hplace]
      rfl

theorem Expr.reads_nests : (es : List Expr) → (∀ l ∈ Expr.leavesAll es, l.Shown) →
    Nest.reads (Expr.nests es) = Expr.renumberAll .blank es
  | [], _ => rfl
  | e :: es, h => by
      obtain ⟨he, hes⟩ := List.forall_mem_append.1 h
      rw [Expr.nests, Nest.reads, Expr.read_nest e he, Expr.reads_nests es hes, Expr.renumberAll]

end

end Lox
