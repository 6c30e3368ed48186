import Lox.Proofs.Grammar.Spelling

set_option autoImplicit false

/-! # Writing an expression out

`Expr.flatten` writes the tokens of an expression in the order of the source. A tree does not keep
all of its tokens: of most it knows the kind, of the marks of operators the line too, and of names
everything (`Token.kept`). Tokens that the tree says nothing more of are written on line 0.

No parentheses are added, so what is written reads back as the same tree only if every operand is of
a grade that its place allows (`Expr.Graded`). Looser operators have lower grades; an operand on the
right has to be of a higher grade than its operator, and one on the left of at least the same one.
-/

namespace Lox

/-! ## Tokens -/

/-- The marks that are operators with one or two operands. -/
def Mark.isOperator : Mark → Bool
  | minus | plus | slash | star | bang | bangEqual | equalEqual | greater | greaterEqual | less
  | lessEqual => true
  | _ => false

/-- What is kept of a token: its kind, the line too if it is the mark of an operator, and all of a
name, which `this` and `super` count as. -/
def Token.kept (t : Token) : Token.Kind × Option Nat × Option Token :=
  match t.kind with
  | .identifier | .keyword .thisWord | .keyword .superWord => (t.kind, none, some t)
  | .mark m => (t.kind, if m.isOperator then some t.line else none, none)
  | _ => (t.kind, none, none)

/-- A mark as a token. -/
def Mark.token (m : Mark) (line : Nat) : Token := ⟨.mark m, m.text, line, 0⟩

/-- A keyword as a token. -/
def Keyword.token (w : Keyword) : Token := ⟨.keyword w, w.text, 0, 0⟩

/-- A name as a token of this kind. -/
def Name.token (n : Name) (kind : Token.Kind) : Token := ⟨kind, n.text, n.line, n.start⟩

@[simp] theorem Mark.kind_token (m : Mark) (line : Nat) : (m.token line).kind = .mark m := rfl

/-- What is kept of a mark that was read. -/
theorem Mark.kept_token {m : Mark} {t : Token} {line : Nat} (h : t.kind = .mark m)
    (hline : m.isOperator = false ∨ line = t.line) : (m.token line).kept = t.kept := by
  unfold Token.kept
  rw [Mark.kind_token, h]
  rcases hline with hoperator | rfl
  · simp only [hoperator, Bool.false_eq_true, ↓reduceIte]
  · rfl

theorem Token.token_toName {t : Token} {kind : Token.Kind} (h : t.kind = kind) :
    t.toName.token kind = t := by
  subst h
  rfl

/-- The kind of a literal. -/
def Literal.kind : Literal → Token.Kind
  | nil => .keyword .nilWord
  | bool true => .keyword .trueWord
  | bool false => .keyword .falseWord
  | number value => .number value
  | string contents => .string contents

/-- A literal as a token. -/
def Literal.token (l : Literal) : Token := ⟨l.kind, "", 0, 0⟩

theorem Literal.ofKind?_eq_some_iff {k : Token.Kind} {l : Literal} :
    Literal.ofKind? k = some l ↔ k = l.kind := by
  constructor
  · intro h
    unfold Literal.ofKind? at h
    split at h <;> cases h <;> rfl
  · rintro rfl
    cases l with
    | bool value => cases value <;> rfl
    | _ => rfl

/-- What is kept of a literal that was read. -/
theorem Literal.kept_token {t : Token} {l : Literal} (h : Literal.ofKind? t.kind = some l) :
    l.token.kept = t.kept := by
  have hkind : t.kind = l.kind := Literal.ofKind?_eq_some_iff.1 h
  have hsame : l.token.kind = l.kind := rfl
  unfold Token.kept
  rw [hsame, hkind]
  rcases l with _ | value | _ | _
  · rfl
  · cases value <;> rfl
  · rfl
  · rfl

/-! ## Operators -/

/-- The mark of a unary operator. -/
def UnaryOp.mark : UnaryOp → Mark
  | negate => .minus
  | not => .bang

theorem UnaryOp.ofKind?_eq_some_iff {k : Token.Kind} {op : UnaryOp} :
    UnaryOp.ofKind? k = some op ↔ k = .mark op.mark := by
  constructor
  · intro h
    unfold UnaryOp.ofKind? at h
    split at h <;> cases h <;> rfl
  · rintro rfl
    cases op <;> rfl

/-- The mark of a binary operator. -/
def BinaryOp.mark : BinaryOp → Mark
  | add => .plus
  | subtract => .minus
  | multiply => .star
  | divide => .slash
  | less => .less
  | lessEqual => .lessEqual
  | greater => .greater
  | greaterEqual => .greaterEqual
  | equal => .equalEqual
  | notEqual => .bangEqual

/-- The level of a binary operator. -/
def BinaryOp.level : BinaryOp → Level
  | add | subtract => .term
  | multiply | divide => .factor
  | less | lessEqual | greater | greaterEqual => .comparison
  | equal | notEqual => .equality

/-- The keyword of a logical operator. -/
def LogicalOp.keyword : LogicalOp → Keyword
  | and => .andWord
  | or => .orWord

/-- The level of a logical operator. -/
def LogicalOp.level : LogicalOp → Level
  | and => .conjunction
  | or => .disjunction

namespace InfixOp

/-- The level of an infix operator. -/
def level : InfixOp → Level
  | binary op => op.level
  | logical op => op.level

/-- An infix operator as a token. A tree does not keep the line of a logical one. -/
def token (op : InfixOp) (line : Nat) : Token :=
  match op with
  | binary op => op.mark.token line
  | logical op => op.keyword.token

theorem operator?_eq_some_iff {l : Level} {k : Token.Kind} {op : InfixOp} :
    l.operator? k = some op ↔ op.level = l ∧ k = (op.token 0).kind := by
  constructor
  · intro h
    unfold Level.operator? at h
    split at h <;> cases h <;> exact ⟨rfl, rfl⟩
  · rintro ⟨rfl, rfl⟩
    rcases op with op | op <;> cases op <;> rfl

theorem kind_token (op : InfixOp) (line : Nat) : (op.token line).kind = (op.token 0).kind := by
  cases op <;> rfl

/-- What is kept of an operator that was read. -/
theorem kept_token {l : Level} {t : Token} {op : InfixOp} (h : l.operator? t.kind = some op) :
    (op.token t.line).kept = t.kept := by
  obtain ⟨-, hkind⟩ := operator?_eq_some_iff.1 h
  cases op with
  | binary op => exact Mark.kept_token hkind (.inr rfl)
  | logical op =>
      have hword : t.kind = op.keyword.token.kind := hkind
      show op.keyword.token.kept = t.kept
      unfold Token.kept
      rw [hword]
      cases op <;> rfl

/-- The line of the token is the one that the tree keeps. -/
theorem join_line_token (op : InfixOp) (line : Nat) (left right : Expr) :
    op.join (op.token line).line left right = op.join line left right := by
  cases op <;> rfl

end InfixOp

/-! ## Flattening -/

mutual

/-- The tokens of an expression in their order. -/
def Expr.flatten : Expr → List Token
  | .literal value => [value.token]
  | .grouping inner => Mark.leftParen.token 0 :: (inner.flatten ++ [Mark.rightParen.token 0])
  | .unary op line operand => op.mark.token line :: operand.flatten
  | .binary op line left right => left.flatten ++ op.mark.token line :: right.flatten
  | .logical op left right => left.flatten ++ op.keyword.token :: right.flatten
  | .variable name => [name.token .identifier]
  | .assign name value => name.token .identifier :: Mark.equal.token 0 :: value.flatten
  | .call callee arguments line =>
    callee.flatten ++
      Mark.leftParen.token 0 :: (Expr.flattenAll arguments ++ [Mark.rightParen.token line])
  | .get object property => object.flatten ++ [Mark.dot.token 0, property.token .identifier]
  | .set object property value =>
    object.flatten ++
      Mark.dot.token 0 :: property.token .identifier :: Mark.equal.token 0 :: value.flatten
  | .this keyword => [keyword.token (.keyword .thisWord)]
  | .super keyword method =>
    [keyword.token (.keyword .superWord), Mark.dot.token 0, method.token .identifier]

/-- The tokens of expressions with commas between them. -/
def Expr.flattenAll : List Expr → List Token
  | [] => []
  | e :: es => e.flatten ++ Expr.flattenMore es

/-- The tokens of more expressions, each with a comma before it. -/
def Expr.flattenMore : List Expr → List Token
  | [] => []
  | e :: es => Mark.comma.token 0 :: (e.flatten ++ Expr.flattenMore es)

end

namespace Expr

theorem flatten_join (op : InfixOp) (line : Nat) (left right : Expr) :
    (op.join line left right).flatten = left.flatten ++ op.token line :: right.flatten := by
  cases op <;> rw [InfixOp.join, flatten, InfixOp.token]

theorem flattenAll_cons_cons (e e' : Expr) (es : List Expr) :
    flattenAll (e :: e' :: es) = e.flatten ++ Mark.comma.token 0 :: flattenAll (e' :: es) := by
  rw [flattenAll, flattenMore, flattenAll]

theorem flattenAll_singleton (e : Expr) : flattenAll [e] = e.flatten := by
  rw [flattenAll, flattenMore, List.append_nil]

end Expr

/-! ## Grades -/

namespace Level

/-- The grade of the operators of a level. -/
def grade : Level → Nat
  | disjunction => 1
  | conjunction => 2
  | equality => 3
  | comparison => 4
  | term => 5
  | factor => 6

theorem grade_tighter {l tighter : Level} (h : l.tighter? = some tighter) :
    tighter.grade = l.grade + 1 := by
  cases l <;> cases h <;> rfl

theorem grade_of_tightest {l : Level} (h : l.tighter? = none) : l.grade = 6 := by
  cases l <;> first | rfl | cases h

theorem grade_le (l : Level) : l.grade ≤ 6 := by cases l <;> decide

/-- What the next tighter level hands on, every level has. -/
theorem induction_tighter {motive : Level → Prop}
    (h : ∀ l : Level, (∀ tighter, l.tighter? = some tighter → motive tighter) → motive l)
    (l : Level) : motive l := by
  refine h l fun tighter htighter => ?_
  have hgrade := grade_tighter htighter
  have hle := grade_le tighter
  exact induction_tighter h tighter
termination_by 6 - l.grade

end Level

namespace Expr

/-- How tightly an expression holds together: assignments least, then infix operators by their
levels, then unary operators (7), calls and property accesses (8), and primary expressions. -/
def grade : Expr → Nat
  | .assign _ _ | .set _ _ _ => 0
  | .logical op _ _ => op.level.grade
  | .binary op _ _ _ => op.level.grade
  | .unary _ _ _ => 7
  | .call _ _ _ | .get _ _ => 8
  | .literal _ | .grouping _ | .variable _ | .this _ | .super _ _ => 9

/-- Every operand is of a grade that its place allows, and no call has too many arguments. -/
inductive Graded : Expr → Prop
  | literal (value : Literal) : Graded (.literal value)
  | variable (name : Name) : Graded (.variable name)
  | this (keyword : Name) : Graded (.this keyword)
  | super (keyword method : Name) : Graded (.super keyword method)
  | grouping {inner : Expr} (h : Graded inner) : Graded (.grouping inner)
  | unary {op : UnaryOp} {line : Nat} {operand : Expr} (h : Graded operand)
      (hgrade : 7 ≤ operand.grade) : Graded (.unary op line operand)
  | binary {op : BinaryOp} {line : Nat} {left right : Expr} (hleft : Graded left)
      (hright : Graded right) (hleftGrade : op.level.grade ≤ left.grade)
      (hrightGrade : op.level.grade < right.grade) : Graded (.binary op line left right)
  | logical {op : LogicalOp} {left right : Expr} (hleft : Graded left) (hright : Graded right)
      (hleftGrade : op.level.grade ≤ left.grade) (hrightGrade : op.level.grade < right.grade) :
      Graded (.logical op left right)
  | assign {name : Name} {value : Expr} (h : Graded value) : Graded (.assign name value)
  | call {callee : Expr} {arguments : List Expr} {line : Nat} (hcallee : Graded callee)
      (hgrade : 8 ≤ callee.grade) (harguments : ∀ e ∈ arguments, Graded e)
      (hmost : arguments.length ≤ maxArguments) : Graded (.call callee arguments line)
  | get {object : Expr} {property : Name} (h : Graded object) (hgrade : 8 ≤ object.grade) :
      Graded (.get object property)
  | set {object value : Expr} {property : Name} (hobject : Graded object)
      (hgrade : 8 ≤ object.grade) (hvalue : Graded value) : Graded (.set object property value)

theorem grade_join (op : InfixOp) (line : Nat) (left right : Expr) :
    (op.join line left right).grade = op.level.grade := by
  cases op <;> rfl

theorem Graded.join {op : InfixOp} {line : Nat} {left right : Expr} (hleft : Graded left)
    (hright : Graded right) (hleftGrade : op.level.grade ≤ left.grade)
    (hrightGrade : op.level.grade < right.grade) : Graded (op.join line left right) := by
  cases op with
  | binary op => exact .binary hleft hright hleftGrade hrightGrade
  | logical op => exact .logical hleft hright hleftGrade hrightGrade

end Expr

namespace Grammar

/-- The least grade of what a phrase derives. -/
def Phrase.grade : Phrase → Nat
  | .symbol .primary => 9
  | .symbol .call => 8
  | .symbol .unary => 7
  | .symbol .factor => 6
  | .symbol .term => 5
  | .symbol .comparison => 4
  | .symbol .equality => 3
  | .symbol .logicAnd => 2
  | .symbol .logicOr => 1
  | _ => 0

/-- The most expressions that a phrase derives. -/
def Phrase.most : Phrase → Nat
  | .listed most _ => most
  | _ => maxArguments

theorem grade_levelSymbol (l : Level) : (Phrase.symbol (levelSymbol l)).grade = l.grade := by
  cases l <;> rfl

theorem grade_operandSymbol (l : Level) :
    (Phrase.symbol (operandSymbol l)).grade = l.grade + 1 := by
  cases l <;> rfl

/-- The tokens are those of a tree that the phrase allows. -/
def Tree.Flattens (p : Phrase) (ts : List Token) : Tree → Prop
  | .expr e => e.Graded ∧ p.grade ≤ e.grade ∧ e.flatten.map Token.kept = ts.map Token.kept
  | .exprs es =>
    (∀ e ∈ es, e.Graded) ∧ es.length ≤ p.most ∧
      (Expr.flattenAll es).map Token.kept = ts.map Token.kept
  | _ => True

/-- Tokens are what the tree that they spell is written with. -/
theorem Spells.flattens {p : Phrase} {ts : List Token} {tree : Tree} (h : Spells p ts tree) :
    tree.Flattens p ts := by
  induction h with
  | @literal t value h =>
      refine ⟨.literal value, Nat.le_refl 9, ?_⟩
      rw [Expr.flatten, List.map_singleton, List.map_singleton, Literal.kept_token h]
  | this h =>
      refine ⟨.this _, Nat.le_refl 9, ?_⟩
      rw [Expr.flatten, Token.token_toName h]
  | super h hdot hmethod =>
      refine ⟨.super _ _, Nat.le_refl 9, ?_⟩
      rw [Expr.flatten, Token.token_toName h, Token.token_toName hmethod]
      simp only [List.map_cons, Mark.kept_token hdot (.inl rfl)]
  | identifier h =>
      refine ⟨.variable _, Nat.le_refl 9, ?_⟩
      rw [Expr.flatten, Token.token_toName h]
  | grouping hopening _ hclosing ih =>
      obtain ⟨hinner, -, hflatten⟩ := ih
      refine ⟨.grouping hinner, Nat.le_refl 9, ?_⟩
      simp only [Expr.flatten, List.map_cons, List.map_append, hflatten, List.map_nil,
        Mark.kept_token hopening (.inl rfl), Mark.kept_token hclosing (.inl rfl)]
  | primary _ ih => exact ⟨ih.1, Nat.le_trans (by decide) ih.2.1, ih.2.2⟩
  | noArguments => exact ⟨by simp, Nat.zero_le _, by rw [Expr.flattenAll]⟩
  | arguments _ ih => exact ih
  | @lastExpr most _ _ _ ih =>
      obtain ⟨he, -, hflatten⟩ := ih
      refine ⟨by simpa using he, Nat.succ_le_succ (Nat.zero_le most), ?_⟩
      rw [Expr.flattenAll_singleton, hflatten]
  | @moreExprs most ts us comma e es _ hcomma hrest ih ihrest =>
      obtain ⟨he, -, hflatten⟩ := ih
      obtain ⟨hes, hmost, hflattenAll⟩ := ihrest
      refine ⟨by simpa using ⟨he, hes⟩, Nat.succ_le_succ hmost, ?_⟩
      -- No list of the grammar is empty, so a comma stands before the rest.
      cases es with
      | nil => cases hrest
      | cons e' es =>
          rw [Expr.flattenAll_cons_cons]
          simp only [List.map_cons, List.map_append, hflatten, hflattenAll,
            Mark.kept_token hcomma (.inl rfl)]
  | call _ hopening _ hclosing ih iharguments =>
      obtain ⟨hcallee, hgrade, hflatten⟩ := ih
      obtain ⟨harguments, hmost, hflattenAll⟩ := iharguments
      refine ⟨.call hcallee hgrade harguments hmost, Nat.le_refl 8, ?_⟩
      simp only [Expr.flatten, List.map_cons, List.map_append, hflatten, hflattenAll, List.map_nil,
        Mark.kept_token hopening (.inl rfl), Mark.kept_token hclosing (.inl rfl)]
  | get _ hdot hproperty ih =>
      obtain ⟨hobject, hgrade, hflatten⟩ := ih
      refine ⟨.get hobject hgrade, Nat.le_refl 8, ?_⟩
      rw [Expr.flatten, Token.token_toName hproperty]
      simp only [List.map_cons, List.map_append, hflatten, Mark.kept_token hdot (.inl rfl)]
  | callUnary _ ih => exact ⟨ih.1, Nat.le_trans (by decide) ih.2.1, ih.2.2⟩
  | @unary t ts op operand hop _ ih =>
      obtain ⟨hoperand, hgrade, hflatten⟩ := ih
      refine ⟨.unary hoperand hgrade, Nat.le_refl 7, ?_⟩
      have hkind : t.kind = .mark op.mark := UnaryOp.ofKind?_eq_some_iff.1 hop
      simp only [Expr.flatten, List.map_cons, hflatten, Mark.kept_token hkind (.inr rfl)]
  | @operand l ts e _ ih =>
      obtain ⟨he, hgrade, hflatten⟩ := ih
      rw [grade_operandSymbol] at hgrade
      refine ⟨he, ?_, hflatten⟩
      rw [grade_levelSymbol]
      omega
  | @infixed l ts us t op left right _ hop _ ihleft ihright =>
      obtain ⟨hleft, hleftGrade, hflattenLeft⟩ := ihleft
      obtain ⟨hright, hrightGrade, hflattenRight⟩ := ihright
      rw [grade_levelSymbol] at hleftGrade
      rw [grade_operandSymbol] at hrightGrade
      obtain ⟨rfl, -⟩ := InfixOp.operator?_eq_some_iff.1 hop
      refine ⟨.join hleft hright hleftGrade hrightGrade, ?_, ?_⟩
      · have hgrade : (Phrase.symbol (levelSymbol op.level)).grade =
            (op.join t.line left right).grade := by rw [grade_levelSymbol, Expr.grade_join]
        exact Nat.le_of_eq hgrade
      · rw [Expr.flatten_join, List.map_append, List.map_append, List.map_cons, List.map_cons,
          hflattenLeft, hflattenRight, InfixOp.kept_token hop]
  | disjunction _ ih => exact ⟨ih.1, Nat.zero_le _, ih.2.2⟩
  | assign htarget hequals _ ih =>
      obtain ⟨hvalue, -, hflatten⟩ := ih
      refine ⟨.assign hvalue, Nat.zero_le _, ?_⟩
      rw [Expr.flatten, Token.token_toName htarget]
      simp only [List.map_cons, hflatten, Mark.kept_token hequals (.inl rfl)]
  | set _ hdot hproperty hequals _ ihobject ih =>
      obtain ⟨hobject, hgrade, hflattenObject⟩ := ihobject
      obtain ⟨hvalue, -, hflatten⟩ := ih
      refine ⟨.set hobject hgrade hvalue, Nat.zero_le _, ?_⟩
      rw [Expr.flatten, Token.token_toName hproperty]
      simp only [List.map_cons, List.map_append, hflattenObject, hflatten,
        Mark.kept_token hdot (.inl rfl), Mark.kept_token hequals (.inl rfl)]
  | expression _ ih => exact ⟨ih.1, Nat.zero_le _, ih.2.2⟩
  | _ => trivial

end Grammar

end Lox
