import Lox.Proofs.Grammar.Rules

set_option autoImplicit false

/-! # Tokens that spell a tree

`Spells p ts tree` refines `Derives p ts`: the tokens `ts` derive from the phrase `p`, and `tree` is
what they stand for. Its rules are those of the grammar with a tree on each side, except that
operators of one level, and the calls and accesses after an expression, are collected from the
left, as their trees are.

One relation covers every syntactic category, so that a fact about the trees of all categories
is one induction (`Tree`).
-/

namespace Lox.Grammar

/-- What tokens can stand for. -/
inductive Tree
  | expr (e : Expr)
  | maybeExpr (e : Option Expr)
  | exprs (es : List Expr)
  | name (n : Option Name)
  | names (ns : List Name)
  | stmt (s : Stmt)
  | maybeStmt (s : Option Stmt)
  | stmts (ss : List Stmt)
  | function (f : Function)
  | functions (fs : List Function)

/-- The symbol of a level of infix operators. -/
def levelSymbol : Level → Symbol
  | .disjunction => .logicOr
  | .conjunction => .logicAnd
  | .equality => .equality
  | .comparison => .comparison
  | .term => .term
  | .factor => .factor

/-- The symbol of the operands of a level. -/
def operandSymbol (l : Level) : Symbol :=
  match l.tighter? with
  | some tighter => levelSymbol tighter
  | none => .unary

/-- The superclass clause of a class. -/
def superclassPhrase : Phrase := .optional (sequence [mark .less, name])

/-- The initializer of a variable. -/
def initializerPhrase : Phrase := .optional (sequence [mark .equal, .symbol .expression])

/-- The first clause of a `for` loop. -/
def forInitialPhrase : Phrase := choice (.symbol .varDecl) [.symbol .exprStmt, mark .semicolon]

/-- The other branch of a conditional. -/
def elsePhrase : Phrase := .optional (sequence [word .elseWord, .symbol .statement])

/-- Tokens that derive from a phrase spell a tree. -/
inductive Spells : Phrase → List Token → Tree → Prop
  -- Expressions
  | literal {t : Token} {value : Literal} (h : Literal.ofKind? t.kind = some value) :
      Spells (.symbol .primary) [t] (.expr (.literal value))
  | this {t : Token} (h : t.kind = .keyword .thisWord) :
      Spells (.symbol .primary) [t] (.expr (.this t.toName))
  | super {t dot method : Token} (h : t.kind = .keyword .superWord)
      (hdot : dot.kind = .mark .dot) (hmethod : method.kind = .identifier) :
      Spells (.symbol .primary) [t, dot, method] (.expr (.super t.toName method.toName))
  | identifier {t : Token} (h : t.kind = .identifier) :
      Spells (.symbol .primary) [t] (.expr (.variable t.toName))
  | grouping {opening closing : Token} {ts : List Token} {inner : Expr}
      (hopening : opening.kind = .mark .leftParen)
      (h : Spells (.symbol .expression) ts (.expr inner))
      (hclosing : closing.kind = .mark .rightParen) :
      Spells (.symbol .primary) (opening :: (ts ++ [closing])) (.expr (.grouping inner))
  | primary {ts : List Token} {e : Expr} (h : Spells (.symbol .primary) ts (.expr e)) :
      Spells (.symbol .call) ts (.expr e)
  | noArguments : Spells (.optional (.symbol .arguments)) [] (.exprs [])
  | arguments {ts : List Token} {es : List Expr}
      (h : Spells (.listed maxArguments (.symbol .expression)) ts (.exprs es)) :
      Spells (.optional (.symbol .arguments)) ts (.exprs es)
  | lastExpr {most : Nat} {ts : List Token} {e : Expr}
      (h : Spells (.symbol .expression) ts (.expr e)) :
      Spells (.listed (most + 1) (.symbol .expression)) ts (.exprs [e])
  | moreExprs {most : Nat} {ts us : List Token} {comma : Token} {e : Expr} {es : List Expr}
      (h : Spells (.symbol .expression) ts (.expr e)) (hcomma : comma.kind = .mark .comma)
      (hrest : Spells (.listed most (.symbol .expression)) us (.exprs es)) :
      Spells (.listed (most + 1) (.symbol .expression)) (ts ++ comma :: us) (.exprs (e :: es))
  | call {opening closing : Token} {ts us : List Token} {callee : Expr} {es : List Expr}
      (h : Spells (.symbol .call) ts (.expr callee))
      (hopening : opening.kind = .mark .leftParen)
      (harguments : Spells (.optional (.symbol .arguments)) us (.exprs es))
      (hclosing : closing.kind = .mark .rightParen) :
      Spells (.symbol .call) (ts ++ opening :: (us ++ [closing]))
        (.expr (.call callee es closing.line))
  | get {dot property : Token} {ts : List Token} {object : Expr}
      (h : Spells (.symbol .call) ts (.expr object)) (hdot : dot.kind = .mark .dot)
      (hproperty : property.kind = .identifier) :
      Spells (.symbol .call) (ts ++ [dot, property]) (.expr (.get object property.toName))
  | callUnary {ts : List Token} {e : Expr} (h : Spells (.symbol .call) ts (.expr e)) :
      Spells (.symbol .unary) ts (.expr e)
  | unary {t : Token} {ts : List Token} {op : UnaryOp} {operand : Expr}
      (hop : UnaryOp.ofKind? t.kind = some op)
      (h : Spells (.symbol .unary) ts (.expr operand)) :
      Spells (.symbol .unary) (t :: ts) (.expr (.unary op t.line operand))
  | operand {l : Level} {ts : List Token} {e : Expr}
      (h : Spells (.symbol (operandSymbol l)) ts (.expr e)) :
      Spells (.symbol (levelSymbol l)) ts (.expr e)
  | infixed {l : Level} {ts us : List Token} {t : Token} {op : InfixOp} {left right : Expr}
      (hleft : Spells (.symbol (levelSymbol l)) ts (.expr left))
      (hop : l.operator? t.kind = some op)
      (hright : Spells (.symbol (operandSymbol l)) us (.expr right)) :
      Spells (.symbol (levelSymbol l)) (ts ++ t :: us) (.expr (op.join t.line left right))
  | disjunction {ts : List Token} {e : Expr} (h : Spells (.symbol .logicOr) ts (.expr e)) :
      Spells (.symbol .assignment) ts (.expr e)
  | assign {target equals : Token} {ts : List Token} {value : Expr}
      (htarget : target.kind = .identifier) (hequals : equals.kind = .mark .equal)
      (h : Spells (.symbol .assignment) ts (.expr value)) :
      Spells (.symbol .assignment) (target :: equals :: ts) (.expr (.assign target.toName value))
  | set {dot property equals : Token} {ts us : List Token} {object value : Expr}
      (hobject : Spells (.symbol .call) ts (.expr object)) (hdot : dot.kind = .mark .dot)
      (hproperty : property.kind = .identifier) (hequals : equals.kind = .mark .equal)
      (h : Spells (.symbol .assignment) us (.expr value)) :
      Spells (.symbol .assignment) (ts ++ dot :: property :: equals :: us)
        (.expr (.set object property.toName value))
  | expression {ts : List Token} {e : Expr} (h : Spells (.symbol .assignment) ts (.expr e)) :
      Spells (.symbol .expression) ts (.expr e)
  | noExpression : Spells (.optional (.symbol .expression)) [] (.maybeExpr none)
  | someExpression {ts : List Token} {e : Expr}
      (h : Spells (.symbol .expression) ts (.expr e)) :
      Spells (.optional (.symbol .expression)) ts (.maybeExpr (some e))
  -- Declarations
  | noSuperclass : Spells superclassPhrase [] (.name none)
  | superclass {less name : Token} (hless : less.kind = .mark .less)
      (hname : name.kind = .identifier) :
      Spells superclassPhrase [less, name] (.name (some name.toName))
  | noMethods : Spells (.repeated (.symbol .function)) [] (.functions [])
  | methods {ts us : List Token} {f : Function} {fs : List Function}
      (h : Spells (.symbol .function) ts (.function f))
      (hrest : Spells (.repeated (.symbol .function)) us (.functions fs)) :
      Spells (.repeated (.symbol .function)) (ts ++ us) (.functions (f :: fs))
  | classDecl {keyword name opening closing : Token} {ts us : List Token} {above : Option Name}
      {methods : List Function} (hkeyword : keyword.kind = .keyword .classWord)
      (hname : name.kind = .identifier) (habove : Spells superclassPhrase ts (.name above))
      (hopening : opening.kind = .mark .leftBrace)
      (hmethods : Spells (.repeated (.symbol .function)) us (.functions methods))
      (hclosing : closing.kind = .mark .rightBrace) :
      Spells (.symbol .declaration)
        (keyword :: name :: (ts ++ opening :: (us ++ [closing])))
        (.stmt (.classDecl name.toName above methods))
  | noParameters : Spells (.optional (.symbol .parameters)) [] (.names [])
  | parameters {ts : List Token} {ns : List Name}
      (h : Spells (.listed maxArguments name) ts (.names ns)) :
      Spells (.optional (.symbol .parameters)) ts (.names ns)
  | lastName {most : Nat} {t : Token} (h : t.kind = .identifier) :
      Spells (.listed (most + 1) name) [t] (.names [t.toName])
  | moreNames {most : Nat} {t comma : Token} {ts : List Token} {ns : List Name}
      (h : t.kind = .identifier) (hcomma : comma.kind = .mark .comma)
      (hrest : Spells (.listed most name) ts (.names ns)) :
      Spells (.listed (most + 1) name) (t :: comma :: ts) (.names (t.toName :: ns))
  | function {name opening closing : Token} {ts us : List Token} {ns : List Name}
      {body : List Stmt} (hname : name.kind = .identifier)
      (hopening : opening.kind = .mark .leftParen)
      (hparameters : Spells (.optional (.symbol .parameters)) ts (.names ns))
      (hclosing : closing.kind = .mark .rightParen)
      (hbody : Spells (.symbol .block) us (.stmts body)) :
      Spells (.symbol .function) (name :: opening :: (ts ++ closing :: us))
        (.function ⟨name.toName, ns, body⟩)
  | funDecl {keyword : Token} {ts : List Token} {f : Function}
      (hkeyword : keyword.kind = .keyword .funWord)
      (h : Spells (.symbol .function) ts (.function f)) :
      Spells (.symbol .declaration) (keyword :: ts) (.stmt (.function f))
  | noInitializer : Spells initializerPhrase [] (.maybeExpr none)
  | initializer {equals : Token} {ts : List Token} {e : Expr}
      (hequals : equals.kind = .mark .equal) (h : Spells (.symbol .expression) ts (.expr e)) :
      Spells initializerPhrase (equals :: ts) (.maybeExpr (some e))
  | varDecl {keyword name semicolon : Token} {ts : List Token} {initial : Option Expr}
      (hkeyword : keyword.kind = .keyword .varWord) (hname : name.kind = .identifier)
      (hinitial : Spells initializerPhrase ts (.maybeExpr initial))
      (hsemicolon : semicolon.kind = .mark .semicolon) :
      Spells (.symbol .varDecl) (keyword :: name :: (ts ++ [semicolon]))
        (.stmt (.var name.toName initial))
  | variableDecl {ts : List Token} {s : Stmt} (h : Spells (.symbol .varDecl) ts (.stmt s)) :
      Spells (.symbol .declaration) ts (.stmt s)
  | statement {ts : List Token} {s : Stmt} (h : Spells (.symbol .statement) ts (.stmt s)) :
      Spells (.symbol .declaration) ts (.stmt s)
  | noDeclarations : Spells (.repeated (.symbol .declaration)) [] (.stmts [])
  | declarations {ts us : List Token} {s : Stmt} {ss : List Stmt}
      (h : Spells (.symbol .declaration) ts (.stmt s))
      (hrest : Spells (.repeated (.symbol .declaration)) us (.stmts ss)) :
      Spells (.repeated (.symbol .declaration)) (ts ++ us) (.stmts (s :: ss))
  -- Statements
  | exprStmt {semicolon : Token} {ts : List Token} {e : Expr}
      (h : Spells (.symbol .expression) ts (.expr e))
      (hsemicolon : semicolon.kind = .mark .semicolon) :
      Spells (.symbol .exprStmt) (ts ++ [semicolon]) (.stmt (.expression e))
  | expressionStmt {ts : List Token} {s : Stmt} (h : Spells (.symbol .exprStmt) ts (.stmt s)) :
      Spells (.symbol .statement) ts (.stmt s)
  | forVariable {ts : List Token} {s : Stmt} (h : Spells (.symbol .varDecl) ts (.stmt s)) :
      Spells forInitialPhrase ts (.maybeStmt (some s))
  | forExpression {ts : List Token} {s : Stmt} (h : Spells (.symbol .exprStmt) ts (.stmt s)) :
      Spells forInitialPhrase ts (.maybeStmt (some s))
  | forNothing {semicolon : Token} (h : semicolon.kind = .mark .semicolon) :
      Spells forInitialPhrase [semicolon] (.maybeStmt none)
  | forStmt {keyword opening semicolon closing : Token} {ts us vs ws : List Token}
      {initial : Option Stmt} {condition increment : Option Expr} {body : Stmt}
      (hkeyword : keyword.kind = .keyword .forWord)
      (hopening : opening.kind = .mark .leftParen)
      (hinitial : Spells forInitialPhrase ts (.maybeStmt initial))
      (hcondition : Spells (.optional (.symbol .expression)) us (.maybeExpr condition))
      (hsemicolon : semicolon.kind = .mark .semicolon)
      (hincrement : Spells (.optional (.symbol .expression)) vs (.maybeExpr increment))
      (hclosing : closing.kind = .mark .rightParen)
      (hbody : Spells (.symbol .statement) ws (.stmt body)) :
      Spells (.symbol .statement)
        (keyword :: opening :: (ts ++ (us ++ semicolon :: (vs ++ closing :: ws))))
        (.stmt (.forLoop initial condition increment body))
  | noElse : Spells elsePhrase [] (.maybeStmt none)
  | someElse {keyword : Token} {ts : List Token} {s : Stmt}
      (hkeyword : keyword.kind = .keyword .elseWord)
      (h : Spells (.symbol .statement) ts (.stmt s)) :
      Spells elsePhrase (keyword :: ts) (.maybeStmt (some s))
  | ifStmt {keyword opening closing : Token} {ts us vs : List Token} {condition : Expr}
      {yes : Stmt} {no : Option Stmt} (hkeyword : keyword.kind = .keyword .ifWord)
      (hopening : opening.kind = .mark .leftParen)
      (hcondition : Spells (.symbol .expression) ts (.expr condition))
      (hclosing : closing.kind = .mark .rightParen)
      (hyes : Spells (.symbol .statement) us (.stmt yes))
      (hno : Spells elsePhrase vs (.maybeStmt no)) :
      Spells (.symbol .statement) (keyword :: opening :: (ts ++ closing :: (us ++ vs)))
        (.stmt (.branch condition yes no))
  | printStmt {keyword semicolon : Token} {ts : List Token} {e : Expr}
      (hkeyword : keyword.kind = .keyword .printWord)
      (h : Spells (.symbol .expression) ts (.expr e))
      (hsemicolon : semicolon.kind = .mark .semicolon) :
      Spells (.symbol .statement) (keyword :: (ts ++ [semicolon])) (.stmt (.print e))
  | returnStmt {keyword semicolon : Token} {ts : List Token} {value : Option Expr}
      (hkeyword : keyword.kind = .keyword .returnWord)
      (h : Spells (.optional (.symbol .expression)) ts (.maybeExpr value))
      (hsemicolon : semicolon.kind = .mark .semicolon) :
      Spells (.symbol .statement) (keyword :: (ts ++ [semicolon]))
        (.stmt (.ret keyword.toName value))
  | whileStmt {keyword opening closing : Token} {ts us : List Token} {condition : Expr}
      {body : Stmt} (hkeyword : keyword.kind = .keyword .whileWord)
      (hopening : opening.kind = .mark .leftParen)
      (hcondition : Spells (.symbol .expression) ts (.expr condition))
      (hclosing : closing.kind = .mark .rightParen)
      (hbody : Spells (.symbol .statement) us (.stmt body)) :
      Spells (.symbol .statement) (keyword :: opening :: (ts ++ closing :: us))
        (.stmt (.loop condition body))
  | block {opening closing : Token} {ts : List Token} {body : List Stmt}
      (hopening : opening.kind = .mark .leftBrace)
      (h : Spells (.repeated (.symbol .declaration)) ts (.stmts body))
      (hclosing : closing.kind = .mark .rightBrace) :
      Spells (.symbol .block) (opening :: (ts ++ [closing])) (.stmts body)
  | blockStmt {ts : List Token} {body : List Stmt}
      (h : Spells (.symbol .block) ts (.stmts body)) :
      Spells (.symbol .statement) ts (.stmt (.block body))

/-! ## Levels -/

/-- The operators of a level. -/
def operatorPhrase : Level → Phrase
  | .disjunction => word .orWord
  | .conjunction => word .andWord
  | .equality => choice (mark .bangEqual) [mark .equalEqual]
  | .comparison => choice (mark .greater) [mark .greaterEqual, mark .less, mark .lessEqual]
  | .term => choice (mark .minus) [mark .plus]
  | .factor => choice (mark .slash) [mark .star]

theorem rule_levelSymbol (l : Level) :
    rule (levelSymbol l) = infixed (operatorPhrase l) (.symbol (operandSymbol l)) := by
  cases l <;> rfl

/-- The operators that the parser looks for are those of the grammar. -/
theorem derives_operatorPhrase_iff {l : Level} {ts : List Token} :
    Derives (operatorPhrase l) ts ↔ ∃ t op, ts = [t] ∧ l.operator? t.kind = some op := by
  constructor
  · intro h
    cases l <;>
      simp only [operatorPhrase, word, mark, choice, derives_either_iff, derives_terminal_iff,
        fits_word_iff, fits_mark_iff] at h
    case disjunction | conjunction =>
      obtain ⟨t, rfl, ht⟩ := h
      exact ⟨t, _, rfl, by rw [ht]; rfl⟩
    case equality | term | factor =>
      rcases h with ⟨t, rfl, ht⟩ | ⟨t, rfl, ht⟩ <;> exact ⟨t, _, rfl, by rw [ht]; rfl⟩
    case comparison =>
      rcases h with ⟨t, rfl, ht⟩ | ⟨t, rfl, ht⟩ | ⟨t, rfl, ht⟩ | ⟨t, rfl, ht⟩ <;>
        exact ⟨t, _, rfl, by rw [ht]; rfl⟩
  · rintro ⟨t, op, rfl, hop⟩
    unfold Level.operator? at hop
    split at hop <;>
      simp_all [operatorPhrase, word, mark, choice]

/-- The tokens that start a unary expression with an operator. -/
theorem derives_unaryOperator_iff {ts : List Token} :
    Derives (choice (mark .bang) [mark .minus]) ts ↔
      ∃ t op, ts = [t] ∧ UnaryOp.ofKind? t.kind = some op := by
  simp only [mark, choice, derives_either_iff, derives_terminal_iff, fits_mark_iff]
  constructor
  · rintro (⟨t, rfl, ht⟩ | ⟨t, rfl, ht⟩) <;> exact ⟨t, _, rfl, by rw [ht]; rfl⟩
  · rintro ⟨t, op, rfl, hop⟩
    unfold UnaryOp.ofKind? at hop
    split at hop <;> simp_all

/-- The literals are primary expressions. -/
theorem derives_primary_of_literal {t : Token} {value : Literal}
    (h : Literal.ofKind? t.kind = some value) : Derives (.symbol .primary) [t] := by
  refine .symbol ?_
  unfold Literal.ofKind? at h
  split at h
  case h_1 hk => exact .of_choice (r := word .nilWord) (by simp) (.terminal hk)
  case h_2 hk => exact .of_choice (r := word .trueWord) (by simp) (.terminal hk)
  case h_3 hk => exact .of_choice (r := word .falseWord) (by simp) (.terminal hk)
  case h_4 hk => exact .of_choice (Or.inl rfl) (.terminal ⟨_, hk⟩)
  case h_5 hk => exact .of_choice (r := .terminal .string) (by simp) (.terminal ⟨_, hk⟩)
  case h_6 => cases h

/-! ## What can be assigned to -/

theorem join_ne_variable (op : InfixOp) (line : Nat) (left right : Expr) (n : Name) :
    op.join line left right ≠ .variable n := by
  cases op <;> exact Expr.noConfusion

theorem join_ne_get (op : InfixOp) (line : Nat) (left right object : Expr) (n : Name) :
    op.join line left right ≠ .get object n := by
  cases op <;> exact Expr.noConfusion

/-- Only an identifier alone spells a variable. -/
theorem Spells.of_variable {p : Phrase} {ts : List Token} {n : Name}
    (h : Spells p ts (.expr (.variable n))) :
    ∃ t, ts = [t] ∧ t.kind = .identifier ∧ n = t.toName := by
  generalize htree : Tree.expr (.variable n) = tree at h
  induction h with
  | identifier h =>
      cases htree
      exact ⟨_, rfl, h, rfl⟩
  -- The rules that pass a tree on have its tokens.
  | primary _ ih | callUnary _ ih | operand _ ih | disjunction _ ih | expression _ ih =>
      exact ih htree
  | infixed => exact absurd (Tree.expr.inj htree).symm (join_ne_variable _ _ _ _ _)
  | _ => cases htree

/-- Only a call, a dot and an identifier spell a property access. -/
theorem Spells.of_get {p : Phrase} {ts : List Token} {object : Expr} {n : Name}
    (h : Spells p ts (.expr (.get object n))) :
    ∃ us dot t, ts = us ++ [dot, t] ∧ Spells (.symbol .call) us (.expr object) ∧
      dot.kind = .mark .dot ∧ t.kind = .identifier ∧ n = t.toName := by
  generalize htree : Tree.expr (.get object n) = tree at h
  induction h with
  | get h hdot hproperty _ =>
      cases htree
      exact ⟨_, _, _, rfl, h, hdot, hproperty, rfl⟩
  | primary _ ih | callUnary _ ih | operand _ ih | disjunction _ ih | expression _ ih =>
      exact ih htree
  | infixed => exact absurd (Tree.expr.inj htree).symm (join_ne_get _ _ _ _ _ _)
  | _ => cases htree

end Lox.Grammar
