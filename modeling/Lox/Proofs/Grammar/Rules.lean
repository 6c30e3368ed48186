import Lox.Tree.Statement

set_option autoImplicit false

/-! # The grammar of programs

The grammar as data: `rule` gives every symbol its right-hand side, written in the operators of
EBNF (`Phrase`), and `Derives` says which lists of tokens a phrase derives. It knows neither
trees nor parsers. Parameters and arguments are lists of at most `maxArguments` items.

The conditional is ambiguous: an `else` may belong to any open `if` before it. Derivability does
not depend on the choice.
-/

namespace Lox.Grammar

/-! ## Phrases -/

/-- The kinds of token that rules name. -/
inductive Terminal
  | mark (m : Mark)
  | word (w : Keyword)
  | identifier
  | string
  | number

/-- A token of this kind stands for the terminal. -/
def Terminal.Fits : Terminal → Token.Kind → Prop
  | mark m, k => k = .mark m
  | word w, k => k = .keyword w
  | identifier, k => k = .identifier
  | string, k => ∃ contents, k = .string contents
  | number, k => ∃ value, k = .number value

/-- What the grammar has rules for. -/
inductive Symbol
  | program
  | declaration
  | classDecl
  | funDecl
  | function
  | varDecl
  | statement
  | exprStmt
  | forStmt
  | ifStmt
  | printStmt
  | returnStmt
  | whileStmt
  | block
  | parameters
  | expression
  | assignment
  | logicOr
  | logicAnd
  | equality
  | comparison
  | term
  | factor
  | unary
  | call
  | arguments
  | primary

/-- Right-hand sides of rules. -/
inductive Phrase
  | empty
  | terminal (t : Terminal)
  | symbol (s : Symbol)
  | both (first second : Phrase)
  | either (left right : Phrase)
  | optional (p : Phrase)
  | repeated (p : Phrase)
  /-- At least one item and at most so many, with commas between them. -/
  | listed (most : Nat) (item : Phrase)

/-- Phrases one after another. -/
def sequence : List Phrase → Phrase
  | [] => .empty
  | p :: ps => .both p (sequence ps)

/-- One of several phrases. -/
def choice (p : Phrase) : List Phrase → Phrase
  | [] => p
  | q :: qs => .either p (choice q qs)

/-- A mark, as a phrase. -/
def mark (m : Mark) : Phrase := .terminal (.mark m)

/-- A keyword, as a phrase. -/
def word (w : Keyword) : Phrase := .terminal (.word w)

/-- An identifier, as a phrase. -/
def name : Phrase := .terminal .identifier

/-- Operands with infix operators between them. -/
def infixed (operator operand : Phrase) : Phrase :=
  sequence [operand, .repeated (sequence [operator, operand])]

/-! ## Rules -/

/-- The right-hand side of every symbol. A program stands before the token that ends the
source, which is not part of what it derives. -/
def rule : Symbol → Phrase
  | .program => .repeated (.symbol .declaration)
  | .declaration =>
    choice (.symbol .classDecl) [.symbol .funDecl, .symbol .varDecl, .symbol .statement]
  | .classDecl =>
    sequence [word .classWord, name, .optional (sequence [mark .less, name]), mark .leftBrace,
      .repeated (.symbol .function), mark .rightBrace]
  | .funDecl => sequence [word .funWord, .symbol .function]
  | .function =>
    sequence [name, mark .leftParen, .optional (.symbol .parameters), mark .rightParen,
      .symbol .block]
  | .varDecl =>
    sequence [word .varWord, name, .optional (sequence [mark .equal, .symbol .expression]),
      mark .semicolon]
  | .statement =>
    choice (.symbol .exprStmt) [.symbol .forStmt, .symbol .ifStmt, .symbol .printStmt,
      .symbol .returnStmt, .symbol .whileStmt, .symbol .block]
  | .exprStmt => sequence [.symbol .expression, mark .semicolon]
  | .forStmt =>
    sequence [word .forWord, mark .leftParen,
      choice (.symbol .varDecl) [.symbol .exprStmt, mark .semicolon],
      .optional (.symbol .expression), mark .semicolon, .optional (.symbol .expression),
      mark .rightParen, .symbol .statement]
  | .ifStmt =>
    sequence [word .ifWord, mark .leftParen, .symbol .expression, mark .rightParen,
      .symbol .statement, .optional (sequence [word .elseWord, .symbol .statement])]
  | .printStmt => sequence [word .printWord, .symbol .expression, mark .semicolon]
  | .returnStmt =>
    sequence [word .returnWord, .optional (.symbol .expression), mark .semicolon]
  | .whileStmt =>
    sequence [word .whileWord, mark .leftParen, .symbol .expression, mark .rightParen,
      .symbol .statement]
  | .block => sequence [mark .leftBrace, .repeated (.symbol .declaration), mark .rightBrace]
  | .parameters => .listed maxArguments name
  | .expression => .symbol .assignment
  | .assignment =>
    choice
      (sequence [.optional (sequence [.symbol .call, mark .dot]), name, mark .equal,
        .symbol .assignment])
      [.symbol .logicOr]
  | .logicOr => infixed (word .orWord) (.symbol .logicAnd)
  | .logicAnd => infixed (word .andWord) (.symbol .equality)
  | .equality => infixed (choice (mark .bangEqual) [mark .equalEqual]) (.symbol .comparison)
  | .comparison =>
    infixed (choice (mark .greater) [mark .greaterEqual, mark .less, mark .lessEqual])
      (.symbol .term)
  | .term => infixed (choice (mark .minus) [mark .plus]) (.symbol .factor)
  | .factor => infixed (choice (mark .slash) [mark .star]) (.symbol .unary)
  | .unary =>
    choice (sequence [choice (mark .bang) [mark .minus], .symbol .unary]) [.symbol .call]
  | .call =>
    sequence [.symbol .primary,
      .repeated
        (choice (sequence [mark .leftParen, .optional (.symbol .arguments), mark .rightParen])
          [sequence [mark .dot, name]])]
  | .arguments => .listed maxArguments (.symbol .expression)
  | .primary =>
    choice (.terminal .number) [.terminal .string, word .trueWord, word .falseWord,
      word .nilWord, word .thisWord, name,
      sequence [mark .leftParen, .symbol .expression, mark .rightParen],
      sequence [word .superWord, mark .dot, name]]

/-! ## Derivations -/

/-- A phrase derives a list of tokens. -/
inductive Derives : Phrase → List Token → Prop
  | empty : Derives .empty []
  | terminal {t : Terminal} {token : Token} (h : t.Fits token.kind) :
      Derives (.terminal t) [token]
  | symbol {s : Symbol} {ts : List Token} (h : Derives (rule s) ts) : Derives (.symbol s) ts
  | both {p q : Phrase} {ts us : List Token} (hp : Derives p ts) (hq : Derives q us) :
      Derives (.both p q) (ts ++ us)
  | left {p q : Phrase} {ts : List Token} (h : Derives p ts) : Derives (.either p q) ts
  | right {p q : Phrase} {ts : List Token} (h : Derives q ts) : Derives (.either p q) ts
  | absent {p : Phrase} : Derives (.optional p) []
  | present {p : Phrase} {ts : List Token} (h : Derives p ts) : Derives (.optional p) ts
  | done {p : Phrase} : Derives (.repeated p) []
  | again {p : Phrase} {ts us : List Token} (hp : Derives p ts)
      (hrest : Derives (.repeated p) us) : Derives (.repeated p) (ts ++ us)
  | last {most : Nat} {p : Phrase} {ts : List Token} (h : Derives p ts) :
      Derives (.listed (most + 1) p) ts
  | more {most : Nat} {p : Phrase} {ts us : List Token} {comma : Token} (hp : Derives p ts)
      (hcomma : comma.kind = .mark .comma) (hrest : Derives (.listed most p) us) :
      Derives (.listed (most + 1) p) (ts ++ comma :: us)

variable {p q : Phrase} {ts : List Token}

@[simp] theorem derives_empty_iff : Derives .empty ts ↔ ts = [] := by
  constructor
  · intro h; cases h; rfl
  · rintro rfl; exact .empty

@[simp] theorem derives_terminal_iff {t : Terminal} :
    Derives (.terminal t) ts ↔ ∃ token, ts = [token] ∧ t.Fits token.kind := by
  constructor
  · intro h; cases h with | terminal h => exact ⟨_, rfl, h⟩
  · rintro ⟨token, rfl, h⟩; exact .terminal h

theorem derives_symbol_iff {s : Symbol} : Derives (.symbol s) ts ↔ Derives (rule s) ts := by
  constructor
  · intro h; cases h with | symbol h => exact h
  · exact .symbol

@[simp] theorem derives_both_iff :
    Derives (.both p q) ts ↔ ∃ us vs, ts = us ++ vs ∧ Derives p us ∧ Derives q vs := by
  constructor
  · intro h; cases h with | both hp hq => exact ⟨_, _, rfl, hp, hq⟩
  · rintro ⟨us, vs, rfl, hp, hq⟩; exact .both hp hq

@[simp] theorem derives_either_iff : Derives (.either p q) ts ↔ Derives p ts ∨ Derives q ts := by
  constructor
  · intro h
    cases h with
    | left h => exact Or.inl h
    | right h => exact Or.inr h
  · rintro (h | h)
    · exact .left h
    · exact .right h

@[simp] theorem derives_optional_iff : Derives (.optional p) ts ↔ ts = [] ∨ Derives p ts := by
  constructor
  · intro h
    cases h with
    | absent => exact Or.inl rfl
    | present h => exact Or.inr h
  · rintro (rfl | h)
    · exact .absent
    · exact .present h

theorem derives_repeated_iff :
    Derives (.repeated p) ts ↔
      ts = [] ∨ ∃ us vs, ts = us ++ vs ∧ Derives p us ∧ Derives (.repeated p) vs := by
  constructor
  · intro h
    cases h with
    | done => exact Or.inl rfl
    | again hp hrest => exact Or.inr ⟨_, _, rfl, hp, hrest⟩
  · rintro (rfl | ⟨us, vs, rfl, hp, hrest⟩)
    · exact .done
    · exact .again hp hrest

@[simp] theorem not_derives_listed_zero : ¬ Derives (.listed 0 p) ts := by
  intro h; cases h

theorem derives_listed_succ_iff {most : Nat} :
    Derives (.listed (most + 1) p) ts ↔
      Derives p ts ∨
        ∃ us comma vs, ts = us ++ comma :: vs ∧ Derives p us ∧ comma.kind = .mark .comma ∧
          Derives (.listed most p) vs := by
  constructor
  · intro h
    cases h with
    | last h => exact Or.inl h
    | more hp hcomma hrest => exact Or.inr ⟨_, _, _, rfl, hp, hcomma, hrest⟩
  · rintro (h | ⟨us, comma, vs, rfl, hp, hcomma, hrest⟩)
    · exact .last h
    · exact .more hp hcomma hrest

/-- One more item at the end of a repetition. -/
theorem Derives.snoc {us : List Token} (h : Derives (.repeated p) ts) (hp : Derives p us) :
    Derives (.repeated p) (ts ++ us) := by
  -- The phrase has to be a variable for the induction; other rules derive other phrases.
  generalize hr : Phrase.repeated p = r at h
  induction h with
  | done =>
      cases hr
      simpa using Derives.again hp .done
  | again hfirst _ _ ih =>
      cases hr
      rw [List.append_assoc]
      exact .again hfirst (ih rfl)
  | _ => cases hr

@[simp] theorem fits_mark_iff {m : Mark} {k : Token.Kind} :
    (Terminal.mark m).Fits k ↔ k = .mark m := Iff.rfl

@[simp] theorem fits_word_iff {w : Keyword} {k : Token.Kind} :
    (Terminal.word w).Fits k ↔ k = .keyword w := Iff.rfl

@[simp] theorem fits_identifier_iff {k : Token.Kind} :
    Terminal.identifier.Fits k ↔ k = .identifier := Iff.rfl

@[simp] theorem fits_string_iff {k : Token.Kind} :
    Terminal.string.Fits k ↔ ∃ contents, k = .string contents := Iff.rfl

@[simp] theorem fits_number_iff {k : Token.Kind} :
    Terminal.number.Fits k ↔ ∃ value, k = .number value := Iff.rfl

/-! ## Deriving sequences -/

theorem Derives.cons {ps : List Phrase} {us : List Token} (h : Derives p ts)
    (hrest : Derives (sequence ps) us) : Derives (sequence (p :: ps)) (ts ++ us) :=
  .both h hrest

theorem Derives.token_cons {t : Terminal} {ps : List Phrase} {token : Token}
    (h : t.Fits token.kind) (hrest : Derives (sequence ps) ts) :
    Derives (sequence (.terminal t :: ps)) (token :: ts) :=
  Derives.cons (.terminal h) hrest

theorem Derives.single (h : Derives p ts) : Derives (sequence [p]) ts := by
  have h' := Derives.both h .empty
  rwa [List.append_nil] at h'

theorem Derives.token {t : Terminal} {token : Token} (h : t.Fits token.kind) :
    Derives (sequence [.terminal t]) [token] :=
  Derives.single (.terminal h)

theorem derives_cons_iff {ps : List Phrase} :
    Derives (sequence (p :: ps)) ts ↔
      ∃ us vs, ts = us ++ vs ∧ Derives p us ∧ Derives (sequence ps) vs :=
  derives_both_iff

theorem derives_token_cons_iff {t : Terminal} {ps : List Phrase} :
    Derives (sequence (.terminal t :: ps)) ts ↔
      ∃ token us, ts = token :: us ∧ t.Fits token.kind ∧ Derives (sequence ps) us := by
  rw [derives_cons_iff]
  constructor
  · rintro ⟨us, vs, rfl, h, hrest⟩
    obtain ⟨token, rfl, ht⟩ := derives_terminal_iff.1 h
    exact ⟨token, vs, rfl, ht, hrest⟩
  · rintro ⟨token, us, rfl, ht, hrest⟩
    exact ⟨[token], us, rfl, .terminal ht, hrest⟩

theorem derives_single_iff : Derives (sequence [p]) ts ↔ Derives p ts := by
  constructor
  · intro h
    obtain ⟨us, vs, rfl, hp, hrest⟩ := derives_cons_iff.1 h
    obtain rfl := derives_empty_iff.1 hrest
    rwa [List.append_nil]
  · exact .single

theorem derives_token_iff {t : Terminal} :
    Derives (sequence [.terminal t]) ts ↔ ∃ token, ts = [token] ∧ t.Fits token.kind :=
  derives_single_iff.trans derives_terminal_iff

theorem derives_sequence_append_iff {ps qs : List Phrase} :
    Derives (sequence (ps ++ qs)) ts ↔
      ∃ us vs, ts = us ++ vs ∧ Derives (sequence ps) us ∧ Derives (sequence qs) vs := by
  induction ps generalizing ts with
  | nil =>
      constructor
      · intro h
        exact ⟨[], ts, rfl, .empty, h⟩
      · rintro ⟨us, vs, rfl, hus, hvs⟩
        obtain rfl := derives_empty_iff.1 hus
        exact hvs
  | cons p ps ih =>
      rw [List.cons_append, derives_cons_iff]
      constructor
      · rintro ⟨us, rest, rfl, hp, h⟩
        obtain ⟨vs, ws, rfl, hvs, hws⟩ := ih.1 h
        exact ⟨us ++ vs, ws, (List.append_assoc us vs ws).symm, .cons hp hvs, hws⟩
      · rintro ⟨us, vs, rfl, hus, hvs⟩
        obtain ⟨us, ws, rfl, hp, hws⟩ := derives_cons_iff.1 hus
        exact ⟨us, ws ++ vs, List.append_assoc us ws vs, hp, ih.2 ⟨ws, vs, rfl, hws, hvs⟩⟩

/-- A phrase among several derives what it derives alone. -/
theorem Derives.of_choice {r : Phrase} {qs : List Phrase} (hr : r = p ∨ r ∈ qs)
    (h : Derives r ts) : Derives (choice p qs) ts := by
  induction qs generalizing p with
  | nil =>
      rcases hr with rfl | hr
      · exact h
      · cases hr
  | cons q qs ih =>
      rcases hr with rfl | hr
      · exact .left h
      · exact .right (ih (List.mem_cons.1 hr))

end Lox.Grammar
