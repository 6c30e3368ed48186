set_option autoImplicit false

/-! # Tokens

A token has a kind, the text it was read from, the line on which that text ends, and the
offset of its first character. Offsets count characters from the start of everything that a
session has read, so no two tokens share one: later stages use the offset of a name as the
identity of the reference that the name is. A parser that draws identities from a counter instead
is in `Drawing`, and shows the same (`Drawing.Session.runAll_eq`).

Marks and keywords have one spelling each (`Mark.text`, `Keyword.text`); identifiers, strings
and numbers are the open kinds.
-/

namespace Lox

/-- Marks of one or two characters. -/
inductive Mark
  | leftParen
  | rightParen
  | leftBrace
  | rightBrace
  | comma
  | dot
  | minus
  | plus
  | semicolon
  | slash
  | star
  | bang
  | bangEqual
  | equal
  | equalEqual
  | greater
  | greaterEqual
  | less
  | lessEqual
deriving DecidableEq, Inhabited

namespace Mark

/-- The spelling of a mark. -/
def text : Mark → String
  | leftParen => "("
  | rightParen => ")"
  | leftBrace => "\x7b"
  | rightBrace => "\x7d"
  | comma => ","
  | dot => "."
  | minus => "-"
  | plus => "+"
  | semicolon => ";"
  | slash => "/"
  | star => "*"
  | bang => "!"
  | bangEqual => "!="
  | equal => "="
  | equalEqual => "=="
  | greater => ">"
  | greaterEqual => ">="
  | less => "<"
  | lessEqual => "<="

/-- The name under which lists of tokens show a mark. -/
def name : Mark → String
  | leftParen => "LEFT_PAREN"
  | rightParen => "RIGHT_PAREN"
  | leftBrace => "LEFT_BRACE"
  | rightBrace => "RIGHT_BRACE"
  | comma => "COMMA"
  | dot => "DOT"
  | minus => "MINUS"
  | plus => "PLUS"
  | semicolon => "SEMICOLON"
  | slash => "SLASH"
  | star => "STAR"
  | bang => "BANG"
  | bangEqual => "BANG_EQUAL"
  | equal => "EQUAL"
  | equalEqual => "EQUAL_EQUAL"
  | greater => "GREATER"
  | greaterEqual => "GREATER_EQUAL"
  | less => "LESS"
  | lessEqual => "LESS_EQUAL"

end Mark

/-- Words that are no identifiers. -/
inductive Keyword
  | andWord
  | classWord
  | elseWord
  | falseWord
  | funWord
  | forWord
  | ifWord
  | nilWord
  | orWord
  | printWord
  | returnWord
  | superWord
  | thisWord
  | trueWord
  | varWord
  | whileWord
deriving DecidableEq, Inhabited

namespace Keyword

/-- The spelling of a keyword. -/
def text : Keyword → String
  | andWord => "and"
  | classWord => "class"
  | elseWord => "else"
  | falseWord => "false"
  | funWord => "fun"
  | forWord => "for"
  | ifWord => "if"
  | nilWord => "nil"
  | orWord => "or"
  | printWord => "print"
  | returnWord => "return"
  | superWord => "super"
  | thisWord => "this"
  | trueWord => "true"
  | varWord => "var"
  | whileWord => "while"

/-- The name under which lists of tokens show a keyword. -/
def name : Keyword → String
  | andWord => "AND"
  | classWord => "CLASS"
  | elseWord => "ELSE"
  | falseWord => "FALSE"
  | funWord => "FUN"
  | forWord => "FOR"
  | ifWord => "IF"
  | nilWord => "NIL"
  | orWord => "OR"
  | printWord => "PRINT"
  | returnWord => "RETURN"
  | superWord => "SUPER"
  | thisWord => "THIS"
  | trueWord => "TRUE"
  | varWord => "VAR"
  | whileWord => "WHILE"

/-- Every keyword. -/
def all : List Keyword :=
  [andWord, classWord, elseWord, falseWord, funWord, forWord, ifWord, nilWord, orWord, printWord,
    returnWord, superWord, thisWord, trueWord, varWord, whileWord]

theorem mem_all (w : Keyword) : w ∈ all := by cases w <;> decide

/-- The keyword with this spelling. -/
def ofText? (s : String) : Option Keyword := all.find? (·.text == s)

end Keyword

namespace Token

/-- What a token is, with the contents of a string and the value of a number. -/
inductive Kind
  | mark (mark : Mark)
  | keyword (word : Keyword)
  | identifier
  | string (contents : String)
  | number (value : Float)
  | eof
deriving Inhabited

namespace Kind

/-- The name under which lists of tokens show a kind. -/
def name : Kind → String
  | mark m => m.name
  | keyword w => w.name
  | identifier => "IDENTIFIER"
  | string _ => "STRING"
  | number _ => "NUMBER"
  | eof => "EOF"

/-- The kind is this mark. -/
def isMark (k : Kind) (m : Mark) : Bool :=
  match k with
  | mark m' => m' == m
  | _ => false

/-- The kind is this keyword. -/
def isKeyword (k : Kind) (w : Keyword) : Bool :=
  match k with
  | keyword w' => w' == w
  | _ => false

/-- The kind ends the source. -/
def isEof : Kind → Bool
  | eof => true
  | _ => false

@[simp] theorem isMark_mark (m m' : Mark) : (mark m).isMark m' = (m == m') := rfl

@[simp] theorem isKeyword_keyword (w w' : Keyword) : (keyword w).isKeyword w' = (w == w') := rfl

theorem isMark_iff {k : Kind} {m : Mark} : k.isMark m = true ↔ k = mark m := by
  cases k <;> simp [isMark]

theorem isKeyword_iff {k : Kind} {w : Keyword} : k.isKeyword w = true ↔ k = keyword w := by
  cases k <;> simp [isKeyword]

end Kind

end Token

/-- A token. -/
structure Token where
  kind : Token.Kind
  /-- The text that the token was read from. -/
  lexeme : String
  /-- The line on which the text ends, counted from one. -/
  line : Nat
  /-- The offset of the first character. -/
  start : Nat
deriving Inhabited

/-- The offset after the last character of a token. -/
def Token.stop (t : Token) : Nat := t.start + t.lexeme.length

end Lox
