import Lox.Token.Scan
import Lox.Tree.Statement

set_option autoImplicit false

/-! # Reading a source

A source is scanned as a whole, and then its tokens are parsed, also when there were lexical
errors: the tokens that could be read are parsed without the rest, so that one pass reports
the errors of both kinds.
-/

namespace Lox

/-- What a source spells: its lexical errors, and a tree or the reason why there is none. -/
structure Reading (ε α : Type) where
  lexErrors : List LexError
  parsed : Except ε α

/-- A source as a program, its first character at an offset. -/
def Program.ofText (source : String) (offset : Nat) : Reading (List ParseError) Program :=
  let scan := Scan.ofText source offset
  ⟨scan.errors, Program.ofTokens scan.tokens scan.eof⟩

/-- A source as a single expression. -/
def Expr.ofText (source : String) : Reading ParseError Expr :=
  let scan := Scan.ofText source 0
  ⟨scan.errors, Expr.ofTokens scan.tokens scan.eof⟩

end Lox
