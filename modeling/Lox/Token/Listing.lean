import Lox.Token.Basic
import Lox.Number.Text
import Lox.Text.Quoted

set_option autoImplicit false

/-! # Lists of tokens

A list of tokens shows one token a line, in one of two forms: a row of kind, lexeme and
literal (`Token.row`), or a record with named fields (`Token.record`).
-/

namespace Lox.Token

/-- The literal column of a row: the contents of a string, the value of a number, and `null`
for every other token. -/
def literalColumn (t : Token) : String :=
  match t.kind with
  | .string contents => contents
  | .number value => Number.Format.literal.text value
  | _ => "null"

/-- A token as a row: kind, lexeme and literal, separated by single spaces. -/
def row (t : Token) : String := t.kind.name ++ " " ++ t.lexeme ++ " " ++ t.literalColumn

/-- The kind of a token in a record: its name, or a field of that name which holds the
literal. -/
def recordKind (t : Token) : String :=
  let field := Text.quoted t.kind.name
  match t.kind with
  | .string contents => "\x7b" ++ field ++ ":" ++ Text.quoted contents ++ "\x7d"
  | .number value => "\x7b" ++ field ++ ":" ++ Number.Format.record.text value ++ "\x7d"
  | _ => field

/-- A token as a record. -/
def record (t : Token) : String :=
  "\x7b\"token_type\":" ++ t.recordKind ++ ",\"lexeme\":" ++ Text.quoted t.lexeme ++
    ",\"line\":" ++ toString t.line ++ "\x7d"

end Lox.Token
