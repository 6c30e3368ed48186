import Lox.Text.Combining
import Lox.Text.Printable

set_option autoImplicit false

/-! # Names in messages

A message shows a name between double quotes, in such a way that every character can be seen:
quotes and backslashes have a backslash before them, and a character that cannot be seen, or
that would change the one before it, is written by its code point in hexadecimal digits.
-/

namespace Lox.Text

/-- The code point of a character between braces. -/
def codePointEscape (c : Char) : List Char :=
  '\\' :: 'u' :: '{' :: Nat.toDigits 16 c.toNat ++ ['}']

/-- A character as a message shows it. -/
def shownChar (c : Char) : List Char :=
  match c with
  | '"' => ['\\', '"']
  | '\\' => ['\\', '\\']
  | '\x00' => ['\\', '0']
  | '\n' => ['\\', 'n']
  | '\r' => ['\\', 'r']
  | '\t' => ['\\', 't']
  | c => if isPrintable c && !isCombining c then [c] else codePointEscape c

/-- A name as a message shows it. -/
def shown (name : String) : String :=
  String.ofList ('"' :: name.toList.flatMap shownChar ++ ['"'])

end Lox.Text
