set_option autoImplicit false

/-! # Reading bytes as text

A text file is read as UTF-8. The shortest form is the only one, surrogates have none, and
U+10FFFF is the last character, so the first byte of a character fixes how many follow and the
range of the second; all further bytes are continuation bytes.

`decode` reads the bytes in order and stops at the first fault. A fault is where the character
that was being read starts, with the number of bytes that were still right; a file that ends
inside a character is a fault of its own.
-/

namespace Lox.Text

/-- Why bytes are no text. -/
inductive Utf8Error
  /-- The bytes at `index` start no character; the first `length` of them are passed over. -/
  | invalid (length index : Nat)
  /-- The bytes end inside the character that starts at `index`. -/
  | incomplete (index : Nat)
deriving DecidableEq, Inhabited

/-- The wording of a fault. -/
def Utf8Error.message : Utf8Error → String
  | invalid length index =>
    "invalid utf-8 sequence of " ++ toString length ++ " bytes from index " ++ toString index
  | incomplete index => "incomplete utf-8 byte sequence from index " ++ toString index

/-- A character of which some bytes have been read. -/
structure PartialChar where
  /-- The offset of its first byte. -/
  start : Nat
  /-- How many bytes have been read. -/
  seen : Nat
  /-- How many bytes are to come. -/
  missing : Nat
  /-- The bits read so far. -/
  bits : Nat
  /-- The least value of the next byte. -/
  low : Nat
  /-- The greatest value of the next byte. -/
  high : Nat
deriving Inhabited

/-- What the first byte of a character promises, if it takes more than one byte. -/
def PartialChar.ofLead? (start byte : Nat) : Option PartialChar :=
  if byte < 0xC2 then none
  else if byte < 0xE0 then some ⟨start, 1, 1, byte - 0xC0, 0x80, 0xBF⟩
  else if byte < 0xF0 then
    let low := if byte = 0xE0 then 0xA0 else 0x80
    let high := if byte = 0xED then 0x9F else 0xBF
    some ⟨start, 1, 2, byte - 0xE0, low, high⟩
  else if byte < 0xF5 then
    let low := if byte = 0xF0 then 0x90 else 0x80
    let high := if byte = 0xF4 then 0x8F else 0xBF
    some ⟨start, 1, 3, byte - 0xF0, low, high⟩
  else none

/-- Reads bytes from an offset on, after the characters `done` (the last one first) and
perhaps inside a character. -/
def decodeFrom (done : List Char) (open? : Option PartialChar) (offset : Nat) :
    List UInt8 → Except Utf8Error (List Char)
  | [] =>
    match open? with
    | none => .ok done.reverse
    | some p => .error (.incomplete p.start)
  | byte :: bytes =>
    let b := byte.toNat
    match open? with
    | none =>
      if b < 0x80 then decodeFrom (Char.ofNat b :: done) none (offset + 1) bytes
      else
        match PartialChar.ofLead? offset b with
        | some p => decodeFrom done (some p) (offset + 1) bytes
        | none => .error (.invalid 1 offset)
    | some p =>
      if p.low ≤ b && b ≤ p.high then
        let bits := p.bits * 64 + (b - 0x80)
        if p.missing = 1 then decodeFrom (Char.ofNat bits :: done) none (offset + 1) bytes
        else
          decodeFrom done (some ⟨p.start, p.seen + 1, p.missing - 1, bits, 0x80, 0xBF⟩)
            (offset + 1) bytes
      else .error (.invalid p.seen p.start)

/-- The text that bytes encode. -/
def decode (bytes : List UInt8) : Except Utf8Error String :=
  (decodeFrom [] none 0 bytes).map String.ofList

end Lox.Text
