/-!
# Reading bytes as text

Bytes are read as UTF-8. Where they cannot be, each longest beginning of a character that is not
completed gives one replacement character.
-/

namespace Resin.Text

/-- The character that stands for bytes that are no text. -/
def replacement : Char := '�'

/-- A character of which the first bytes have been read: the bits so far, the number of bytes that
are missing, and the bounds of the next one. -/
structure Begun where
  bits : Nat
  missing : Nat
  least : Nat
  greatest : Nat
deriving DecidableEq, Repr, Inhabited

/-- What the first byte of a character of several bytes begins. The bounds of the second byte leave
out characters written too long, surrogates, and what lies above the last character. -/
def begun? (byte : Nat) : Option Begun :=
  if 0xc2 ≤ byte ∧ byte ≤ 0xdf then some ⟨byte % 0x20, 1, 0x80, 0xbf⟩
  else if byte = 0xe0 then some ⟨0, 2, 0xa0, 0xbf⟩
  else if byte = 0xed then some ⟨0xd, 2, 0x80, 0x9f⟩
  else if 0xe1 ≤ byte ∧ byte ≤ 0xef then some ⟨byte % 0x10, 2, 0x80, 0xbf⟩
  else if byte = 0xf0 then some ⟨0, 3, 0x90, 0xbf⟩
  else if 0xf1 ≤ byte ∧ byte ≤ 0xf3 then some ⟨byte % 0x8, 3, 0x80, 0xbf⟩
  else if byte = 0xf4 then some ⟨4, 3, 0x80, 0x8f⟩
  else none

/-- Reads bytes after a character that may have been begun. -/
def decodeFrom : Option Begun → List UInt8 → List Char
  | none, [] => []
  | some _, [] => [replacement]
  | begun, next :: bytes =>
    let byte := next.toNat
    -- the byte as the first one of a character
    let fresh := if byte < 0x80 then Char.ofNat byte :: decodeFrom none bytes
      else match begun? byte with
        | some b => decodeFrom (some b) bytes
        | none => replacement :: decodeFrom none bytes
    match begun with
    | none => fresh
    | some b =>
      if b.least ≤ byte ∧ byte ≤ b.greatest then
        let bits := 0x40 * b.bits + byte % 0x40
        if b.missing = 1 then Char.ofNat bits :: decodeFrom none bytes
        else decodeFrom (some ⟨bits, b.missing - 1, 0x80, 0xbf⟩) bytes
      else replacement :: fresh

/-- The text of some bytes. -/
def decode (bytes : List UInt8) : List Char := decodeFrom none bytes

/-- The bytes of a text. -/
def encode (cs : List Char) : List UInt8 := cs.flatMap String.utf8EncodeChar

/-! ## Octets

Where text is handled byte by byte, each byte is held as the character with its number. -/

/-- The bytes of a text, one character each. -/
def octets (text : String) : List Char := (encode text.toList).map fun b => Char.ofNat b.toNat

/-- The text of bytes that are held as characters. -/
def ofOctets (cs : List Char) : String := String.ofList (decode (cs.map (·.toNat.toUInt8)))

end Resin.Text
