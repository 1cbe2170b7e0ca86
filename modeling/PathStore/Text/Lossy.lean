/-!
# Bytes as text

Names on a disk are bytes, and need not be UTF-8. To be shown or to be
tried as a segment of a path they are **decoded**, with U+FFFD in place
of every stretch of bytes that is no character.

The stretches are the longest that could still have become a character:
a byte that cannot go on with what was begun ends it, and is looked at
afresh. So a character cut short counts once, however many bytes of it
there are, and a stray byte counts once by itself.

`encode` is the way back, from a text to its bytes.
-/

namespace PathStore
namespace Text

/-- The bytes of a text in UTF-8. -/
def encode (text : String) : List UInt8 :=
  text.toList.flatMap String.utf8EncodeChar

/-- Stands for bytes that are no character. -/
def replacement : Char := '\uFFFD'

/-- **What has been read of a character** so far. -/
inductive Progress where
  /-- Nothing: the next byte begins a character. -/
  | fresh
  /-- The bits read so far, the range the next byte must lie in, and the
  number of bytes still to come. -/
  | within (bits : Nat) (low high : UInt8) (missing : Nat)
  deriving DecidableEq, Repr

/-- **The first byte of a character**: the character itself if one byte
is all of it, else what has been read by it. The ranges of the second
byte leave out longer forms than needed, surrogates, and what is beyond
the last code point. -/
def firstByte (byte : UInt8) : List Char × Progress :=
  if byte < 0x80 then ([Char.ofNat byte.toNat], .fresh)
  else if byte < 0xC2 then ([replacement], .fresh)
  else if byte < 0xE0 then ([], .within (byte.toNat - 0xC0) 0x80 0xBF 1)
  else if byte < 0xF0 then
    ([], .within (byte.toNat - 0xE0) (if byte = 0xE0 then 0xA0 else 0x80)
      (if byte = 0xED then 0x9F else 0xBF) 2)
  else if byte < 0xF5 then
    ([], .within (byte.toNat - 0xF0) (if byte = 0xF0 then 0x90 else 0x80)
      (if byte = 0xF4 then 0x8F else 0xBF) 3)
  else ([replacement], .fresh)

/-- **One more byte**: the characters it completes, and what has been
read of the next. -/
def nextByte (read : Progress) (byte : UInt8) : List Char × Progress :=
  match read with
  | .fresh => firstByte byte
  | .within bits low high missing =>
    if low ≤ byte ∧ byte ≤ high then
      let bits := bits * 64 + (byte.toNat - 0x80)
      match missing with
      | 0 | 1 => ([Char.ofNat bits], .fresh)
      | n + 2 => ([], .within bits 0x80 0xBF (n + 1))
    else
      let (characters, read) := firstByte byte
      (replacement :: characters, read)

/-- The characters of the bytes that are left. A character cut short by
the end counts once. -/
def decodeFrom (read : Progress) : List UInt8 → List Char
  | [] =>
    match read with
    | .fresh => []
    | .within .. => [replacement]
  | byte :: rest =>
    let (characters, read) := nextByte read byte
    characters ++ decodeFrom read rest

/-- **Bytes as text**, with U+FFFD for what is no character. -/
def decode (bytes : List UInt8) : String :=
  String.ofList (decodeFrom .fresh bytes)

end Text
end PathStore
