/-!
# Bytes as text

Text is read from bytes in UTF-8. Bytes that are no part of a character are not lost: the longest
start of a character, or else a single byte, goes to a fallback that says what stands for it.

* `decodeUtf8`: the text of bytes.
-/

namespace WireShape.Text

/-- A character that has begun: the bytes read, how many are owed, and the range of the next one. -/
structure Begun where
  /-- The bytes read, the last one first. -/
  read : List UInt8
  /-- The bits read. -/
  bits : Nat
  owed : Nat
  low : Nat
  high : Nat

/-- What a leading byte of several begins; none if it cannot lead. -/
def begin? (b : UInt8) : Option Begun :=
  let n := b.toNat
  if 0xC2 ≤ n ∧ n ≤ 0xDF then some ⟨[b], n % 0x20, 1, 0x80, 0xBF⟩
  else if n = 0xE0 then some ⟨[b], 0, 2, 0xA0, 0xBF⟩
  else if n = 0xED then some ⟨[b], 0xD, 2, 0x80, 0x9F⟩
  else if 0xE1 ≤ n ∧ n ≤ 0xEF then some ⟨[b], n % 0x10, 2, 0x80, 0xBF⟩
  else if n = 0xF0 then some ⟨[b], 0, 3, 0x90, 0xBF⟩
  else if n = 0xF4 then some ⟨[b], 4, 3, 0x80, 0x8F⟩
  else if 0xF1 ≤ n ∧ n ≤ 0xF3 then some ⟨[b], n % 8, 3, 0x80, 0xBF⟩
  else none

/-- What stands for bytes that are no character. -/
abbrev Stray := List UInt8 → List Char

/-- The text of bytes, after a character that may have begun. -/
def decodeFrom (stray : Stray) : Option Begun → List UInt8 → List Char
  | none, [] => []
  | some c, [] => stray c.read.reverse
  | none, b :: rest =>
    if b.toNat < 0x80 then Char.ofNat b.toNat :: decodeFrom stray none rest
    else
      match begin? b with
      | some c => decodeFrom stray (some c) rest
      | none => stray [b] ++ decodeFrom stray none rest
  | some c, b :: rest =>
    if c.low ≤ b.toNat ∧ b.toNat ≤ c.high then
      let bits := c.bits * 0x40 + b.toNat % 0x40
      if c.owed = 1 then Char.ofNat bits :: decodeFrom stray none rest
      else decodeFrom stray (some ⟨b :: c.read, bits, c.owed - 1, 0x80, 0xBF⟩) rest
    else
      stray c.read.reverse ++
        if b.toNat < 0x80 then Char.ofNat b.toNat :: decodeFrom stray none rest
        else
          match begin? b with
          | some c => decodeFrom stray (some c) rest
          | none => stray [b] ++ decodeFrom stray none rest

/-- The text of bytes. -/
def decodeUtf8 (stray : Stray) (bytes : List UInt8) : List Char := decodeFrom stray none bytes

/-- The character that stands for what cannot be read. -/
def replacement : Char := Char.ofNat 0xFFFD

/-- One mark for bytes that are no character. -/
def replaceStray : Stray := fun _ => [replacement]

end WireShape.Text
