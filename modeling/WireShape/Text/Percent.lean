import WireShape.Text.Cut
import WireShape.Text.Quoted
import WireShape.Text.Utf8

/-!
# Percent escapes

A percent sign and two hexadecimal digits stand for a byte, and the bytes of a run of ASCII
characters and escapes are read as UTF-8. A percent sign without two digits stands for itself.

* `percentDecode`: text without its escapes.
* `formFields`: the fields of a form in the notation `name=value&name=value`.
-/

namespace WireShape.Text

/-- The value of a hexadecimal digit. -/
def hexValue? (c : Char) : Option Nat :=
  if c.isDigit then some (c.toNat - 48)
  else if 'a' ≤ c && c ≤ 'f' then some (c.toNat - 87)
  else if 'A' ≤ c && c ≤ 'F' then some (c.toNat - 55)
  else none

/-- The byte of two hexadecimal digits. -/
def hexByte? (a b : Char) : Option UInt8 := do
  return UInt8.ofNat ((← hexValue? a) * 16 + (← hexValue? b))

/-- Text without its escapes, after the bytes of the current run, the last one first. -/
def percentDecodeFrom (stray : Stray) : List UInt8 → List Char → List Char
  | run, [] => decodeUtf8 stray run.reverse
  | run, '%' :: a :: b :: rest =>
    match hexByte? a b with
    | some byte => percentDecodeFrom stray (byte :: run) rest
    | none => percentDecodeFrom stray (0x25 :: run) (a :: b :: rest)
  | run, c :: rest =>
    if c.toNat < 0x80 then percentDecodeFrom stray (UInt8.ofNat c.toNat :: run) rest
    else decodeUtf8 stray run.reverse ++ c :: percentDecodeFrom stray [] rest

def percentDecode (stray : Stray) (cs : List Char) : List Char := percentDecodeFrom stray [] cs

/-- Bytes as escapes. -/
def escapeBytes : Stray := fun bytes =>
  bytes.flatMap fun b => '%' :: (hex 2 b.toNat).map Char.toUpper

/-! ## Forms -/

/-- A name or a value of a form: a plus stands for a space, and stray bytes stay escaped. -/
def formText (cs : List Char) : String :=
  String.ofList (percentDecode escapeBytes (cs.map fun c => if c = '+' then ' ' else c))

/-- The name and the value of a field; without an equals sign the value is empty. -/
def formField (cs : List Char) : String × String :=
  (formText (cs.takeWhile (· != '=')), formText ((cs.dropWhile (· != '=')).drop 1))

/-- The fields of a form, empty ones left out. -/
def formFields (s : String) : List (String × String) :=
  ((cutAt '&' s.toList).filter fun part => !part.isEmpty).map formField

end WireShape.Text
