import WireShape.Text.Unprintable

/-!
# Quoted text

Text and bytes as they are shown inside messages: between single quotes, or between double quotes
if the text holds a single quote and no double one. What has no printed form is escaped.

* `quote`: quoted text.
* `quoteBytes`: quoted bytes, marked by a leading `b`.
-/

namespace WireShape.Text

def singleQuote : Char := '\x27'
def doubleQuote : Char := '\x22'
def backslash : Char := '\x5c'

/-- Lower-case hexadecimal digits of `n`, at least `width` of them. -/
def hex (width n : Nat) : List Char :=
  let digits := Nat.toDigits 16 n
  List.replicate (width - digits.length) '0' ++ digits

/-- The quotation mark that needs no escape where one of the two needs none. -/
def quoteMark (holdsSingle holdsDouble : Bool) : Char :=
  if holdsSingle && !holdsDouble then doubleQuote else singleQuote

/-- The escape of a code point without a printed form. -/
def escapeCode (n : Nat) : List Char :=
  if n = 10 then [backslash, 'n']
  else if n = 13 then [backslash, 'r']
  else if n = 9 then [backslash, 't']
  else if n < 0x100 then backslash :: 'x' :: hex 2 n
  else if n < 0x10000 then backslash :: 'u' :: hex 4 n
  else backslash :: 'U' :: hex 8 n

def quoteChar (mark c : Char) : List Char :=
  if c = mark || c = backslash then [backslash, c]
  else if isPrintable c then [c]
  else escapeCode c.toNat

def quote (s : String) : String :=
  let cs := s.toList
  let mark := quoteMark (cs.contains singleQuote) (cs.contains doubleQuote)
  String.ofList (mark :: cs.flatMap (quoteChar mark) ++ [mark])

def quoteByte (mark : Char) (b : UInt8) : List Char :=
  let c := Char.ofNat b.toNat
  if c = mark || c = backslash then [backslash, c]
  else if 32 ≤ b.toNat && b.toNat < 127 then [c]
  else escapeCode b.toNat

def quoteBytes (bs : List UInt8) : String :=
  let mark := quoteMark (bs.contains 0x27) (bs.contains 0x22)
  String.ofList ('b' :: mark :: bs.flatMap (quoteByte mark) ++ [mark])

end WireShape.Text
