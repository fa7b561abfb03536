import WireShape.Binary64.Decimal
import WireShape.Text.Blank
import WireShape.Text.Digit

/-!
# Numbers written by people

Integers and decimals as a lenient reader accepts them: white space around, a sign, single
underscores between digits, and digits of any script.

* `readInt?`: a whole number of at most 4300 digits.
* `readBinary64?`: a decimal, with or without an exponent, or a name of an infinity or of not a
  number.
* `isHexNumeral`: whether text is a whole number to the base sixteen.
-/

namespace WireShape.Text

/-- Text that is not all ASCII has its white space beyond ASCII replaced by spaces and its digits by
ASCII ones. -/
def toAsciiNumeral (cs : List Char) : List Char :=
  if cs.all fun c => c.toNat < 128 then cs
  else cs.map fun c =>
    if c.toNat < 127 then c
    else if isBlank c then ' '
    else match digitValue? c with
      | some d => Char.ofNat (48 + d)
      | none => '?'

/-- The text without the white space around it. -/
def numeralBody (s : String) : List Char := stripBy isAsciiBlank (toAsciiNumeral s.toList)

/-- Takes an optional sign off the front; true for a minus. -/
def takeSign : List Char → Bool × List Char
  | '-' :: rest => (true, rest)
  | '+' :: rest => (false, rest)
  | cs => (false, cs)

/-- The number that ASCII digits denote. -/
def digitsValue (cs : List Char) : Nat := cs.foldl (fun n c => 10 * n + (c.toNat - 48)) 0

/-- Removes underscores that stand singly between digits; none if one stands elsewhere. -/
def dropUnderscores? (isDigit : Char → Bool) : Option Char → List Char → Option (List Char)
  | before, [] => if before = some '_' then none else some []
  | before, c :: rest =>
    let digitBefore := before.any isDigit
    if c = '_' then
      if digitBefore then dropUnderscores? isDigit (some c) rest else none
    else if before = some '_' && !isDigit c then none
    else (dropUnderscores? isDigit (some c) rest).map (c :: ·)

/-- Longer whole numbers are not read. -/
def maxIntDigits : Nat := 4300

def readInt? (s : String) : Option Int := do
  let (negative, body) := takeSign (numeralBody s)
  let digits ← dropUnderscores? Char.isDigit none body
  if digits.isEmpty || !digits.all Char.isDigit || maxIntDigits < digits.length then none
  else
    let n : Int := digitsValue digits
    some (if negative then -n else n)

/-- Reads `digits [. digits] [e [sign] digits]`, at least one digit before the exponent. -/
def readDecimal? (negative : Bool) (cs : List Char) : Option Binary64 := do
  let whole := cs.takeWhile Char.isDigit
  let rest := cs.dropWhile Char.isDigit
  let (fraction, rest) := match rest with
    | '.' :: more => (more.takeWhile Char.isDigit, more.dropWhile Char.isDigit)
    | _ => ([], rest)
  if whole.isEmpty && fraction.isEmpty then none
  let digits := digitsValue (whole ++ fraction)
  let places : Int := fraction.length
  match rest with
  | [] => some (.ofDecimal negative digits (-places))
  | c :: more =>
    if c ≠ 'e' ∧ c ≠ 'E' then none
    let (below, exponent) := takeSign more
    if exponent.isEmpty || !exponent.all Char.isDigit then none
    let x : Int := digitsValue exponent
    some (.ofDecimal negative digits ((if below then -x else x) - places))

def readBinary64? (s : String) : Option Binary64 := do
  let body ← dropUnderscores? Char.isDigit none (numeralBody s)
  let (negative, body) := takeSign body
  let name := String.ofList (body.map Char.toLower)
  if name = "inf" || name = "infinity" then some (.infinite negative)
  else if name = "nan" then some (.nan 0)
  else readDecimal? negative body

/-! ## Base sixteen -/

def isHexDigit (c : Char) : Bool :=
  c.isDigit || ('a' ≤ c && c ≤ 'f') || ('A' ≤ c && c ≤ 'F')

/-- Drops the mark `0x` and one underscore after it. -/
def dropHexMark : List Char → List Char
  | '0' :: x :: rest =>
    if x = 'x' || x = 'X' then
      match rest with
      | '_' :: more => more
      | _ => rest
    else '0' :: x :: rest
  | cs => cs

/-- Whether text is a whole number to the base sixteen, with or without the mark `0x`. -/
def isHexNumeral (s : String) : Bool :=
  match dropUnderscores? isHexDigit none (dropHexMark (takeSign (numeralBody s)).2) with
  | some digits => !digits.isEmpty && digits.all isHexDigit
  | none => false

end WireShape.Text
