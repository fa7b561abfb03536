import WireShape.Text.Cut
import WireShape.Text.Numeral

/-!
# Named formats of text

* `Format.check?`: the test behind the name of a format; none for formats that are not tested.
-/

namespace WireShape.Format

/-- An address of electronic mail has an at sign. -/
def isEmail (s : String) : Bool := s.toList.contains '@'

/-! ## Internet addresses -/

/-- A number up to 255 in decimal digits, without leading zeros. -/
def isOctet (cs : List Char) : Bool :=
  !cs.isEmpty && cs.length ≤ 3 && cs.all Char.isDigit &&
    (cs.length == 1 || cs.head? != some '0') && Text.digitsValue cs ≤ 255

def isIpv4 (s : String) : Bool :=
  let parts := Text.cutAt '.' s.toList
  parts.length == 4 && parts.all isOctet

/-! ## Dates -/

def isLeapYear (year : Nat) : Bool := year % 4 == 0 && (year % 100 != 0 || year % 400 == 0)

def daysInMonth (year month : Nat) : Nat :=
  if month = 2 then (if isLeapYear year then 29 else 28)
  else if month = 4 || month = 6 || month = 9 || month = 11 then 30
  else 31

/-- A day of the calendar, written `year-month-day` with four, two and two digits. -/
def isDate (s : String) : Bool :=
  match Text.cutAt '-' s.toList with
  | [y, m, d] =>
    let year := Text.digitsValue y
    let month := Text.digitsValue m
    let day := Text.digitsValue d
    y.length == 4 && m.length == 2 && d.length == 2 &&
      y.all Char.isDigit && m.all Char.isDigit && d.all Char.isDigit &&
      1 ≤ year && 1 ≤ month && month ≤ 12 && 1 ≤ day && day ≤ daysInMonth year month
  | _ => false

/-! ## Identifiers -/

/-- Removes a part wherever it stands, from left to right; `skip` characters are inside of it. -/
def removeAll (part : List Char) : Nat → List Char → List Char
  | _, [] => []
  | skip + 1, _ :: rest => removeAll part skip rest
  | 0, c :: rest =>
    if part.isPrefixOf (c :: rest) then removeAll part (part.length - 1) rest
    else c :: removeAll part 0 rest

def isBrace (c : Char) : Bool := c == '\x7b' || c == '\x7d'

/-- The hexadecimal digits of an identifier, without what may be written around them. -/
def uuidBody (cs : List Char) : List Char :=
  let cs := removeAll "uuid:".toList 0 (removeAll "urn:".toList 0 cs)
  (Text.stripBy isBrace cs).filter (· != '-')

/-- The places at which dashes stand. -/
def uuidDashes : List Nat := [8, 13, 18, 23]

/-- Thirty-two hexadecimal digits with dashes in their places. -/
def isUuid (s : String) : Bool :=
  let cs := s.toList
  let body := uuidBody cs
  body.length == 32 && Text.isHexNumeral (String.ofList body) &&
    uuidDashes.all fun i => cs[i]? == some '-'

/-! ## Names -/

/-- The test behind the name of a format. -/
def check? : String → Option (String → Bool)
  | "email" | "idn-email" => some isEmail
  | "ipv4" => some isIpv4
  | "date" => some isDate
  | "uuid" => some isUuid
  | _ => none

end WireShape.Format
