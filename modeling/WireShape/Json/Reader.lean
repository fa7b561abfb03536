import WireShape.Text.Numeral
import WireShape.Text.Percent
import WireShape.Value.Basic

/-!
# Reading JSON text

Besides the standard, the names `NaN`, `Infinity` and `-Infinity` are numbers. A number without a
fraction and an exponent is an integer. Of a key that is repeated the last value counts. Each reader
gives what it reads and the text after it.

* `Json.read?`: the value of a text; none if the text is not JSON.
-/

namespace WireShape.Json

def isSpace (c : Char) : Bool := c == ' ' || c == '\t' || c == '\n' || c == '\r'

def skipSpace (cs : List Char) : List Char := cs.dropWhile isSpace

/-- What follows a given text. -/
def after? (expected : String) (cs : List Char) : Option (List Char) :=
  if expected.toList.isPrefixOf cs then some (cs.drop expected.length) else none

/-! ## Text -/

/-- The unit of sixteen bits that four hexadecimal digits denote. -/
def readUnit? : List Char → Option (Nat × List Char)
  | a :: b :: c :: d :: rest => do
    let n := (((← Text.hexValue? a) * 16 + (← Text.hexValue? b)) * 16 + (← Text.hexValue? c)) * 16 +
      (← Text.hexValue? d)
    return (n, rest)
  | _ => none

def isHighSurrogate (n : Nat) : Bool := 0xD800 ≤ n && n < 0xDC00

def isLowSurrogate (n : Nat) : Bool := 0xDC00 ≤ n && n < 0xE000

/-- The character of a unit; a surrogate that stands alone is none. -/
def charOfUnit (n : Nat) : Char :=
  if isHighSurrogate n || isLowSurrogate n then Text.replacement else Char.ofNat n

/-- The character of two surrogates. -/
def charOfPair (high low : Nat) : Char :=
  Char.ofNat (0x10000 + (high - 0xD800) * 0x400 + (low - 0xDC00))

/-- The character of an escape by numbers, after its `u`: a unit, or two that belong together. -/
def readEscapedUnit? (cs : List Char) : Option (Char × List Char) := do
  let (unit, rest) ← readUnit? cs
  if isHighSurrogate unit then
    match (after? "\\u" rest).bind readUnit? with
    | some (low, more) =>
      if isLowSurrogate low then return (charOfPair unit low, more)
      else return (charOfUnit unit, rest)
    | none => return (charOfUnit unit, rest)
  else return (charOfUnit unit, rest)

/-- The character of an escape by a letter. -/
def escapeLetter? : Char → Option Char
  | '\x22' => some '\x22'
  | '\x5c' => some '\x5c'
  | '/' => some '/'
  | 'b' => some (Char.ofNat 8)
  | 'f' => some (Char.ofNat 12)
  | 'n' => some '\n'
  | 'r' => some '\r'
  | 't' => some '\t'
  | _ => none

/-- Text after its opening quotation mark, `fuel` characters at most. -/
def readText? : Nat → List Char → Option (List Char × List Char)
  | 0, _ => none
  | _, [] => none
  | fuel + 1, c :: rest => do
    if c = '\x22' then return ([], rest)
    if c = '\x5c' then
      let (character, rest) ← match rest with
        | 'u' :: more => readEscapedUnit? more
        | e :: more => (escapeLetter? e).map fun character => (character, more)
        | [] => none
      let (cs, rest) ← readText? fuel rest
      return (character :: cs, rest)
    if c.toNat < 0x20 then none
    let (cs, rest) ← readText? fuel rest
    return (c :: cs, rest)

/-! ## Numbers -/

/-- Digits, at least one. -/
def readDigits? (cs : List Char) : Option (List Char × List Char) :=
  let digits := cs.takeWhile Char.isDigit
  if digits.isEmpty then none else some (digits, cs.dropWhile Char.isDigit)

/-- The digits of a whole number, without leading zeros. -/
def readWhole? : List Char → Option (List Char × List Char)
  | '0' :: rest => some (['0'], rest)
  | cs => readDigits? cs

/-- A point and digits, if they are there. -/
def readFraction (cs : List Char) : List Char × List Char :=
  match cs with
  | '.' :: more => (readDigits? more).getD ([], cs)
  | _ => ([], cs)

/-- The exponent that a number ends with, if it does. -/
def readExponent (cs : List Char) : Option Int × List Char :=
  match cs with
  | e :: more =>
    if e = 'e' || e = 'E' then
      let (negative, digits) := Text.takeSign more
      match readDigits? digits with
      | some (digits, rest) =>
        let n : Int := Text.digitsValue digits
        (some (if negative then -n else n), rest)
      | none => (none, cs)
    else (none, cs)
  | [] => (none, cs)

def readNumber? (cs : List Char) : Option (Value × List Char) := do
  let (negative, body) := match cs with
    | '-' :: more => (true, more)
    | _ => (false, cs)
  let (whole, rest) ← readWhole? body
  let (fraction, rest) := readFraction rest
  let (exponent, rest) := readExponent rest
  if fraction.isEmpty && exponent.isNone then
    if Text.maxIntDigits < whole.length then none
    let n : Int := Text.digitsValue whole
    return (.int (if negative then -n else n), rest)
  else
    let places : Int := fraction.length
    return (.float (.ofDecimal negative (Text.digitsValue (whole ++ fraction))
      (exponent.getD 0 - places)), rest)

/-! ## Values -/

/-- The datum that is not a number; all of a text are one and the same. -/
def notANumber : Binary64 := .nan 1

/-- The values that have names. -/
def names : List (String × Value) :=
  [ ("null", .null), ("true", .bool true), ("false", .bool false), ("NaN", .float notANumber),
    ("Infinity", .float (.infinite false)), ("-Infinity", .float (.infinite true)) ]

def readName? (cs : List Char) : Option (Value × List Char) :=
  names.findSome? fun (name, v) => (after? name cs).map fun rest => (v, rest)

/-- Members of a list, after the first bracket or a comma; `fuel` bounds their number. -/
def readItems? (value? : List Char → Option (Value × List Char)) :
    Nat → List Char → Option (List Value × List Char)
  | 0, _ => none
  | fuel + 1, cs => do
    let (v, rest) ← value? (skipSpace cs)
    match skipSpace rest with
    | ']' :: rest => return ([v], rest)
    | ',' :: rest =>
      let (vs, rest) ← readItems? value? fuel rest
      return (v :: vs, rest)
    | _ => none

/-- Entries of an object, after the first brace or a comma; `fuel` bounds their number. -/
def readEntries? (value? : List Char → Option (Value × List Char)) :
    Nat → List Char → Option (List (Atom × Value) × List Char)
  | 0, _ => none
  | fuel + 1, cs => do
    match skipSpace cs with
    | '\x22' :: rest =>
      let (key, rest) ← readText? (rest.length + 1) rest
      match skipSpace rest with
      | ':' :: rest =>
        let (v, rest) ← value? (skipSpace rest)
        let entry := (Atom.str (String.ofList key), v)
        match skipSpace rest with
        | '\x7d' :: rest => return ([entry], rest)
        | ',' :: rest =>
          let (entries, rest) ← readEntries? value? fuel rest
          return (entry :: entries, rest)
        | _ => none
      | _ => none
    | _ => none

/-- A value that is nested at most so deep. -/
def readValue? : Nat → List Char → Option (Value × List Char)
  | 0, _ => none
  | depth + 1, cs =>
    match cs with
    | '\x22' :: rest => do
      let (text, rest) ← readText? (rest.length + 1) rest
      return (.str (String.ofList text), rest)
    | '[' :: rest =>
      match skipSpace rest with
      | ']' :: rest => some (.list [], rest)
      | rest => do
        let (vs, rest) ← readItems? (readValue? depth) (rest.length + 1) rest
        return (.list vs, rest)
    | '\x7b' :: rest =>
      match skipSpace rest with
      | '\x7d' :: rest => some (.ofEntries [], rest)
      | rest => do
        let (entries, rest) ← readEntries? (readValue? depth) (rest.length + 1) rest
        return (.ofEntries (OrderedMap.ofEntries entries), rest)
    | cs =>
      match readName? cs with
      | some reading => some reading
      | none => readNumber? cs

/-- A mark of byte order at the start of a text says nothing. -/
def dropByteOrderMark : List Char → List Char
  | c :: rest => if c.toNat = 0xFEFF then rest else c :: rest
  | [] => []

/-- The value of a text; none if the text is not JSON. -/
def read? (s : String) : Option Value := do
  let cs := dropByteOrderMark s.toList
  let (v, rest) ← readValue? (cs.length + 1) (skipSpace cs)
  if (skipSpace rest).isEmpty then some v else none

end WireShape.Json
