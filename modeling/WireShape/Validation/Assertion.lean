import WireShape.Format
import WireShape.Pattern
import WireShape.Value.Display
import WireShape.Value.Strict
import WireShape.Validation.Outcome

/-!
# Keywords about one datum

What the keywords without schemas in them refuse. Each gives the text of the refusal, or none if
the datum passes.

* `Assertion.fitsType`: whether a datum is of a named type.
* `Assertion.type`, `enum`, `const`: what a datum may be.
* `Assertion.bound`, `sizeBound`, `multiple`: limits of numbers and sizes.
* `Assertion.unique`, `pattern`, `format`: lists and texts.
-/

namespace WireShape.Assertion

variable (describe : Describe)

/-- The text of a refusal, or none. -/
abbrev Refusal := Except Fault (Option String)

def passed : Refusal := .ok none

/-- A refusal that begins with the datum. -/
def refuse (x : Value) (phrase : String) : Refusal := do
  return some ((← x.quoted describe) ++ " " ++ phrase)

/-! ## Types -/

def isInteger : Value → Bool
  | .int _ => true
  | .float x => x.isIntegral
  | _ => false

def isList : Value → Bool
  | .list _ => true
  | _ => false

def isBytes : Value → Bool
  | .bytes _ => true
  | _ => false

/-- The test behind the name of a type. Bytes are text, as an upload may stand for a field. -/
def typeTest? : String → Option (Value → Bool)
  | "array" => some isList
  | "boolean" => some Value.isBool
  | "file" => some isBytes
  | "integer" => some isInteger
  | "null" => some Value.isNull
  | "number" => some Value.isNumber
  | "object" => some Value.isMap
  | "string" => some fun v => v.isText || isBytes v
  | _ => none

/-- Whether a datum is of a named type. -/
def fitsType (name x : Value) : Except Fault Bool :=
  match name with
  | .str s =>
    match typeTest? s with
    | some test => .ok (test x)
    | none => .error .unknownType
  | .atom _ => .error .unknownType
  | v => .error (.unhashable v.typeName)

/-- The types that a schema lists; text is a single one. -/
def listedTypes : Value → Except Fault (List Value)
  | .str s => .ok [.str s]
  | v => v.elements

def type (listed x : Value) : Refusal := do
  let names ← listedTypes listed
  if ← names.anyM fun name => fitsType name x then passed
  else
    let shown ← Value.quotedItems describe names
    refuse describe x ("is not of type " ++ ", ".intercalate shown)

/-! ## Values -/

def enum (choices x : Value) : Refusal := do
  if (← choices.elements).any fun v => v.sameStrict x then passed
  else refuse describe x ("is not one of " ++ (← choices.quoted describe))

def const (expected x : Value) : Refusal := do
  if x.sameStrict expected then passed
  else return some ((← expected.quoted describe) ++ " was expected")

/-! ## Limits of numbers -/

/-- A limit of a number: the relation to the limit that is refused, and how it is told. -/
structure Bound where
  relation : String
  refuses : Ordering → Bool
  phrase : String

def Bound.minimum : Bound := ⟨"<", (· == .lt), "is less than the minimum of "⟩

def Bound.maximum : Bound := ⟨">", (· == .gt), "is greater than the maximum of "⟩

def Bound.exclusiveMinimum : Bound :=
  ⟨"<=", (· != .gt), "is less than or equal to the minimum of "⟩

def Bound.exclusiveMaximum : Bound :=
  ⟨">=", (· != .lt), "is greater than or equal to the maximum of "⟩

/-- The number that a value counts as. -/
def numberOf? : Value → Option Number
  | .atom a => a.number?
  | _ => none

/-- The order of two numbers; none if one of them is not a number in value. -/
def compareNumbers (relation : String) (x limit : Value) : Except Fault (Option Ordering) :=
  match numberOf? x, numberOf? limit with
  | some a, some b => .ok (a.compare? b)
  | _, _ => .error (.notOrdered relation x.typeName limit.typeName)

def bound (b : Bound) (limit x : Value) : Refusal := do
  if !x.isNumber then passed
  else if (← compareNumbers b.relation x limit).any b.refuses then
    refuse describe x (b.phrase ++ (← limit.quoted describe))
  else passed

/-! ## Multiples -/

/-- Numerator and denominator of the size of a finite number. -/
def ratioOf? : Number → Option (Nat × Nat)
  | .int i => some (i.natAbs, 1)
  | .float (.finite _ m e) => some (Binary64.ratio m e)
  | .float _ => none

/-- Whether the quotient of two finite numbers is whole, exactly. -/
def isExactMultiple (x divisor : Number) : Bool :=
  match ratioOf? x, ratioOf? divisor with
  | some (p, q), some (r, s) => p * s % (q * r) == 0
  | _, _ => false

/-- The datum nearest to a number; none if an integer is too large for one. -/
def toBinary64? : Number → Option Binary64
  | .int i => Binary64.ofInt? i
  | .float x => some x

/-- Whether a number is a multiple of a floating one, by their rounded quotient; a quotient out of
range is taken exactly. -/
def isFloatMultiple (x : Number) (divisor : Binary64) : Except Fault Bool :=
  match toBinary64? x with
  | none => .error .intTooLarge
  | some datum =>
    match datum.div? divisor with
    | none => .error (.divisionByZero "float division by zero")
    | some (.nan _) => .error .notANumberToInt
    | some (.infinite _) =>
      if (ratioOf? x).isSome then .ok (isExactMultiple x (.float divisor))
      else .error .infinityToRatio
    | some quotient => .ok quotient.isIntegral

/-- Whether a number is a multiple of a whole one. -/
def isIntMultiple (x : Number) (divisor : Int) : Except Fault Bool :=
  match x with
  | .int i =>
    if divisor = 0 then .error (.divisionByZero "integer modulo by zero")
    else .ok (i % divisor == 0)
  | .float x =>
    match Binary64.ofInt? divisor with
    | none => .error .intTooLarge
    | some d =>
      if d.isZero then .error (.divisionByZero "float modulo")
      else .ok (isExactMultiple (.float x) (.float d))

def multiple (divisor x : Value) : Refusal := do
  match x.number? with
  | none => passed
  | some n =>
    let fits ← match divisor with
      | .float d => isFloatMultiple n d
      | v =>
        match numberOf? v with
        | some (.int d) => isIntMultiple n d
        | _ => throw (.badOperands "%" x.typeName v.typeName)
    if fits then passed
    else refuse describe x ("is not a multiple of " ++ (← divisor.quoted describe))

/-! ## Limits of sizes -/

/-- The number of characters of a text, or of bytes. -/
def textSize? : Value → Option Nat
  | .str s => some s.length
  | .bytes bs => some bs.length
  | _ => none

def listSize? : Value → Option Nat
  | .list xs => some xs.length
  | _ => none

def mapSize? : Value → Option Nat
  | .map es _ => some es.length
  | _ => none

/-- A limit of a size: what is measured, the relation to the limit that is refused, a limit with a
phrase of its own, and the phrase for all others. -/
structure SizeBound where
  size? : Value → Option Nat
  relation : String
  refuses : Ordering → Bool
  special : Int
  specialPhrase : String
  phrase : String

/-- At least so many; at least one is told as not empty. -/
def SizeBound.least (size? : Value → Option Nat) (phrase : String) : SizeBound :=
  ⟨size?, "<", (· == .lt), 1, "should be non-empty", phrase⟩

/-- At most so many; at most none is told as empty. -/
def SizeBound.most (size? : Value → Option Nat) (phrase : String) : SizeBound :=
  ⟨size?, ">", (· == .gt), 0, "is expected to be empty", phrase⟩

def sizeBound (b : SizeBound) (limit x : Value) : Refusal := do
  match b.size? x with
  | none => passed
  | some n =>
    if (← compareNumbers b.relation (.int n) limit).any b.refuses then
      refuse describe x (if limit.same (.int b.special) then b.specialPhrase else b.phrase)
    else passed

/-! ## Lists and texts -/

def unique (asked x : Value) : Refusal :=
  match x with
  | .list xs =>
    if asked.truthy && !Value.allDistinct xs then refuse describe x "has non-unique elements"
    else passed
  | _ => passed

/-- The pattern that a value denotes. -/
def patternOf : Value → Except Fault Pattern
  | .str source => (Pattern.parse source).mapError .badPattern
  | _ => .error (.badPattern "first argument must be string or compiled pattern")

def pattern (source x : Value) : Refusal := do
  match x with
  | .str s =>
    if (← patternOf source).found s then passed
    else refuse describe x ("does not match " ++ (← source.quoted describe))
  | .bytes _ =>
    discard <| patternOf source
    throw .bytesPattern
  | _ => passed

def format (name x : Value) : Refusal := do
  match ← name.asKey, x with
  | .str n, .str s =>
    match Format.check? n with
    | some test =>
      if test s then passed else refuse describe x ("is not a " ++ (← name.quoted describe))
    | none => passed
  | _, _ => passed

end WireShape.Assertion
