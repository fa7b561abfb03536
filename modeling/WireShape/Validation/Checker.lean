import WireShape.Validation.Assertion

/-!
# Checking data against schemas

The keywords of a schema are checked in their order. A keyword sees its value as a `Part`: the
value itself and the checks of the schemas in it.

* `Checker.keyword`: the check of one keyword.
* `Checker.schema`: the check of a schema.
-/

namespace WireShape

/-- What a check needs besides the schema: how schema nodes are described, and the check that a
reference leads to. -/
structure Checker where
  describe : Describe
  follow : Value → Check

/-- The value of a keyword with the checks of the schemas in it. -/
structure Part where
  value : Value
  /-- The check of the value as a schema. -/
  check : Check
  /-- The members of the value with their checks as schemas. -/
  members : Except Fault (List (Value × Check))
  /-- The keys of the value with the checks of what stands under them. -/
  fields : Except Fault (List (Atom × Check))

namespace Checker

variable (c : Checker)

/-! ## Schemas without keywords -/

/-- The violation of the schema that refuses everything. -/
def refuseAll (x : Value) : Outcome :=
  .ofStep (x.quoted c.describe) fun shown =>
    .single ⟨none, .bool false, x, [], "False schema does not allow " ++ shown, []⟩

/-- The check of an atom as a schema: only the two booleans are schemas. -/
def atom (a : Atom) : Check := fun _ x =>
  match a with
  | .bool true => .valid
  | .bool false => c.refuseAll x
  | a => .failed (.noAttribute a.typeName "get")

/-- Whether a schema that stands by itself admits a datum. -/
def admits (schema : Value) (check : Check) (x : Value) : Except Fault Bool :=
  match schema with
  | .map .. | .bool _ => (check .first x).holds
  | v => .error (.noAttribute v.typeName "items")

/-! ## Keywords -/

/-- Where a keyword stands and what it is asked about. -/
structure Site where
  keyword : Keyword
  schema : Value
  datum : Value

/-- A violation of the keyword of a site. -/
def Site.violation (site : Site) (message : String) (context : List Violation) : Violation :=
  ⟨some site.keyword, site.schema, site.datum, [], message, context⟩

/-- The outcome of a keyword about one datum. -/
def Site.outcome (site : Site) (refusal : Assertion.Refusal) : Outcome :=
  .ofStep refusal fun
    | some message => .single (site.violation message [])
    | none => .valid

/-- The entries of a datum that is a mapping. -/
def entriesOf? : Value → Option (OrderedMap Atom Value)
  | .map es _ => some es
  | _ => none

/-- Every listed name must be a key of a mapping. -/
def required (site : Site) (names : Value) (extent : Extent) : Outcome :=
  match entriesOf? site.datum with
  | none => .valid
  | some _ =>
    .ofStep names.elements fun names =>
      Outcome.all extent (fun name =>
        .ofStep (site.datum.holds name) fun present =>
          if present then .valid
          else site.outcome do
            return some ((← name.quoted c.describe) ++ " is a required property")) names

/-- What stands under a described key must satisfy its schema. -/
def properties (fields : Except Fault (List (Atom × Check))) (extent : Extent) (x : Value) :
    Outcome :=
  match entriesOf? x with
  | none => .valid
  | some es =>
    .ofStep fields fun fields =>
      Outcome.all extent (fun (key, check) =>
        match OrderedMap.get? es key with
        | some v => (check extent v).under key
        | none => .valid) fields

/-- The keys of a mapping that its schema does not describe. -/
def extraKeys (schema : Value) (es : OrderedMap Atom Value) : Except Fault (List Atom) := do
  let described := (schema.field? "properties").getD (.ofEntries [])
  es.keys.filterM fun key => do return !(← described.holds (.atom key))

/-- The keys in the order of their texts. -/
def sortKeys (keys : List Atom) : Except Fault (List Atom) := do
  let shown ← keys.mapM fun key => do return (← key.display c.describe, key)
  return (RunSort.sortRun (fun a b => decide (a.1 < b.1)) shown).map (·.2)

/-- The refusal of keys that are not described. -/
def refuseExtra (extra : List Atom) : Assertion.Refusal := do
  if extra.isEmpty then return none
  let shown ← (← c.sortKeys extra).mapM fun key => key.quoted c.describe
  return some ("Additional properties are not allowed (" ++ ", ".intercalate shown ++
    (if extra.length = 1 then " was" else " were") ++ " unexpected)")

/-- What stands under keys that are not described must satisfy a schema, or must not be there. -/
def additionalProperties (site : Site) (part : Part) (extent : Extent) : Outcome :=
  match entriesOf? site.datum with
  | none => .valid
  | some es =>
    .ofStep (extraKeys site.schema es) fun extra =>
      if part.value.isMap then
        Outcome.all extent (fun key =>
          (part.check extent (OrderedMap.getD es key .null)).under key) extra
      else if part.value.truthy then .valid
      else site.outcome (c.refuseExtra extra)

/-- The members of a list from a place on, each under its index. -/
def itemsFrom (check : Check) (extent : Extent) : Nat → List Value → Outcome
  | _, [] => .valid
  | index, x :: xs =>
    ((check extent x).under (.int index)).andThen extent fun _ =>
      itemsFrom check extent (index + 1) xs

/-- The refusal of all members of a list. -/
def refuseItems (xs : List Value) : Assertion.Refusal := do
  let rest := match xs with
    | [x] => x
    | xs => .list xs
  return some ("Expected at most 0 items but found " ++ toString xs.length ++ " extra: " ++
    (← rest.quoted c.describe))

/-- Every member of a list must satisfy the schema. -/
def items (site : Site) (part : Part) (extent : Extent) : Outcome :=
  match site.datum with
  | .list [] => .valid
  | .list xs =>
    if part.value.isFalse then site.outcome (c.refuseItems xs)
    else itemsFrom part.check extent 0 xs
  | _ => .valid

/-! ## Branches -/

/-- What trying branches one after another leads to. -/
inductive Branching
  /-- No branch is valid. -/
  | refused (violations : List Violation)
  /-- The first valid branch, and those after it. -/
  | found (schema : Value) (rest : List (Value × Check))

/-- Tries branches up to the first valid one. -/
def tryBranches (x : Value) : List (Value × Check) → Except Fault Branching
  | [] => .ok (.refused [])
  | (schema, check) :: rest => do
    let violations ← (check .full x).toExcept
    if violations.isEmpty then return .found schema rest
    match ← tryBranches x rest with
    | .refused more => return .refused (violations ++ more)
    | found => return found

/-- The violation of branches none of which is valid. -/
def refuseBranches (site : Site) (context : List Violation) : Outcome :=
  .ofStep (Assertion.refuse c.describe site.datum "is not valid under any of the given schemas")
    fun message => .single (site.violation (message.getD "") context)

def anyOf (site : Site) (part : Part) : Outcome :=
  .ofStep (do tryBranches site.datum (← part.members)) fun
    | .refused violations => c.refuseBranches site violations
    | .found .. => .valid

/-- The refusal of a datum that more than one branch admits: those after the first one are told
before it. -/
def refuseFurther (x first : Value) (further : List Value) : Assertion.Refusal := do
  if further.isEmpty then return none
  Assertion.refuse c.describe x ("is valid under each of " ++
    ", ".intercalate (← Value.quotedItems c.describe (further ++ [first])))

def oneOf (site : Site) (part : Part) : Outcome :=
  .ofStep (do tryBranches site.datum (← part.members)) fun
    | .refused violations => c.refuseBranches site violations
    | .found first rest => site.outcome do
      let further ← rest.filterM fun (schema, check) => admits schema check site.datum
      c.refuseFurther site.datum first (further.map (·.1))

/-- Every branch must be valid. -/
def allOf (part : Part) (extent : Extent) (x : Value) : Outcome :=
  .ofStep part.members fun members => Outcome.all extent (fun (_, check) => check extent x) members

/-- A datum must not satisfy the schema. -/
def not (part : Part) (x : Value) : Assertion.Refusal := do
  if ← admits part.value part.check x then
    Assertion.refuse c.describe x
      ("should not be valid under " ++ (← part.value.quoted c.describe))
  else Assertion.passed

/-! ## Schemas -/

open Assertion (Bound SizeBound) in
/-- The check of one keyword. -/
def keyword (kw : Keyword) (schema : Value) (part : Part) : Check := fun extent x =>
  let site : Site := ⟨kw, schema, x⟩
  let value := part.value
  let number (b : Bound) : Outcome := site.outcome (Assertion.bound c.describe b value x)
  let size (b : SizeBound) : Outcome := site.outcome (Assertion.sizeBound c.describe b value x)
  match kw with
  | .reference => c.follow value extent x
  | .type => site.outcome (Assertion.type c.describe value x)
  | .enum => site.outcome (Assertion.enum c.describe value x)
  | .const => site.outcome (Assertion.const c.describe value x)
  | .minimum => number .minimum
  | .maximum => number .maximum
  | .exclusiveMinimum => number .exclusiveMinimum
  | .exclusiveMaximum => number .exclusiveMaximum
  | .multipleOf => site.outcome (Assertion.multiple c.describe value x)
  | .minLength => size (.least Assertion.textSize? "is too short")
  | .maxLength => size (.most Assertion.textSize? "is too long")
  | .minItems => size (.least Assertion.listSize? "is too short")
  | .maxItems => size (.most Assertion.listSize? "is too long")
  | .minProperties => size (.least Assertion.mapSize? "does not have enough properties")
  | .maxProperties => size (.most Assertion.mapSize? "has too many properties")
  | .uniqueItems => site.outcome (Assertion.unique c.describe value x)
  | .pattern => site.outcome (Assertion.pattern c.describe value x)
  | .format => site.outcome (Assertion.format c.describe value x)
  | .required => c.required site value extent
  | .properties => properties part.fields extent x
  | .additionalProperties => c.additionalProperties site part extent
  | .items => c.items site part extent
  | .anyOf => c.anyOf site part
  | .oneOf => c.oneOf site part
  | .allOf => allOf part extent x
  | .not => site.outcome (c.not part x)

/-- The check of an entry of a schema; only the names of keywords count. -/
def entry (schema : Value) (key : Atom) (part : Part) : Check := fun extent x =>
  match key with
  | .str name =>
    match Keyword.ofName? name with
    | some kw => c.keyword kw schema part extent x
    | none => .valid
  | _ => .valid

/-- The members of a value that is no list, none of which is more than an atom. -/
def atomMembers (v : Value) : Except Fault (List (Value × Check)) := do
  return (← v.elements).map fun x =>
    match x with
    | .atom a => (x, c.atom a)
    | x => (x, fun _ _ => .failed (.noAttribute x.typeName "get"))

mutual

/-- The check of a schema: its entries one after another. -/
def schema : Value → Extent → Value → Outcome
  | .atom a, extent, x => c.atom a extent x
  | .map es identity, extent, x =>
    Outcome.all extent (fun (key, part) => c.entry (.map es identity) key part extent x)
      (parts es)
  | v, _, _ => .failed (.noAttribute v.typeName "get")

/-- The entries of a schema as parts. -/
def parts : List (Atom × Value) → List (Atom × Part)
  | [] => []
  | (key, v) :: es => (key, ⟨v, schema v, membersOf v, fieldsOf v⟩) :: parts es

/-- The members of a value with their checks as schemas. -/
def membersOf : Value → Except Fault (List (Value × Check))
  | .list xs => .ok (listMembers xs)
  | v => c.atomMembers v

def listMembers : List Value → List (Value × Check)
  | [] => []
  | x :: xs => (x, schema x) :: listMembers xs

/-- The keys of a mapping with the checks of what stands under them. -/
def fieldsOf : Value → Except Fault (List (Atom × Check))
  | .map es _ => .ok (mapFields es)
  | v => .error (.noAttribute v.typeName "items")

def mapFields : List (Atom × Value) → List (Atom × Check)
  | [] => []
  | (key, v) :: es => (key, schema v) :: mapFields es

end

end Checker

end WireShape
