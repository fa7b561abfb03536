import WireShape.Validation.Assertion

/-!
# The most relevant violation

Of several violations one is reported: one that is less deep, then later in the order of paths, then
not of a weak keyword, then whose datum is not even of the type that its schema names. Where no
branch of a schema is valid, the report goes on with the least relevant violation of the branches,
unless the two least ones are equally relevant.

* `Relevance`: what violations are compared by.
* `Violation.mostRelevant?`, `Violation.leastRelevant?`: the choice in a list of violations.
* `Violation.settle`: the report of a violation.
-/

namespace WireShape

structure Relevance where
  path : List Atom
  weak : Bool
  /-- Whether the datum is of the type that the schema names. -/
  fits : Bool

namespace Relevance

/-- The order of two keys in paths; the relation is the one that is asked for. -/
def compareKeys (relation : String) (a b : Atom) : Except Fault Ordering :=
  match Value.beforeAtom? a b, Value.beforeAtom? b a with
  | some true, _ => .ok .lt
  | _, some true => .ok .gt
  | some false, _ => .ok .eq
  | _, _ => .error (.notOrdered relation a.typeName b.typeName)

/-- The order of two paths of one length: the first keys that differ decide. -/
def comparePaths (relation : String) : List Atom → List Atom → Except Fault Ordering
  | a :: as, b :: bs => if a == b then comparePaths relation as bs else compareKeys relation a b
  | _, _ => .ok .eq

/-- The order of relevance. -/
def compare (relation : String) (a b : Relevance) : Except Fault Ordering := do
  let depth := Ord.compare b.path.length a.path.length
  if depth != .eq then return depth
  let paths ← comparePaths relation a.path b.path
  return paths.then ((Ord.compare b.weak a.weak).then (Ord.compare b.fits a.fits))

end Relevance

namespace Violation

/-- Whether a datum is of a named type; here a type that is not known is told. -/
def fitsNamedType (describe : Describe) (name x : Value) : Except Fault Bool :=
  match Assertion.fitsType name x with
  | .error .unknownType => do throw (.unknownTypeOf (← name.quoted describe))
  | r => r

/-- Whether the datum is of the type that the schema names, if it names one. -/
def fitsType (describe : Describe) (v : Violation) : Except Fault Bool := do
  match v.schema.field? "type" with
  | none => return false
  | some listed =>
    let names ← Assertion.listedTypes listed
    names.anyM fun name => fitsNamedType describe name v.datum

def relevance (describe : Describe) (v : Violation) : Except Fault Relevance := do
  return ⟨v.path, v.keyword.any Keyword.isWeak, ← v.fitsType describe⟩

/-! ## Of all violations of a check -/

/-- The place of the most relevant violation, the first of equals, given the best one so far. -/
def mostRelevantFrom (describe : Describe) (best : Nat × Relevance) :
    Nat → List Violation → Except Fault Nat
  | _, [] => .ok best.1
  | place, v :: rest => do
    let r ← v.relevance describe
    if (← r.compare ">" best.2) == .gt then
      mostRelevantFrom describe (place, r) (place + 1) rest
    else mostRelevantFrom describe best (place + 1) rest

/-- The place of the most relevant violation; none if there is no violation. -/
def mostRelevant? (describe : Describe) : List Violation → Except Fault (Option Nat)
  | [] => .ok none
  | v :: rest => do return some (← mostRelevantFrom describe (0, ← v.relevance describe) 1 rest)

/-! ## Of the violations in branches -/

/-- The two least relevant violations so far. -/
structure Least where
  first : Nat × Relevance
  second : Option (Nat × Relevance)

/-- Takes one more violation into account; it comes after its equals. -/
def Least.add (l : Least) (place : Nat) (r : Relevance) : Except Fault Least := do
  match l.second with
  | none =>
    if (← r.compare "<" l.first.2) == .lt then return ⟨(place, r), some l.first⟩
    else return ⟨l.first, some (place, r)⟩
  | some second =>
    if (← r.compare "<" second.2) == .lt then
      if (← r.compare "<" l.first.2) == .lt then return ⟨(place, r), some l.first⟩
      else return ⟨l.first, some (place, r)⟩
    else return l

/-- The place of the least relevant violation; none if there is no violation, or if the two least
ones are equally relevant. -/
def leastRelevant? (describe : Describe) : List Violation → Except Fault (Option Nat)
  | [] => .ok none
  | v :: rest => do
    let start : Least := ⟨(0, ← v.relevance describe), none⟩
    let (least, _) ← rest.foldlM (fun (l, place) v => do
      return (← Least.add l place (← v.relevance describe), place + 1)) (start, 1)
    match least.second with
    | none => return some least.first.1
    | some second =>
      if (← least.first.2.compare "==" second.2) == .eq then return none
      else return some least.first.1

/-! ## Reports -/

/-- What is reported: where a datum is in the whole, and why it is refused. -/
structure Report where
  path : List Atom
  message : String

mutual

/-- The report of a violation whose parent is at a path. -/
def settle (describe : Describe) (above : List Atom) : Violation → Except Fault Report
  | ⟨_, _, _, path, message, context⟩ => do
    match ← leastRelevant? describe context with
    | some place => settleAt describe (above ++ path) place context
    | none => return ⟨above ++ path, message⟩

/-- The report of the violation at a place of a list. -/
def settleAt (describe : Describe) (above : List Atom) : Nat → List Violation → Except Fault Report
  | _, [] => .error .missingIndex
  | 0, v :: _ => settle describe above v
  | place + 1, _ :: rest => settleAt describe above place rest

end

/-- The text of a report: the path with dots, unless it is empty, and the message. -/
def Report.text (describe : Describe) (r : Report) : Except Fault String := do
  let place := ".".intercalate (← r.path.mapM fun key => key.display describe)
  return if place.isEmpty then r.message else place ++ ": " ++ r.message

end Violation

end WireShape
