import WireShape.Validation.Checker
import WireShape.Validation.Pointer
import WireShape.Validation.Relevance

/-!
# Validators

A validator checks data against a document whose references lead into the document itself. A check
passes through no reference twice with the same part of the datum and the same extent, or it would
never end; so the references that can be nested are bounded by what the document and the datum hold.

* `Validator.check`: the check of a datum.
* `Validator.error`: the text of the violation that is reported, or none for a valid datum.
-/

namespace WireShape

namespace Value

mutual

/-- How deep values are nested in a value. -/
def depth : Value → Nat
  | list xs => depthItems xs + 1
  | map es _ => depthEntries es + 1
  | _ => 0

def depthItems : List Value → Nat
  | [] => 0
  | x :: xs => max (depth x) (depthItems xs)

def depthEntries : List (Atom × Value) → Nat
  | [] => 0
  | (_, v) :: es => max (depth v) (depthEntries es)

end

mutual

/-- The number of references in a value. -/
def referenceCount : Value → Nat
  | list xs => referenceCountItems xs
  | map es _ => referenceCountEntries es
  | _ => 0

def referenceCountItems : List Value → Nat
  | [] => 0
  | x :: xs => referenceCount x + referenceCountItems xs

def referenceCountEntries : List (Atom × Value) → Nat
  | [] => 0
  | (key, v) :: es =>
    (if key == .str "$ref" then 1 else 0) + referenceCount v + referenceCountEntries es

end

end Value

structure Validator where
  describe : Describe
  document : Value

namespace Validator

variable (validator : Validator)

/-- The checker with references nested at most so deep. -/
def checkerWithin : Nat → Checker
  | 0 => ⟨validator.describe, fun _ _ _ => .failed .unbounded⟩
  | depth + 1 => ⟨validator.describe, fun reference extent x =>
      .ofStep (Pointer.target validator.document reference) fun
        | .map es identity => (checkerWithin depth).schema (.map es identity) extent x
        | .bool b => (checkerWithin depth).schema (.bool b) extent x
        | v => .failed (.noAttribute v.typeName "items")⟩

/-- How deep references can be nested: each with every part of the datum and either extent. -/
def depthBound (x : Value) : Nat := 2 * (x.depth + 1) * validator.document.referenceCount + 1

/-- The check of a datum. -/
def check (x : Value) : Outcome :=
  (checkerWithin validator (validator.depthBound x)).schema validator.document .full x

/-- The text of the violation that is reported; none for a valid datum. -/
def error (x : Value) : Except Fault (Option String) := do
  let outcome := validator.check x
  let place ← Violation.mostRelevant? validator.describe outcome.violations
  let violations ← outcome.toExcept
  match place with
  | none => return none
  | some place =>
    let report ← Violation.settleAt validator.describe [] place violations
    return some (← report.text validator.describe)

end Validator

end WireShape
