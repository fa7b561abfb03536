import WireShape.Value.Access
import WireShape.Validation.Keyword

/-!
# Violations

A check finds violations one after another, and a fault may end it.

* `Violation`: what a schema refuses about a datum, with the violations behind it.
* `Outcome`: the violations of a check in their order, and the fault that ended it.
* `Outcome.andThen`: one check after another, as far as is asked for.
* `Outcome.holds`: whether a datum is valid; the first violation decides.
-/

namespace WireShape

structure Violation where
  /-- The violated keyword; none where a schema refuses everything. -/
  keyword : Option Keyword
  /-- The schema that holds the keyword. -/
  schema : Value
  /-- The datum that violates it. -/
  datum : Value
  /-- Where the datum is, from the datum that the check began with. -/
  path : List Atom
  message : String
  /-- The violations in the branches, where no branch is valid. -/
  context : List Violation

/-- How far a check goes. -/
inductive Extent
  | full
  /-- Up to the first violation. -/
  | first
deriving DecidableEq, Repr

structure Outcome where
  violations : List Violation := []
  fault : Option Fault := none

/-- A check of a datum. -/
abbrev Check := Extent → Value → Outcome

namespace Outcome

/-- Nothing is refused. -/
def valid : Outcome := {}

def failed (f : Fault) : Outcome := { fault := some f }

def single (v : Violation) : Outcome := { violations := [v] }

/-- Whether nothing further is asked for. -/
def isDone (extent : Extent) (o : Outcome) : Bool :=
  o.fault.isSome || (extent == .first && !o.violations.isEmpty)

/-- One check after another. -/
def andThen (extent : Extent) (o : Outcome) (next : Unit → Outcome) : Outcome :=
  if o.isDone extent then o
  else
    let later := next ()
    { violations := o.violations ++ later.violations, fault := later.fault }

/-- The checks of the members of a list, one after another. -/
def all {α : Type} (extent : Extent) (check : α → Outcome) : List α → Outcome
  | [] => valid
  | x :: xs => (check x).andThen extent fun _ => all extent check xs

/-- The outcome that a step leads to, unless the step fails. -/
def ofStep {α : Type} (step : Except Fault α) (next : α → Outcome) : Outcome :=
  match step with
  | .ok a => next a
  | .error f => failed f

/-- Says of every violation that its datum is under a key. A null key is not told. -/
def under (key : Atom) (o : Outcome) : Outcome :=
  match key with
  | .null => o
  | key => { o with violations := o.violations.map fun v => { v with path := key :: v.path } }

/-- Whether a datum is valid; the first violation decides, and a fault only if there is none. -/
def holds (o : Outcome) : Except Fault Bool :=
  if o.violations.isEmpty then
    match o.fault with
    | some f => .error f
    | none => .ok true
  else .ok false

/-- The violations of a check that had to be complete. -/
def toExcept (o : Outcome) : Except Fault (List Violation) :=
  match o.fault with
  | some f => .error f
  | none => .ok o.violations

end Outcome

end WireShape
