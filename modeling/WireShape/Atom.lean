import WireShape.Binary64.Basic
import WireShape.OrderedMap

/-!
# Atoms

An `Atom` is a value without parts. Atoms are also the keys of mappings.

* `Number.compare?`: integers and binary floating point numbers in one exact order.
* `Atom.same`: when two atoms are the same key: numbers by value, booleans counting as 0 and 1,
  functions and schema nodes by identity, all else by content.
-/

namespace WireShape

/-- The identity of a schema node. -/
abbrev NodeId := Nat

inductive Number
  | int (i : Int)
  | float (x : Binary64)
deriving DecidableEq, Repr

namespace Number

/-- The exact order; none where a side is not a number. -/
def compare? : Number → Number → Option Ordering
  | int i, int j => some (compare i j)
  | float x, float y => x.compare? y
  | float x, int j => x.compareInt? j
  | int i, float y => (y.compareInt? i).map Ordering.swap

/-- Equal in value, or one and the same datum that is not a number. A payload of zero is shared by
data that are not the same. -/
def same : Number → Number → Bool
  | float (.nan p), float (.nan q) => p == q && p != 0
  | a, b => a.compare? b == some .eq

def lt (a b : Number) : Bool := a.compare? b == some .lt

def le (a b : Number) : Bool := (a.compare? b).any fun o => o != .gt

def isZero : Number → Bool
  | int i => i == 0
  | float x => x.isZero

end Number

inductive Atom
  | null
  | bool (b : Bool)
  | int (i : Int)
  | float (x : Binary64)
  | str (s : String)
  | bytes (bs : List UInt8)
  /-- The value of a sibling field, known only when data are checked. -/
  | ref (key : String)
  /-- A function, known by its identity. -/
  | callable (identity : Nat) (name : String)
  | regex (source : String)
  | node (id : NodeId)
deriving DecidableEq, Repr, Inhabited

namespace Atom

/-- The name of the type of an atom, as most messages give it. -/
def typeName : Atom → String
  | null => "NoneType"
  | bool _ => "bool"
  | int _ => "int"
  | float _ => "float"
  | str _ => "str"
  | bytes _ => "bytes"
  | ref _ => "Ref"
  | callable .. => "Call"
  | regex _ => "re.Pattern"
  | node _ => "SchemaNode"

/-- The number that an atom counts as. -/
def number? : Atom → Option Number
  | bool b => some (.int (if b then 1 else 0))
  | int i => some (.int i)
  | float x => some (.float x)
  | _ => none

/-- When two atoms are the same key. -/
def same (a b : Atom) : Bool :=
  match a.number?, b.number? with
  | some x, some y => x.same y
  | none, none =>
    match a, b with
    | callable i _, callable j _ => i == j
    | _, _ => decide (a = b)
  | _, _ => false

/-- Keys are compared by `Atom.same`. -/
instance (priority := high) : BEq Atom := ⟨same⟩

def truthy : Atom → Bool
  | null => false
  | bool b => b
  | int i => i != 0
  | float x => !x.isZero
  | str s => !s.isEmpty
  | bytes bs => !bs.isEmpty
  | _ => true

end Atom

end WireShape
