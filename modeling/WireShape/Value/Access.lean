import WireShape.Fault
import WireShape.Value.Basic

/-!
# Asking values for what they may not have

Schemas and routes are described by values of any form, so each of these questions can fail, and
the failure says which form was met.

* `Value.asKey`: the value as the key of a mapping.
* `Value.entries`, `Value.get`: the entries of a mapping and the value under a key.
* `Value.toEntries`: a mapping, or a sequence of pairs, as entries.
* `Value.elements`: the elements met when going through a value.
* `Value.holds`: whether an element, a key or a part of a text is in a value.
* `Value.spread`: the entries of a mapping that is merged into another one.
* `Value.startsWith`: whether a text begins with another one.
-/

namespace WireShape.Value

/-- The value as the key of a mapping. -/
def asKey : Value → Except Fault Atom
  | atom a => .ok a
  | list _ => .error (.unhashable "list")
  | _ => .error (.unhashable "dict")

/-- The entries of a mapping. The items of a schema node are not asked for in this way. -/
def entries : Value → Except Fault (OrderedMap Atom Value)
  | map es _ => .ok es
  | node _ => .error (.notCallable "tuple")
  | v => .error (.noAttribute v.typeName "items")

/-- The value that a mapping has under a key. -/
def get (v : Value) (key : Atom) : Except Fault (Option Value) :=
  match v with
  | map es _ => .ok (OrderedMap.get? es key)
  | v => .error (.noAttribute v.typeName "get")

/-- The value that a mapping has under a text key, or null. -/
def getField (v : Value) (name : String) : Except Fault Value := do
  return (← v.get (.str name)).getD null

/-- The elements met when going through a value; none where it has no elements. -/
def elements? : Value → Option (List Value)
  | list xs => some xs
  | map es _ => some (es.map fun e => atom e.1)
  | str s => some (s.toList.map fun c => str (String.singleton c))
  | bytes bs => some (bs.map fun b => int b.toNat)
  | _ => none

def elements (v : Value) : Except Fault (List Value) :=
  match v.elements? with
  | some xs => .ok xs
  | none => .error (.notIterable v.typeName)

/-- Writes a sequence of pairs, the first of which has the given index, over a mapping. -/
def writePairs : Nat → List Value → OrderedMap Atom Value → Except Fault (OrderedMap Atom Value)
  | _, [], acc => .ok acc
  | index, pair :: rest, acc =>
    match pair.elements? with
    | none => .error (.pairNotSequence index)
    | some [k, v] => do writePairs (index + 1) rest (acc.insert (← k.asKey) v)
    | some parts => .error (.pairLength index parts.length)

/-- The entries of a mapping, or of a sequence of pairs. -/
def toEntries : Value → Except Fault (OrderedMap Atom Value)
  | map es _ => .ok es
  | v => do writePairs 0 (← v.elements) []

/-- The entries of a mapping that is merged into another one. -/
def spread : Value → Except Fault (OrderedMap Atom Value)
  | map es _ => .ok es
  | v => .error (.notMapping v.typeName)

/-- Whether `part` stands somewhere in a sequence. -/
def occursIn {α : Type} [BEq α] (part : List α) : List α → Bool
  | [] => part.isEmpty
  | x :: rest => part.isPrefixOf (x :: rest) || occursIn part rest

/-- Whether an element, a key, a part of a text or a byte is in a value. -/
def holds (container v : Value) : Except Fault Bool :=
  match container with
  | list xs => .ok (v.isIn xs)
  | map es _ => do return OrderedMap.contains es (← v.asKey)
  | str s =>
    match v with
    | str part => .ok (occursIn part.toList s.toList)
    | v => .error (.textOperandNeeded v.typeName)
  | bytes bs =>
    match v with
    | bytes part => .ok (occursIn part bs)
    | int i => .ok (bs.any fun b => (b.toNat : Int) == i)
    | bool b => .ok (bs.any fun x => x.toNat == if b then 1 else 0)
    | v => .error (.bytesOperandNeeded v.typeName)
  | container => .error (.notContainer container.typeName)

/-- Whether a text begins with another one. -/
def startsWith (v start : Value) : Except Fault Bool :=
  match v, start with
  | str s, str p => .ok (p.toList.isPrefixOf s.toList)
  | bytes bs, bytes p => .ok (p.isPrefixOf bs)
  | str _, start => .error (.badStart "str" start.typeName)
  | bytes _, start => .error (.badStart "bytes" start.typeName)
  | v, _ => .error (.noAttribute v.typeName "startswith")

end WireShape.Value
