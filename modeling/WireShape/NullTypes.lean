import WireShape.Value.Access

/-!
# Nullable schemas as lists of types

A published schema says `nullable`; a checked one lists `null` among its types and its choices.

* `NullTypes.expand`: the checked form of a schema, at every depth.
-/

namespace WireShape

open Value (Fields)

namespace NullTypes

/-- Adds null to the choices of a schema, unless it is among them. -/
def withNullChoice (choices : Value) : Except Fault Value := do
  if ← choices.holds .null then return choices
  match choices with
  | .list xs => return .list (xs ++ [.null])
  | v => throw (.badOperands "+" v.typeName "list")

/-- Adds null to what fields admit: to a single type and to the choices. -/
def admitNull (fields : Fields) : Except Fault Fields := do
  let fields : Fields := match OrderedMap.get? fields (.str "type") with
    | some (.str name) => fields.set "type" (.list [.str name, .str "null"])
    | _ => fields
  match OrderedMap.get? fields (.str "enum") with
  | some choices => return fields.set "enum" (← withNullChoice choices)
  | none => return fields

/-- The fields of a mapping without their mark; what is marked admits null. -/
def resolveMark (fields : Fields) : Except Fault Fields :=
  let marked := (OrderedMap.getD fields (.str "nullable") .null).truthy
  let fields := fields.remove "nullable"
  if marked then admitNull fields else .ok fields

mutual

/-- The checked form of a value: of every mapping in it, from the inside out. -/
def expand : Value → Except Fault Value
  | .list xs => do return .list (← expandItems xs)
  | .map es _ => do return .ofEntries (← resolveMark (← expandEntries es))
  | v => .ok v

def expandItems : List Value → Except Fault (List Value)
  | [] => .ok []
  | x :: xs => do return (← expand x) :: (← expandItems xs)

def expandEntries : List (Atom × Value) → Except Fault (List (Atom × Value))
  | [] => .ok []
  | (k, v) :: es => do return (k, ← expand v) :: (← expandEntries es)

end

end NullTypes

end WireShape
