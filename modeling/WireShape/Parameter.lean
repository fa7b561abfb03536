import WireShape.Registry

/-!
# Parameters

A parameter is declared by an object schema with one key. Its definition carries the key as name,
where the parameter is passed, whether it is required, its schema and its description.

* `Registry.buildParameter`: the definition of a parameter; none for a schema without keys.
-/

namespace WireShape

open Value (Fields)

namespace Value

/-- The value under a key or at a place. -/
def item (describe : Describe) (v key : Value) : Except Fault Value := do
  match v, key with
  | map es _, key =>
    match OrderedMap.get? es (← key.asKey) with
    | some found => return found
    | none => throw (.missingKey (← key.quoted describe))
  | list xs, int i =>
    let place := if i < 0 then i + xs.length else i
    if place < 0 then throw .missingIndex
    match xs[place.toNat]? with
    | some x => return x
    | none => throw .missingIndex
  | list _, key => throw (.badIndex "list" key.typeName)
  | str _, key => throw (.badIndex "string" key.typeName)
  | bytes _, key => throw (.badIndex "byte" key.typeName)
  | v, _ => throw (.notSubscriptable v.typeName)

end Value

namespace Registry

/-- The definition of the parameter that an object schema declares; none without keys. -/
def buildParameter (h : Heap) (v headerStart : Value) : Registering (Option Value) := do
  match ← compile h v with
  | some (.map es identity) =>
    let schema : Value := .map es identity
    let properties := (schema.field? "properties").getD .null
    if !properties.truthy then return none
    let names ← lift properties.elements
    let name := names.headD .null
    if 1 < names.length then
      addLogFrom .warning (do
        return "Parameter schema declares " ++ toString names.length ++ " keys; only " ++
          (← name.display h.describe) ++ " is documented")
    let definition : Fields ← lift ((← lift (properties.item h.describe name)).toEntries)
    let description := OrderedMap.getD definition (.str "description") (.str "")
    let inHeader ← lift (name.startsWith headerStart)
    let required := ((schema.field? "required").getD .null).orElse (.list [])
    let isRequired ← lift (required.holds name)
    return some (.ofFields [
      ("name", name),
      ("in", .str (if inHeader then "header" else "query")),
      ("required", .bool isRequired),
      ("schema", .ofEntries (definition.remove "description")),
      ("description", description)])
  | _ => return none

end Registry

end WireShape
