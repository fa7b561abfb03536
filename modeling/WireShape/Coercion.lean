import WireShape.Text.Case
import WireShape.Text.Numeral
import WireShape.Value.Access

/-!
# Text as typed values

Query keys, headers and form fields arrive as text. Where a schema asks for a number or a boolean,
text that denotes one is replaced by it; any other text stays as it is and is left to the check.

* `Coercion.coerceText`: text under a type.
* `Coercion.coerceValue`: a value under a schema, lists element by element.
-/

namespace WireShape.Coercion

/-- How a schema that may be a reference is looked up. -/
abbrev Resolve := Value → Except Fault Value

/-- The boolean that text spells, in any letter case. -/
def spelledBool? (s : String) : Option Bool :=
  match Text.lower s with
  | "true" => some true
  | "false" => some false
  | _ => none

/-- Text under a type: the value that it denotes, or the text. -/
def coerceText (type : Value) (s : String) : Value :=
  let denoted : Option Value := match type with
    | .str "integer" => (Text.readInt? s).map .int
    | .str "number" => (Text.readBinary64? s).map .float
    | .str "boolean" => (spelledBool? s).map .bool
    | _ => none
  denoted.getD (.str s)

mutual

/-- A value under a schema. -/
def coerceValue (resolve : Resolve) : Value → Value → Except Fault Value
  | .list xs, schema => do
    match ← schema.getField "type" with
    | .str "array" =>
      let items ← resolve ((← schema.getField "items").orElse (.ofEntries []))
      return .list (← coerceItems resolve xs items)
    | _ => return .list xs
  | .str s, schema => do return coerceText (← schema.getField "type") s
  | v, schema => do
    discard <| schema.getField "type"
    return v

def coerceItems (resolve : Resolve) : List Value → Value → Except Fault (List Value)
  | [], _ => .ok []
  | x :: xs, schema => do
    return (← coerceValue resolve x schema) :: (← coerceItems resolve xs schema)

end

end WireShape.Coercion
