import WireShape.Coercion
import WireShape.Compile.Walk
import WireShape.NullTypes
import WireShape.Parameter
import WireShape.Validation.Validator

/-!
# Parts of a request with their schemas

The headers, the query, the path parameters and the body of a request are containers. A container
is checked against the same schema that is published for it.

* `Container.compile`: the container of a schema node.
* `Container.coerce`: data with text replaced by the values that it denotes.
* `Container.error`: why data are refused, or none.
-/

namespace WireShape

open Value (Fields)

structure Container where
  describe : Describe
  /-- The compiled schema. -/
  schema : Value
  /-- The definitions that it refers to. -/
  components : Components
  /-- The schema with its definitions in the form in which it is checked. -/
  document : Value

namespace Container

/-- A schema that admits keys which it does not describe. -/
def withUnknown : Value → Value
  | .map es _ => .ofEntries (Fields.remove es "additionalProperties")
  | v => v

/-- The container of a compiled schema; a forbidden one says nothing. -/
def ofCompiled (describe : Describe) (compiled : Option CompiledSchema) (allowUnknown : Bool) :
    Except Fault Container := do
  let (schema, components) := match compiled with
    | some c => (c.schema, c.components)
    | none => (.ofEntries [], [])
  let schema := if allowUnknown then withUnknown schema else schema
  let fields : Fields ← schema.spread
  let document ← NullTypes.expand
    (.ofEntries (fields.set "components" components.toValue))
  return { describe, schema, components, document }

/-- The container of a value that stands for a schema, with the log of the work. -/
def compile (h : Heap) (v : Value) (allowUnknown : Bool) :
    Except Fault Container × Array LogEntry :=
  let (outcome, log) := h.compileAgainst [] v
  (do ofCompiled h.describe (← outcome) allowUnknown, log)

/-! ## Looking up -/

/-- The definition of a bucket and a name; one that is missing says nothing. -/
def definition (components : Components) (bucket name : String) : Value :=
  OrderedMap.getD (components.bucket (.str bucket)) (.str name) (.ofEntries [])

/-- The start of references to definitions. -/
def referenceStart : String := "#/components/"

/-- The schema that a reference leads to; a schema that is none stands for itself. -/
def resolve (c : Container) (schema : Value) : Except Fault Value := do
  let reference := (schema.field? "$ref").getD .null
  let plain := if schema.isMap then schema else .ofEntries []
  if !reference.truthy then return plain
  if !(← reference.startsWith (.str referenceStart)) then return plain
  match reference with
  | .str s =>
    let path := s.toList.drop referenceStart.length
    match path.dropWhile (· != '/') with
    | [] => throw (.tooFewParts 2 1)
    | _ :: name =>
      let bucket := path.takeWhile (· != '/')
      return definition c.components (String.ofList bucket) (String.ofList name)
  | _ => return plain

/-- The described keys with their schemas. -/
def properties (c : Container) : Except Fault Value := do
  return (← (← c.resolve c.schema).getField "properties").orElse (.ofEntries [])

/-! ## Data -/

/-- The value under a key of data, coerced if the key is described. -/
def coerceEntry (c : Container) (described : Value) (key : Atom) (v : Value) :
    Except Fault Value := do
  if ← described.holds (.atom key) then
    let schema ← c.resolve (← described.item c.describe (.atom key))
    Coercion.coerceValue c.resolve v schema
  else return v

/-- Data with text replaced by the values that it denotes. -/
def coerce (c : Container) (data : Value) : Except Fault Value := do
  let described ← c.properties
  let entries ← data.entries
  return .ofEntries (← entries.mapM fun (key, v) => do
    return (key, ← c.coerceEntry described key v))

def validator (c : Container) : Validator := ⟨c.describe, c.document⟩

/-- Why data are refused; none if they are valid. -/
def error (c : Container) (data : Value) : Except Fault (Option String) := c.validator.error data

end Container

end WireShape
