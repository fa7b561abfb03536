import WireShape.Compile.Context
import WireShape.Scalar

/-!
# From schema nodes to schemas

A walk turns a node and all that it holds into one schema and collects the definitions of named
classes on the way. For each node, in this order:

1. a schema that overrides it is compiled in its place, once and not nested;
2. a literal schema that overrides it is taken as it is;
3. a class that is known already is only referred to;
4. a forbidden node gives no schema;
5. the kind decides about the rest, the schemas of its conditions are merged into it,
   and the annotations follow;
6. a class is defined and referred to.

* `Compiled`: the outcome; none for a forbidden node.
* `Heap.compile`: the walk from a value.
* `Heap.depthBound`: the walk never nests deeper, unless a plain mapping that overrides a node leads
  back to that node.
-/

namespace WireShape

open Value (Fields)

/-- The outcome of compiling a node; none if the field is forbidden. -/
abbrev Compiled := Option Value

/-- A literal schema that is false forbids the field. -/
def Compiled.ofValue (v : Value) : Compiled := if v.isFalse then none else some v

/-- The distinct ones, each where it first occurs. -/
def distinct (schemas : List Value) : List Value :=
  schemas.foldl (fun kept s => if s.isIn kept then kept else kept ++ [s]) []

/-- The bucket of classes that name none. -/
def defaultBucket : Value := .str "schemas"

/-! ## How deep a walk can nest -/

mutual

/-- The number of plain objects at a position. -/
def Schema.objectCount : Schema → Nat
  | .node _ => 0
  | .object fields => 1 + fieldObjectCount fields

def Schema.fieldObjectCount : List (Atom × Schema) → Nat
  | [] => 0
  | (_, s) :: rest => s.objectCount + fieldObjectCount rest

end

mutual

/-- The number of mappings that a schema given as a value is made of. -/
def Value.objectCount : Value → Nat
  | .map es _ => 1 + entryObjectCount es
  | _ => 0

def Value.entryObjectCount : List (Atom × Value) → Nat
  | [] => 0
  | (_, v) :: es => v.objectCount + entryObjectCount es

end

/-- The positions that a node holds. -/
def Node.parts (n : Node) : List Schema :=
  n.children.map (·.2) ++ (n.keyPattern.map (·.2)).toList ++ n.items ++
    n.choices.flatMap Choice.branches ++ n.whens.flatMap Conditional.branches

/-- The number of plain objects that a node holds. -/
def Node.objectCount (n : Node) : Nat := n.parts.foldl (fun k s => k + s.objectCount) 0

/-- The calls that the plain mapping in place of a node may take, that of the node included. -/
def Node.overrideCount (n : Node) : Nat :=
  match (n.metaValue "schemaOverride").objectCount with
  | 0 => 0
  | count => count + 1

/-- The number of nodes, plain objects included. -/
def Heap.nodeCount (h : Heap) : Nat :=
  h.nodes.size + h.nodes.toList.foldl (fun k n => k + n.objectCount) 0

/-- A bound on the nesting of a walk from a position. -/
def Heap.depthBound (h : Heap) (s : Schema) : Nat :=
  2 * h.nodeCount + 2 + s.objectCount +
    (h.nodes.size + 1) * h.nodes.toList.foldl (fun k n => k + n.overrideCount) 0

/-! ## One node -/

/-- Compiles a position; the flag tells whether it stands in place of another one. -/
abbrev Recur := Schema → Bool → Walk Compiled

/-- The schema that a value stands for at the start of a walk; an empty mapping is none. -/
def rootSchema (v : Value) : Except Fault Schema :=
  match v with
  | .map [] _ => .error .noSchema
  | v => Schema.ofValue v

/-- Compiles positions one after the other and leaves out the forbidden ones. -/
def compileAll (recur : Recur) (schemas : List Schema) : Walk (List (Schema × Value)) := do
  let compiled ← schemas.mapM fun s => do return (s, ← recur s false)
  return compiled.filterMap fun (s, outcome) => outcome.map fun schema => (s, schema)

/-- A schema marked as that of a required branch. -/
def markRequired (schema : Value) : Except Fault Value := do
  return .ofEntries (Fields.set (← schema.spread) "x-required" (.bool true))

/-- Compiles branches one after the other; required ones are marked. -/
def compileBranches (h : Heap) (recur : Recur) (branches : List Schema) : Walk (List Value) := do
  let compiled ← branches.mapM fun s => do
    match ← recur s false with
    | none => return none
    | some schema =>
      if (h.view s).isRequired then return some (← Walk.lift (markRequired schema))
      else return some schema
  return compiled.filterMap id

/-- The distinct schemas of branches under a keyword; nothing if there are none. -/
def branchKeyword (keyword : String) (schemas : List Value) : Fields :=
  match distinct schemas with
  | [] => []
  | schemas => Fields.set [] keyword (.list schemas)

/-- Properties and required names of an object, in the order of its children. -/
def compileChildren (h : Heap) (recur : Recur) (children : List (Atom × Schema)) :
    Walk (Fields × List Value) :=
  children.foldlM (fun (properties, required) (key, child) => do
    match ← recur child false with
    | none => return (properties, required)
    | some schema =>
      return (OrderedMap.insert properties key schema,
        if (h.view child).isRequired then required ++ [.atom key] else required)) ([], [])

def compileObject (h : Heap) (recur : Recur) (n : Node) : Walk Fields := do
  let (properties, required) ← compileChildren h recur n.children
  let additional ← match n.keyPattern with
    | some (_, s) => if n.children.isEmpty then recur s false else pure none
    | none => pure none
  let fields := (Fields.set [] "type" (.str "object")).set "properties" (.ofEntries properties)
  let fields := if required.isEmpty then fields else fields.set "required" (.list required)
  let closed := match n.flag "unknown" with
    | .bool true => false
    | _ => true
  let fields := if closed then fields.set "additionalProperties" (.bool false) else fields
  match additional with
  | some schema =>
    return if schema.truthy then fields.set "additionalProperties" schema else fields
  | none => return fields

def compileArray (recur : Recur) (n : Node) : Walk Fields := do
  let schemas := distinct ((← compileAll recur n.items).map (·.2))
  let items : Value := match schemas with
    | [] => .ofEntries []
    | [schema] => schema
    | schemas => .ofFields [("oneOf", .list schemas)]
  let fields := (Fields.set [] "type" (.str "array")).set "items" items
  let fields := fields.merge (← Walk.lift (n.sizeKeywords "Items"))
  return if n.hasRule "unique" then fields.set "uniqueItems" (.bool true) else fields

def compileAlternatives (h : Heap) (recur : Recur) (n : Node) : Walk Fields := do
  let mode ← Walk.lift (((n.flag "match").orElse (.str "any")).display h.describe)
  return branchKeyword (mode ++ "Of")
    (← compileBranches h recur (n.choices.flatMap Choice.branches))

/-- The schemas of the conditions of a node: of one condition exactly one branch holds. -/
def compileWhens (h : Heap) (recur : Recur) (n : Node) : Walk Fields := do
  let keyword := if 1 < n.whens.length then "anyOf" else "oneOf"
  return branchKeyword keyword
    (← compileBranches h recur (n.whens.flatMap Conditional.branches))

/-- What the kind of a node says. -/
def compileKind (h : Heap) (recur : Recur) (n : Node) : Walk Fields := do
  let kind := n.baseKind
  let refuse : Walk Fields := do
    throw (.unknownKind (← Walk.lift (kind.display h.describe)))
  match ← Walk.lift kind.asKey with
  | .str name =>
    match Scalar.ofName? name with
    | some scalar => Walk.lift (scalar.keywords n)
    | none =>
      match name with
      | "object" => compileObject h recur n
      | "array" => compileArray recur n
      | "alternatives" => compileAlternatives h recur n
      | _ => refuse
  | _ => refuse

/-- Whether a default value is made anew for each request. -/
def isGenerated : Value → Bool
  | .atom (.callable ..) => true
  | _ => false

/-- Adds what a node says about itself. -/
def annotate (n : Node) (fields : Fields) : Fields :=
  let fields := if Value.null.isIn n.valids then fields.set "nullable" (.bool true) else fields
  let description := n.flag "description"
  let fields := if description.truthy then fields.set "description" description else fields
  let fields := match n.examples with
    | [] => fields
    | [v] => fields.set "example" v
    | vs => fields.set "examples" (.list vs)
  let label := n.flag "label"
  let fields := if label.truthy then fields.set "title" label else fields
  let value := n.flag "default"
  if value.isNull || isGenerated value then fields else fields.set "default" value

/-- A class is defined and referred to; any other schema stands for itself. -/
def finish (h : Heap) (className bucket schema : Value) : Walk Compiled := do
  if className.truthy then
    let bucket ← Walk.lift bucket.asKey
    let name ← Walk.lift className.asKey
    Walk.register h.describe bucket name schema
    return some (← Walk.lift (referenceTo h.describe bucket name))
  else return Compiled.ofValue schema

/-- What a node with no override and no literal schema compiles to. -/
def compilePlain (h : Heap) (recur : Recur) (s : Schema) (n : Node) (className bucket : Value) :
    Walk Compiled := do
  if className.truthy then
    let bucket ← Walk.lift bucket.asKey
    let name ← Walk.lift className.asKey
    if (← get).has bucket name then
      return some (← Walk.lift (referenceTo h.describe bucket name))
  if n.isForbidden then return none
  let fields ← Walk.atPosition s n.kind do
    let fields ← compileKind h recur n
    if n.whens.isEmpty then return fields
    else return fields.merge (← compileWhens h recur n)
  let fields := annotate n fields
  let literal := n.metaValue "swagger"
  let fields ← if literal.truthy then do pure (fields.merge (← Walk.lift literal.toEntries))
    else pure fields
  finish h className bucket (.ofEntries fields)

/-- One node, given how to compile what it holds. -/
def compileStep (h : Heap) (recur : Recur) (s : Schema) (overriding : Bool) : Walk Compiled := do
  let n := h.view s
  let override := n.metaValue "schemaOverride"
  if !override.isNull then
    if overriding then throw .nestedOverride
    else recur (← Walk.lift (rootSchema override)) true
  else
    let className := n.metaValue "className"
    let bucket := (n.metaValue "classTarget").orElse defaultBucket
    let literal := n.metaValue "swagger"
    if !literal.isNull && (n.metaValue "swaggerOverride").truthy then
      finish h className bucket literal
    else compilePlain h recur s n className bucket

/-! ## The walk -/

/-- The walk that nests at most `depth` deep. -/
def compileWithin (h : Heap) : Nat → Recur
  | 0 => fun _ _ => throw .unbounded
  | depth + 1 => compileStep h (compileWithin h depth)

namespace Heap

/-- The walk from a position. -/
def compileSchema (h : Heap) (s : Schema) : Walk Compiled :=
  compileWithin h (h.depthBound s) s false

/-- The walk from a value. -/
def compile (h : Heap) (v : Value) : Walk Compiled := do
  h.compileSchema (← Walk.lift (rootSchema v))

end Heap

/-- A schema with the definitions that it needs and that were not known before. -/
structure CompiledSchema where
  schema : Value
  components : Components

/-- Compiles a value against definitions that are known; none if it is forbidden. -/
def Heap.compileAgainst (h : Heap) (known : Components) (v : Value) :
    Except Fault (Option CompiledSchema) × Array LogEntry :=
  let (outcome, ctx) := h.compile v { known }
  (outcome.map fun compiled => compiled.map fun schema => ⟨schema, ctx.created⟩, ctx.log)

end WireShape
