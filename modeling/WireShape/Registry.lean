import WireShape.Compile.Walk
import WireShape.Json.Writer

/-!
# The registry of one document

Bodies and responses refer to their schemas by name. The registry keeps the definitions made so far
and chooses the names:

1. a schema that has been seen keeps its name;
2. a schema of a known shape takes the name of that shape;
3. any other schema is published under its label, which must not name a different shape.

* `Registry`: definitions, and names by identity and by shape.
* `Registry.compile`, `Registry.merge`: definitions from walks over schema nodes.
* `Registry.declare`, `Registry.nameFor`: definitions under given and under chosen names.
-/

namespace WireShape

/-- The identity of a schema that was supplied. -/
inductive Identity
  | node (id : NodeId)
  | mapping (identity : Nat)
deriving DecidableEq, Repr

/-- The identity of a value that can stand for a schema. -/
def Value.identity? : Value → Option Identity
  | .node id => some (.node id)
  | .map _ identity => identity.map .mapping
  | _ => none

structure Registry where
  components : Components := [(.str "schemas", []), (.str "parameters", [])]
  byIdentity : OrderedMap Identity Atom := []
  byShape : OrderedMap String Atom := []
  log : Array LogEntry := #[]
deriving Inhabited

/-- A step on the registry that may fail; what was done before the failure stays. -/
abbrev Registering := ExceptT Fault (StateM Registry)

namespace Registry

def lift {α : Type} (r : Except Fault α) : Registering α := fun reg => (r, reg)

/-- The definitions of schemas. -/
def schemas (reg : Registry) : OrderedMap Atom Value := reg.components.bucket (.str "schemas")

/-- The definitions of parameters. -/
def parameters (reg : Registry) : OrderedMap Atom Value :=
  reg.components.bucket (.str "parameters")

def addLog (level : LogLevel) (message : String) : Registering Unit :=
  modify fun reg => { reg with log := reg.log.push ⟨level, message⟩ }

/-- Adds an entry to the log whose text may be impossible to give; then there is none. -/
def addLogFrom (level : LogLevel) (message : Except Fault String) : Registering Unit :=
  match message with
  | .ok text => addLog level text
  | .error _ => pure ()

/-- Writes a definition. -/
def define (bucket name : Atom) (schema : Value) : Registering Unit :=
  modify fun reg => { reg with components := reg.components.define bucket name schema }

/-- Remembers the name of a schema that was supplied. -/
def bind (v : Value) (name : Atom) : Registering Unit :=
  match v.identity? with
  | some identity =>
    modify fun reg => { reg with byIdentity := reg.byIdentity.insert identity name }
  | none => pure ()

/-- Remembers the name of a shape. -/
def bindShape (shape : String) (name : Atom) : Registering Unit :=
  modify fun reg => { reg with byShape := reg.byShape.insert shape name }

/-- The definition under a name; a definition that is null counts as none. -/
def definition? (reg : Registry) (bucket name : Atom) : Option Value :=
  match OrderedMap.get? (reg.components.bucket bucket) name with
  | some .null => none
  | found => found

/-! ## Definitions from walks -/

/-- Makes sure that a bucket exists. -/
def openBucket (bucket : Atom) : Registering Unit :=
  modify fun reg =>
    if OrderedMap.contains reg.components bucket then reg
    else { reg with components := reg.components ++ [(bucket, [])] }

/-- Adds a definition; one of the same name must have the same shape. -/
def addDefinition (h : Heap) (bucket name : Atom) (schema : Value) : Registering Unit := do
  match (← get).definition? bucket name with
  | none => define bucket name schema
  | some existing =>
    let shape ← lift (Json.canonical h.describe existing)
    let newShape ← lift (Json.canonical h.describe schema)
    if shape != newShape then
      let shownName ← lift (name.display h.describe)
      let shownBucket ← lift (bucket.display h.describe)
      throw (.labelConflict shownName shownBucket)

/-- Adds definitions bucket by bucket. -/
def merge (h : Heap) (created : Components) : Registering Unit :=
  created.forM fun (bucket, entries) => do
    openBucket bucket
    entries.forM fun (name, schema) => addDefinition h bucket name schema

/-- Adds definitions given as a mapping of mappings. -/
def mergeValue (h : Heap) (created : Value) : Registering Unit := do
  (← lift created.entries).forM fun (bucket, entries) => do
    openBucket bucket
    (← lift entries.entries).forM fun (name, schema) => addDefinition h bucket name schema

/-- Runs a walk against the definitions made so far and keeps those that it creates. -/
def runWalk (h : Heap) (walk : Walk Compiled) : Registering Compiled := do
  let (outcome, ctx) := walk { known := (← get).components }
  modify fun reg => { reg with log := reg.log ++ ctx.log }
  let compiled ← lift outcome
  merge h ctx.created
  return compiled

/-- Compiles a value against the definitions made so far. -/
def compile (h : Heap) (v : Value) : Registering Compiled := runWalk h (h.compile v)

/-- Compiles a position against the definitions made so far. -/
def compileSchema (h : Heap) (s : Schema) : Registering Compiled := runWalk h (h.compileSchema s)

/-! ## Names -/

/-- Defines a schema under a given name; a forbidden one is skipped. -/
def declare (h : Heap) (name : Atom) (v : Value) : Registering Compiled := do
  match ← compile h v with
  | none =>
    addLogFrom .debug (do return "Skipping forbidden schema " ++ (← name.display h.describe))
    return none
  | some schema =>
    define (.str "schemas") name schema
    bind v name
    bindShape (← lift (Json.canonical h.describe schema)) name
    return some schema

/-- Writes a definition into a bucket that exists. -/
def assign (h : Heap) (bucket name schema : Value) : Registering Unit := do
  let bucket ← lift bucket.asKey
  if OrderedMap.contains (← get).components bucket then
    define bucket (← lift name.asKey) schema
  else throw (.missingKey (← lift (bucket.quoted h.describe)))

def registerParameter (name : Atom) (parameter : Value) : Registering Unit :=
  define (.str "parameters") name parameter

/-- The title of a schema, or null. -/
def titleOf (schema : Value) : Value := (schema.field? "title").getD .null

/-- Notes that a shape is used again, and that a label of its own is lost. -/
def logReuse (h : Heap) (name : Atom) (label : Value) : Registering Unit :=
  if label.truthy && !label.same (.atom name) then
    addLogFrom .debug (do
      return "Label " ++ (← label.display h.describe) ++
        " not published; identical shape already registered as " ++ (← name.display h.describe))
  else
    addLogFrom .debug (do
      return "Reusing schema " ++ (← name.display h.describe) ++ " for identical shape")

/-- Publishes a schema of a new shape under its title. -/
def publish (h : Heap) (v schema : Value) (shape : String) : Registering Atom := do
  let title := titleOf schema
  if !title.truthy then throw .missingLabel
  let name ← lift title.asKey
  match (← get).definition? (.str "schemas") name with
  | some existing =>
    if (← lift (Json.canonical h.describe existing)) != shape then
      throw (.labelConflict (← lift (name.display h.describe)) "schemas")
    bind v name
    bindShape shape name
    return name
  | none =>
    define (.str "schemas") name (Json.withoutTitle schema)
    bind v name
    bindShape shape name
    addLogFrom .debug (do return "Registered schema " ++ (← name.display h.describe))
    return name

/-- The name of a schema that has not been seen. -/
def chooseName (h : Heap) (v : Value) : Registering Atom := do
  match ← compile h v with
  | none => throw .forbiddenContent
  | some schema =>
    match ← lift (referenceName? schema "schemas") with
    | some target =>
      let name ← lift target.asKey
      bind v name
      return name
    | none =>
      let shape ← lift (Json.canonical h.describe schema)
      match (← get).byShape.get? shape with
      | some name =>
        bind v name
        logReuse h name (titleOf schema)
        return name
      | none => publish h v schema shape

/-- The name by which a schema is referred to. -/
def nameFor (h : Heap) (v : Value) : Registering Atom := do
  match v.identity?.bind (← get).byIdentity.get? with
  | some name => return name
  | none => chooseName h v

end Registry

end WireShape
