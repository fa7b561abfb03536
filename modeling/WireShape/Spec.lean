import WireShape.Parameter
import WireShape.Settings
import WireShape.Source

/-!
# The specification of a source

The specification lists the operations of all routes. Their parameters, bodies and responses refer
to definitions, which the registry collects on the way:

1. declared schemas are defined under their own names;
2. declared parameters are defined under theirs;
3. each route adds the definitions that its bodies, responses and path parameters need.

* `Spec.build`: the specification with the log of the work.
-/

namespace WireShape

open Value (Fields)

namespace Spec

open Registry (lift)

/-- What one build keeps constant. -/
structure Setup where
  heap : Heap
  /-- Whether parameters that are not declared are refused. -/
  strict : Bool
  /-- The start of the names of parameters that are passed as headers. -/
  headerStart : Value

/-- The names of declared parameters by the keys that they declare. -/
abbrev ParameterNames := OrderedMap Atom Atom

variable (setup : Setup)

def describe : Describe := setup.heap.describe

/-! ## Declarations -/

def declareSchemas (schemas : Value) : Registering Unit := do
  let entries ← if schemas.truthy then lift schemas.entries else pure []
  entries.forM fun (name, v) => do discard <| Registry.declare setup.heap name v

def declareParameters (parameters : Value) : Registering Unit := do
  let entries ← if parameters.truthy then lift parameters.entries else pure []
  entries.forM fun (name, v) => do
    match ← Registry.buildParameter setup.heap v setup.headerStart with
    | some parameter => Registry.registerParameter name parameter
    | none => pure ()

/-- The names of the parameters defined so far, by their keys; a later one wins. -/
def parameterNames (reg : Registry) : Except Fault ParameterNames :=
  reg.parameters.foldlM (fun names (name, parameter) => do
    match parameter.field? "name" with
    | some key => return OrderedMap.insert names (← key.asKey) name
    | none => return names) []

/-! ## Parameters of an operation -/

/-- The name under which a parameter is declared; if it is not, its own key. -/
def parameterName (names : ParameterNames) (route : Route) (key : Atom) : Registering Atom := do
  match OrderedMap.get? names key with
  | some name => if name == .null then undeclared else return name
  | none => undeclared
where
  undeclared : Registering Atom := do
    let shown ← lift (key.display (describe setup))
    if setup.strict then
      throw (.undeclaredParameter shown (← lift (route.path.display (describe setup))))
    let method ← lift ((← lift (Route.upperValue route.method)).display (describe setup))
    let path ← lift (route.path.display (describe setup))
    Registry.addLog .warning
      ("Parameter " ++ shown ++ " on " ++ method ++ " " ++ path ++
        " is not declared; referencing it by key")
    return key

/-- References to the parameters of one part of the request, in the order of its keys. -/
def referenceParameters (names : ParameterNames) (route : Route) (container : Value) :
    Registering (List Value) := do
  if container.isNull then return []
  let node := setup.heap.view (← lift (Schema.ofValue container))
  let children := node.children.filter fun e => !(setup.heap.view e.2).isForbidden
  children.mapM fun (key, _) => do
    let name ← parameterName setup names route key
    lift (referenceTo (describe setup) (.str "parameters") name)

/-- The parameters in the path, which are always required and stand in place. -/
def pathParameters (params : Value) : Registering (List Value) := do
  if params.isNull then return []
  let node := setup.heap.view (← lift (Schema.ofValue params))
  let parameters ← node.children.mapM fun (key, child) => do
    match ← Registry.compileSchema setup.heap child with
    | none => return none
    | some schema =>
      let definition : Fields ← lift schema.toEntries
      let description := OrderedMap.getD definition (.str "description") .null
      let fields : Fields := [(.str "name", .atom key), (.str "in", .str "path"),
        (.str "required", .bool true)]
      let fields := if description.truthy then fields.set "description" description else fields
      return some (Value.ofEntries
        (fields.set "schema" (.ofEntries (definition.remove "description"))))
  return parameters.filterMap id

def operationParameters (names : ParameterNames) (route : Route) : Registering (List Value) := do
  let headers ← referenceParameters setup names route route.headers
  let query ← referenceParameters setup names route route.query
  let path ← pathParameters setup route.params
  return headers ++ query ++ path

/-! ## Content -/

/-- Content by media type, with references to the definitions of its schemas. -/
def contentOf (content : Value) : Registering Value := do
  let built ← (← lift content.entries).mapM fun (mime, media) => do
    match media with
    | .mediaType schema examples =>
      let name ← Registry.nameFor setup.heap schema
      let target ← lift (referenceTo (describe setup) (.str "schemas") name)
      let fields : Fields := [(.str "schema", target)]
      return (mime, Value.ofEntries
        (if examples.truthy then fields.set "examples" examples else fields))
    | v => throw (.noAttribute v.typeName "schema")
  return .ofEntries built

def requestBodyOf (body : RequestBody) : Registering Value := do
  return .ofFields [("description", body.description), ("required", body.required),
    ("content", ← contentOf setup body.content)]

def responsesOf (responses : OrderedMap String Response) : Registering Value := do
  let built ← responses.mapM fun (status, response) => do
    return (status, Value.ofFields [("description", response.description),
      ("content", ← contentOf setup response.content)])
  return .ofFields built

/-! ## Operations -/

def operationOf (names : ParameterNames) (route : Route) : Registering Value := do
  let parameters ← operationParameters setup names route
  let fields : List (String × Value) := [("tags", .list route.tags), ("summary", route.summary),
    ("parameters", .list parameters)]
  let body ← match route.body with
    | some body => do pure [("requestBody", ← requestBodyOf setup body)]
    | none => pure []
  return .ofFields (fields ++ body ++ [("responses", ← responsesOf setup route.responses)])

/-- The operations of all routes, by path and method. -/
def pathsOf (names : ParameterNames) (paths : Paths) : Registering Fields :=
  paths.mapM fun (path, methods) => do
    let operations ← methods.mapM fun (method, route) => do
      return (method, ← operationOf setup names route)
    return (path, Value.ofEntries operations)

/-- The build for a source. -/
def buildWith (source : Source) : Registering Fields := do
  let schemas ← lift source.getSchemas
  let parameters ← lift source.getParameters
  declareSchemas setup schemas
  declareParameters setup parameters
  let names ← lift (parameterNames (← get))
  let paths ← pathsOf setup names (← lift (source.paths (describe setup)))
  let reg ← get
  Registry.addLog .debug ("Built document with " ++ toString paths.length ++ " paths and " ++
    toString reg.schemas.length ++ " schemas")
  return [(.str "tags", .list (← lift source.tags)), (.str "paths", .ofEntries paths),
    (.str "components", reg.components.toValue)]

/-- The specification of a source with the log of the work. Without a rule of its own about
parameters that are not declared, or about the names of headers, the environment decides. -/
def build (heap : Heap) (env : Environment) (source : Source) (strict headerStart : Value) :
    Except Fault Fields × Array LogEntry :=
  let settings := Settings.ofEnvironment env
  let strict := if strict.isNull then Settings.get settings "STRICT_PARAMETERS" else strict
  let headerStart := headerStart.orElse (Settings.get settings "HEADER_PREFIX")
  let (outcome, reg) := buildWith { heap, strict := strict.truthy, headerStart } source {}
  (outcome, reg.log)

end Spec

end WireShape
