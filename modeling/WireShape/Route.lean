import WireShape.Text.Case
import WireShape.Value.Display
import WireShape.Value.Access

/-!
# Routes

A route is a method on a path with the schemas of its request and its responses.

* `Route.create`: a route from its description, a mapping of arguments.
* `mediaTypes`: content in which each schema stands by itself or comes with examples.
-/

namespace WireShape

open Value (Fields)

/-- The body of a request. -/
structure RequestBody where
  content : Value
  description : Value
  required : Value

/-- A response. -/
structure Response where
  description : Value
  content : Value

structure Route where
  path : Value
  method : Value
  summary : Value
  tags : List Value
  headers : Value
  query : Value
  params : Value
  body : Option RequestBody
  responses : OrderedMap String Response

namespace RequestBody

def toValue (b : RequestBody) : Value := .requestBody b.content b.description b.required

end RequestBody

namespace Response

def toValue (r : Response) : Value := .response r.description r.content

end Response

/-- Content by media type; a schema that stands by itself has no examples. -/
def mediaTypes (content : Value) : Except Fault Value := do
  let entries ← if content.truthy then content.entries else pure []
  return .ofEntries (OrderedMap.ofEntries (OrderedMap.mapValues (fun
    | .mediaType schema examples => .mediaType schema examples
    | schema => .mediaType schema .null) entries))

namespace Route

/-- The parts of a request that have a schema of their own besides the body. -/
def containerNames : List String := ["headers", "query", "params"]

/-- The schema of a part of the request; null if there is none. -/
def container (r : Route) : String → Value
  | "headers" => r.headers
  | "query" => r.query
  | "params" => r.params
  | _ => .null

/-- The body of a request from its description. -/
def bodyOf (v : Value) : Except Fault (Option RequestBody) := do
  match v with
  | .null => return none
  | .requestBody content description required => return some { content, description, required }
  | v =>
    let content ← mediaTypes (← v.getField "content")
    let description := (← v.getField "description").orElse (.str "")
    let required := Value.bool (← v.getField "required").truthy
    return some { content, description, required }

def responseOf (v : Value) : Except Fault Response := do
  match v with
  | .response description content => return { description, content }
  | v =>
    let description := (← v.getField "description").orElse (.str "")
    let content ← mediaTypes (← v.getField "content")
    return { description, content }

/-- The responses by status, which is kept as text. -/
def responsesOf (describe : Describe) (v : Value) : Except Fault (OrderedMap String Response) := do
  let entries ← if v.truthy then v.entries else pure []
  entries.foldlM (fun responses (status, v) => do
    match v with
    | .response description content =>
      return responses.insert (← status.display describe) { description, content }
    | v =>
      let response ← responseOf v
      return responses.insert (← status.display describe) response) []

/-- A text in lower case. -/
def lowerValue : Value → Except Fault Value
  | .str s => .ok (.str (Text.lower s))
  | .bytes bs => .ok (.bytes (bs.map fun b => if 65 ≤ b && b ≤ 90 then b + 32 else b))
  | v => .error (.noAttribute v.typeName "lower")

/-- A text in upper case. -/
def upperValue : Value → Except Fault Value
  | .str s => .ok (.str (Text.upper s))
  | .bytes bs => .ok (.bytes (bs.map fun b => if 97 ≤ b && b ≤ 122 then b - 32 else b))
  | v => .error (.noAttribute v.typeName "upper")

/-- The arguments that describe a route. -/
def argumentNames : List String :=
  ["path", "method", "summary", "headers", "query", "params", "body", "responses"]

/-- The arguments that have no default. -/
def neededNames : List String := ["path", "method", "summary"]

/-- Checks that the arguments are known and that none is missing. -/
def checkArguments (arguments : Fields) : Except Fault Unit := do
  for (key, _) in arguments do
    match key with
    | .str name => if !argumentNames.contains name then throw (.unexpectedArgument name)
    | _ => throw .keywordNotText
  let missing := neededNames.filter fun name => !OrderedMap.contains arguments (.str name)
  if !missing.isEmpty then throw (.missingArguments missing)

/-- The argument of a name, or null. -/
def argument (arguments : Fields) (name : String) : Value :=
  OrderedMap.getD arguments (.str name) .null

/-- A route from its description; the tags are those of its source. -/
def create (describe : Describe) (tags : Except Fault (List Value)) (arguments : Fields) :
    Except Fault Route := do
  checkArguments arguments
  let path := argument arguments "path"
  let method := argument arguments "method"
  let summary := argument arguments "summary"
  if !path.truthy || !method.truthy || !summary.truthy then throw .incompleteRoute
  let method ← lowerValue method
  let names ← (← tags).mapM fun tag => tag.getField "name"
  let body ← bodyOf (argument arguments "body")
  let responses ← responsesOf describe (argument arguments "responses")
  return { path, method, summary, tags := names, headers := argument arguments "headers"
           query := argument arguments "query", params := argument arguments "params"
           body, responses }

/-- A route as a value. -/
def fields (r : Route) : List (String × Value) :=
  [ ("path", r.path), ("method", r.method), ("summary", r.summary), ("tags", .list r.tags),
    ("headers", r.headers), ("query", r.query), ("params", r.params),
    ("body", (r.body.map RequestBody.toValue).getD .null),
    ("responses", .ofFields (r.responses.map fun e => (e.1, e.2.toValue))) ]

end Route

end WireShape
