import WireShape.Container
import WireShape.Request
import WireShape.Route

/-!
# Guards

A guard checks requests against the schemas of a route before anything else sees them: first the
query, then the body, the headers and the path parameters. The first part that does not fit decides
the answer.

* `Guard.make`: the guard of a route.
* `Guard.check`: the verdict on a request.
* `Guard.protect`: a view behind a guard.
-/

namespace WireShape

open Value (Fields)

/-- The parts of a request that are checked. -/
inductive RequestPart
  | query
  | body
  | headers
  | params
deriving DecidableEq, Repr

namespace RequestPart

def name : RequestPart → String
  | query => "query"
  | body => "body"
  | headers => "headers"
  | params => "params"

/-- The parts in the order in which they are checked. -/
def all : List RequestPart := [query, body, headers, params]

/-- Whether keys without a description pass; a request carries headers of all kinds. -/
def allowsUnknown : RequestPart → Bool
  | headers => true
  | _ => false

end RequestPart

structure Guard where
  query : Option Container
  headers : Option Container
  params : Option Container
  /-- The schemas of the body by media type. -/
  bodies : OrderedMap Atom Container

/-- What becomes of a request. -/
inductive Verdict
  /-- The request goes on with the data of its parts. -/
  | accepted (validated : Fields)
  /-- The request is answered with a status, its identifier and a message. -/
  | rejected (status : Nat) (identifier : Value) (message : String)

namespace Guard

/-! ## Making a guard -/

/-- A step that may fail; its log stays. -/
abbrev Making := ExceptT Fault (StateM (Array LogEntry))

def lift {α : Type} (r : Except Fault α) : Making α := fun log => (r, log)

def compile (h : Heap) (v : Value) (part : RequestPart) : Making Container := fun log =>
  let (outcome, more) := Container.compile h v part.allowsUnknown
  (outcome, log ++ more)

/-- The container of a part; none if the route does not describe it. -/
def compilePart (h : Heap) (route : Route) (part : RequestPart) : Making (Option Container) := do
  match route.container part.name with
  | .null => return none
  | v => return some (← compile h v part)

/-- The containers of the body by media type. -/
def compileBodies (h : Heap) (body : RequestBody) : Making (OrderedMap Atom Container) := do
  (← lift body.content.entries).mapM fun (type, media) => do
    match media with
    | .mediaType schema _ => return (type, ← compile h schema .body)
    | v => throw (.noAttribute v.typeName "schema")

def makeWith (h : Heap) (route : Route) : Making Guard := do
  let query ← compilePart h route .query
  let headers ← compilePart h route .headers
  let params ← compilePart h route .params
  let bodies ← match route.body with
    | some body => compileBodies h body
    | none => pure []
  return { query, headers, params, bodies }

/-- The guard of a route, with the log of the work. -/
def make (h : Heap) (route : Route) : Except Fault Guard × Array LogEntry := makeWith h route #[]

/-! ## Data of a request -/

/-- The value of a key of the query: all values where a list is described, else the first one. -/
def queryValue (c : Container) (described : Value) (r : Request) (key : String) :
    Except Fault Value := do
  let schema ← c.resolve ((← described.get (.str key)).getD (.ofEntries []))
  let values := r.queryValues key
  match ← schema.getField "type" with
  | .str "array" => return .list (values.map .str)
  | _ => return .str (values.headD "")

def queryData (c : Container) (r : Request) : Except Fault Value := do
  let described ← c.properties
  return .ofEntries (← r.queryKeys.mapM fun key => do
    return (.str key, ← queryValue c described r key))

/-- The header that a described key names, if the request has it. -/
def headerEntry (r : Request) (key : Value) : Option (Atom × Value) :=
  match key with
  | .str name => (r.header? name).map fun value => (.str name, .str value)
  | _ => none

/-- The headers that are described. -/
def headerData (c : Container) (r : Request) : Except Fault Value := do
  let keys ← (← c.properties).elements
  return .ofEntries (OrderedMap.ofEntries (keys.filterMap (headerEntry r)))

/-- The data of a part of a request. -/
def dataOf (c : Container) (r : Request) : RequestPart → Except Fault Value
  | .query => queryData c r
  | .headers => headerData c r
  | .params => do return .ofEntries (← (r.pathArguments.orElse (.ofEntries [])).toEntries)
  | .body => .ok r.bodyData

/-! ## Checking -/

/-- What the check of one part leads to. -/
inductive Finding
  /-- The route does not describe the part. -/
  | undescribed
  | valid (data : Value)
  | refused (status : Nat) (message : String)

/-- Data that do not fit their schema. -/
def unfit : Nat := 422

/-- A body of a type that is not described. -/
def unsupported : Nat := 415

/-- The data of a part as they are checked: coerced if they are a mapping. -/
def takenData (c : Container) (r : Request) (part : RequestPart) : Except Fault Value := do
  let data ← dataOf c r part
  if data.isMap then c.coerce data else return data

/-- The data of a part, checked; an empty message is none. -/
def examine (c : Container) (r : Request) (part : RequestPart) : Except Fault Finding := do
  let data ← takenData c r part
  match ← c.error data with
  | some message => if message.isEmpty then return .valid data else return .refused unfit message
  | none => return .valid data

/-- The message about a body of a type that is not described. -/
def unsupportedMessage (type : String) : String :=
  "Unsupported content type: " ++ (if type.isEmpty then "none" else type)

def checkPart (g : Guard) (r : Request) (part : RequestPart) : Except Fault Finding :=
  let described : Option Container → Except Fault Finding
    | some c => examine c r part
    | none => .ok .undescribed
  match part with
  | .query => described g.query
  | .headers => described g.headers
  | .params => described g.params
  | .body =>
    if g.bodies.isEmpty then .ok .undescribed
    else
      match OrderedMap.get? g.bodies (.str r.mediaType) with
      | some c => examine c r part
      | none => .ok (.refused unsupported (unsupportedMessage r.mediaType))

/-- The note about a rejected request. -/
def rejection (r : Request) (status : Nat) (message : String) : LogEntry :=
  ⟨.debug, "Rejected " ++ Text.upper r.method ++ " " ++ r.shownPath ++ " (" ++ toString status ++
    "): " ++ message⟩

/-- Checks parts one after another, given the data of those before. -/
def checkParts (g : Guard) (r : Request) (validated : Fields) :
    List RequestPart → Except Fault Verdict
  | [] => .ok (.accepted validated)
  | part :: rest => do
    match ← g.checkPart r part with
    | .undescribed => checkParts g r validated rest
    | .valid data => checkParts g r (validated.set part.name data) rest
    | .refused status message => return .rejected status r.identifier message

/-- The verdict on a request, with what is noted. -/
def check (g : Guard) (r : Request) : Except Fault Verdict × Array LogEntry :=
  let verdict := g.checkParts r [] RequestPart.all
  match verdict with
  | .ok (.rejected status _ message) => (verdict, #[rejection r status message])
  | _ => (verdict, #[])

end Guard

/-! ## Views -/

/-- What stands beside a request while it is worked on. -/
structure RequestScope where
  /-- The data that a guard has let through. -/
  validated : Option Fields := none
  log : Array LogEntry := #[]

/-- What answers requests, with its arguments given; it sees what stands beside the request. -/
abbrev View (α : Type) := ExceptT Fault (StateM RequestScope) α

/-- What a request is answered with. -/
inductive Handling (α : Type)
  /-- The answer of the view. -/
  | handled (answer : α)
  /-- A status, the identifier of the request and a message. -/
  | rejected (status : Nat) (identifier : Value) (message : String)

/-- A view behind a guard: it runs with the data of the request that the guard has accepted. -/
def Guard.protect {α : Type} (g : Guard) (view : View α) (r : Request) : View (Handling α) :=
  fun scope =>
    let (verdict, notes) := g.check r
    let noted := { scope with log := scope.log ++ notes }
    match verdict with
    | .error fault => (.error fault, noted)
    | .ok (.rejected status identifier message) =>
      (.ok (.rejected status identifier message), noted)
    | .ok (.accepted validated) =>
      let (outcome, after) := view { noted with validated := some validated }
      (outcome.map .handled, after)

end WireShape
