import WireShape.Route

/-!
# Route sources

A source describes one area of an API: its tag, its reusable schemas and parameters, and its routes.
What a source does not give cannot be asked for.

* `Source`: what a source gives.
* `Source.paths`: the routes by path and method, in the order in which they are listed.
-/

namespace WireShape

open Value (Fields)

structure Source where
  /-- The name by which the source is known. -/
  name : String := "Source"
  tag : Option Value := none
  schemas : Option Value := none
  parameters : Option Value := none
  /-- The descriptions of the routes. -/
  routes : Option (List Value) := none

/-- Routes by path and method. -/
abbrev Paths := OrderedMap Atom (OrderedMap Atom Route)

namespace Source

def getTag (s : Source) : Except Fault Value :=
  match s.tag with
  | some v => .ok v
  | none => .error (.notProvided .tag)

def getSchemas (s : Source) : Except Fault Value :=
  match s.schemas with
  | some v => .ok v
  | none => .error (.notProvided .schemas)

def getParameters (s : Source) : Except Fault Value :=
  match s.parameters with
  | some v => .ok v
  | none => .error (.notProvided .parameters)

/-- The tag as a list of one mapping, which must have a name. -/
def tags (s : Source) : Except Fault (List Value) := do
  match ← s.getTag with
  | .map es _ =>
    if (OrderedMap.getD es (.str "name") .null).truthy then return [.ofEntries es]
    else throw (.namelessTag s.name)
  | _ => throw (.namelessTag s.name)

/-- The routes, made anew from their descriptions. -/
def getRoutes (s : Source) (describe : Describe) : Except Fault (List Route) := do
  match s.routes with
  | some descriptions => descriptions.mapM fun v => do Route.create describe s.tags (← v.spread)
  | none => throw (.notProvided .routes)

/-- Adds a route under its path and method, which must be new. -/
def addRoute (describe : Describe) (paths : Paths) (r : Route) : Except Fault Paths := do
  let path ← r.path.asKey
  let methods := OrderedMap.getD paths path []
  let method ← r.method.asKey
  if OrderedMap.contains methods method then
    throw (.duplicateRoute (← (← Route.upperValue r.method).display describe)
      (← r.path.display describe))
  return OrderedMap.insert paths path (OrderedMap.insert methods method r)

/-- The routes by path and method, in the order in which they are listed. -/
def paths (s : Source) (describe : Describe) : Except Fault Paths := do
  (← s.getRoutes describe).foldlM (addRoute describe) []

end Source

end WireShape
