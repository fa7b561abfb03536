import WireShape.Node.Basic
import WireShape.Source
import WireShape.Text.Cut
import WireShape.Text.Quoted

/-!
# The catalogue of sources

Sources are named as `module:attribute`. No module of the catalogue holds others.

* `Catalogue.find`: the source of a name.
-/

namespace WireShape

/-- A source with the schema nodes that it uses. -/
structure Listing where
  heap : Heap
  source : Source

/-- Sources by module and attribute. -/
abbrev Catalogue := OrderedMap String (OrderedMap String Listing)

namespace Catalogue

/-- The starts of a dotted name, the shortest first, the name itself last. -/
def stages (name : List Char) : List (List Char) :=
  let parts := Text.cutAt '.' name
  (List.range parts.length).map fun i => ['.'].intercalate (parts.take (i + 1))

/-- The module of a name: of a dotted one, what is before the dot has to be there first. -/
def findModule (c : Catalogue) (name : String) : Except Fault (OrderedMap String Listing) :=
  if name.startsWith "." then .error (.relativeModule (Text.quote name))
  else
    match c.get? name, stages name.toList with
    | some members, _ => .ok members
    | none, outer :: inner :: _ =>
      let outer := String.ofList outer
      if c.contains outer then
        .error (.notPackage (Text.quote (String.ofList inner)) (Text.quote outer))
      else .error (.noModule (Text.quote outer))
    | none, _ => .error (.noModule (Text.quote name))

/-- The source of a name. -/
def find (c : Catalogue) (spec : String) : Except Fault Listing := do
  let moduleName := String.ofList (spec.toList.takeWhile (· != ':'))
  let member := String.ofList ((spec.toList.dropWhile (· != ':')).drop 1)
  if moduleName.isEmpty || member.isEmpty then throw (.badSource (Text.quote spec))
  match OrderedMap.get? (← c.findModule moduleName) member with
  | some listing => return listing
  | none => throw (.noModuleAttribute moduleName member)

end Catalogue

end WireShape
