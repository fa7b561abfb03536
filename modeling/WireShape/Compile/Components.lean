import WireShape.Node.Basic

/-!
# Named components

Definitions that schemas refer to, by bucket and name.

* `Components`: the definitions.
* `reference`: the schema that refers to a definition.
* `referenceName?`: the name that a bare reference into a bucket carries.
-/

namespace WireShape

/-- Definitions by bucket and name. -/
abbrev Components := OrderedMap Atom (OrderedMap Atom Value)

namespace Components

/-- The definitions of a bucket. -/
def bucket (c : Components) (bucket : Atom) : OrderedMap Atom Value := OrderedMap.getD c bucket []

def contains (c : Components) (bucket name : Atom) : Bool :=
  OrderedMap.contains (c.bucket bucket) name

/-- Writes one definition. -/
def define (c : Components) (bucket name : Atom) (schema : Value) : Components :=
  OrderedMap.insert c bucket (OrderedMap.insert (c.bucket bucket) name schema)

/-- The definitions as a value. -/
def toValue (c : Components) : Value :=
  .ofEntries (OrderedMap.mapValues (fun entries => .ofEntries entries) c)

/-- Definitions given as a mapping of mappings. -/
def ofValue (v : Value) : Except Fault Components := do
  (← v.entries).mapM fun (bucket, entries) => do return (bucket, ← entries.toEntries)

end Components

/-- Where the definitions of a bucket are found. -/
def bucketPath (bucket : String) : String := "#/components/" ++ bucket ++ "/"

/-- The schema that refers to a definition. -/
def reference (bucket name : String) : Value :=
  .ofFields [("$ref", .str (bucketPath bucket ++ name))]

/-- The schema that refers to a definition whose bucket and name need not be text. -/
def referenceTo (describe : Describe) (bucket name : Atom) : Except Fault Value := do
  return reference (← bucket.display describe) (← name.display describe)

/-- The name that a bare reference into a bucket carries; none for any other schema. -/
def referenceName? (schema : Value) (bucket : String) : Except Fault (Option Value) :=
  match schema with
  | .map [(key, target)] _ =>
    if key == .str "$ref" then do
      if ← target.startsWith (.str (bucketPath bucket)) then
        match target with
        | .str s => return some (.str (String.ofList (s.toList.drop (bucketPath bucket).length)))
        | _ => return none
      else return none
    else .ok none
  | _ => .ok none

end WireShape
