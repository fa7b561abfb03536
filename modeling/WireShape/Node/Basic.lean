import WireShape.Value.Access
import WireShape.Value.Display

/-!
# Schema nodes

A `Node` describes the values of one field: its kind, an ordered list of rules, flags, allowed and
denied values, and the schemas of its parts. Nodes live in a `Heap` and are known by their identity
there, so they can be shared and, when a heap is made by hand, even contain themselves. A plain
mapping stands for an object node that nothing else refers to; such a node is kept in place.

* `Schema`: a position that holds a schema: a node of the heap or a plain object of schemas.
* `Schema.ofValue`: the schema that a value stands for.
* `Heap.view`: the node at a position.
* `Heap.describe`: how a node is shown in text.
-/

namespace WireShape

/-- A position that holds a schema. -/
inductive Schema
  | node (id : NodeId)
  | object (fields : List (Atom × Schema))
deriving Inhabited

namespace Schema

mutual

/-- The schema that a value stands for: a node, or a mapping whose values stand for schemas. -/
def ofValue : Value → Except Fault Schema
  | .node id => .ok (.node id)
  | .null => .error .noSchema
  | .map es _ => do return .object (← ofEntries es)
  | v => .error (.notASchema v.shortTypeName)

def ofEntries : List (Atom × Value) → Except Fault (List (Atom × Schema))
  | [] => .ok []
  | (k, v) :: es => do return (k, ← ofValue v) :: (← ofEntries es)

end

/-- A schema that may be left out. -/
def ofValue? (v : Value) : Except Fault (Option Schema) :=
  if v.isNull then .ok none else do return some (← ofValue v)

end Schema

/-! ## Rules -/

inductive Sign
  | positive
  | negative
deriving DecidableEq, Repr

inductive LetterCase
  | lower
  | upper
deriving DecidableEq, Repr

inductive Rule
  | min (limit : Value)
  | max (limit : Value)
  | length (limit : Value)
  | precision (limit : Value)
  | integer
  | sign (sign : Sign)
  | alphanum
  | token
  | email
  | isoDate
  | guid
  | pattern (regex : Value)
  | case (direction : LetterCase)
  | unique
deriving Inhabited

namespace Rule

/-- The name of a rule; a node has at most one rule of a name. -/
def name : Rule → String
  | min _ => "min"
  | max _ => "max"
  | length _ => "length"
  | precision _ => "precision"
  | integer => "integer"
  | sign _ => "sign"
  | alphanum => "alphanum"
  | token => "token"
  | email => "email"
  | isoDate => "isoDate"
  | guid => "guid"
  | pattern _ => "pattern"
  | case _ => "case"
  | unique => "unique"

/-- The limit of a rule that has one. -/
def limit? : Rule → Option Value
  | min v | max v | length v | precision v => some v
  | _ => none

/-- The arguments of a rule, by name. -/
def arguments : Rule → List (String × Value)
  | min v | max v | length v | precision v => [("limit", v)]
  | sign .positive => [("sign", .str "positive")]
  | sign .negative => [("sign", .str "negative")]
  | pattern v => [("regex", v)]
  | case .lower => [("direction", .str "lower")]
  | case .upper => [("direction", .str "upper")]
  | _ => []

end Rule

/-! ## Nodes -/

/-- One case of a switch. -/
structure SwitchCase where
  expected : Value := .null
  consequent : Option Schema := none
  alternative : Option Schema := none
deriving Inhabited

/-- A choice between schemas that depends on a sibling field. -/
structure Conditional where
  condition : Value := .null
  expected : Value := .null
  consequent : Option Schema := none
  alternative : Option Schema := none
  cases : List SwitchCase := []
deriving Inhabited

/-- The schemas to choose from: the two outcomes, then those of each case. -/
def Conditional.branches (c : Conditional) : List Schema :=
  c.consequent.toList ++ c.alternative.toList ++
    c.cases.flatMap fun s => s.consequent.toList ++ s.alternative.toList

/-- An entry in the list of alternatives. -/
inductive Choice
  | schema (s : Schema)
  | conditional (c : Conditional)
deriving Inhabited

def Choice.branches : Choice → List Schema
  | schema s => [s]
  | conditional c => c.branches

structure Node where
  kind : String
  rules : List Rule := []
  flags : OrderedMap String Value := []
  valids : List Value := []
  invalids : List Value := []
  children : List (Atom × Schema) := []
  keyPattern : Option (Value × Schema) := none
  items : List Schema := []
  choices : List Choice := []
  whens : List Conditional := []
  examples : List Value := []
  metadata : OrderedMap Atom Value := []
deriving Inhabited

namespace Node

/-- The value of a flag, or null. -/
def flag (n : Node) (name : String) : Value := n.flags.getD name .null

/-- The metadata under a text key, or null. -/
def metaValue (n : Node) (name : String) : Value := n.metadata.getD (.str name) .null

/-- Whether the field is required, optional or forbidden. -/
def presence (n : Node) : Value := n.flags.getD "presence" (.str "optional")

def isForbidden (n : Node) : Bool := n.presence.same (.str "forbidden")

def isRequired (n : Node) : Bool := n.presence.same (.str "required")

def rule? (n : Node) (name : String) : Option Rule := n.rules.find? fun r => r.name == name

def hasRule (n : Node) (name : String) : Bool := (n.rule? name).isSome

/-- The text by which a node is shown: its kind and, if it has one, its label. -/
def describe (n : Node) : Except Fault String :=
  let label := n.flag "label"
  if label.truthy then
    match label with
    | .str s => .ok ("<SchemaNode " ++ n.kind ++ " " ++ s ++ ">")
    | v => .error (.badTextSum v.typeName)
  else .ok ("<SchemaNode " ++ n.kind ++ ">")

end Node

/-! ## The heap -/

/-- The nodes, each at the place that is its identity. -/
structure Heap where
  nodes : Array Node := #[]

namespace Heap

/-- The node of an identity. -/
def get (h : Heap) (id : NodeId) : Node := h.nodes.getD id default

/-- Adds a node and answers its identity. -/
def add (h : Heap) (n : Node) : NodeId × Heap := (h.nodes.size, ⟨h.nodes.push n⟩)

/-- Replaces the node of an identity. -/
def set (h : Heap) (id : NodeId) (n : Node) : Heap := ⟨h.nodes.setIfInBounds id n⟩

/-- The node at a position; a plain object is an object node with nothing but children. -/
def view (h : Heap) : Schema → Node
  | .node id => h.get id
  | .object fields => { kind := "object", children := fields }

def describe (h : Heap) : Describe := fun id => (h.get id).describe

end Heap

end WireShape
