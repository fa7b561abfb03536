import WireShape.Node.Basic

/-!
# Building schema nodes

Each method makes a new node from a given one. Most methods are for some kinds only and refuse the
others.

* `Node.string`, …, `Node.object`: the constructors.
* `Node.required`, …, `Node.when`: the methods.
* `addRule`: a rule replaces the one of its name and goes to the end.
* `Node.Constructor`, `Node.Method`, `Node.build`: a constructor and the methods called after it.
-/

namespace WireShape

/-! ## Outcomes of a choice -/

/-- A case of a switch, from a mapping with keys `is`, `then` and `otherwise`. -/
def SwitchCase.ofValue (v : Value) : Except Fault SwitchCase := do
  let expected ← v.getField "is"
  let consequent ← Schema.ofValue? (← v.getField "then")
  let alternative ← Schema.ofValue? (← v.getField "otherwise")
  return { expected, consequent, alternative }

/-- What a choice is made from, before its parts are read as schemas. -/
structure Conditional.Parts where
  condition : Value := .null
  expected : Value := .null
  consequent : Value := .null
  alternative : Value := .null
  cases : Value := .list []

def Conditional.ofParts (p : Conditional.Parts) : Except Fault Conditional := do
  let cases ← (← p.cases.elements).mapM SwitchCase.ofValue
  let consequent ← Schema.ofValue? p.consequent
  let alternative ← Schema.ofValue? p.alternative
  return { condition := p.condition, expected := p.expected, consequent, alternative, cases }

namespace Node

/-! ## General steps -/

/-- Arguments given by name, as the entries of a mapping. -/
def namedEntries (named : List (String × Value)) : OrderedMap Atom Value :=
  named.map fun e => (.str e.1, e.2)

def setFlag (n : Node) (name : String) (v : Value) : Node :=
  { n with flags := n.flags.insert name v }

/-- Adds a rule at the end, in place of the one of its name. -/
def addRule (n : Node) (r : Rule) : Node :=
  { n with rules := n.rules.filter (fun q => q.name != r.name) ++ [r] }

/-- Refuses kinds for which the method is not meant. -/
def expect (n : Node) (method : String) (kinds : List String) : Except Fault Unit :=
  if kinds.contains n.kind then .ok () else .error (.methodUnavailable method n.kind)

def ruleFor (n : Node) (method : String) (kinds : List String) (r : Rule) : Except Fault Node := do
  n.expect method kinds
  return n.addRule r

/-! ## Presence and documentation -/

def required (n : Node) : Node := n.setFlag "presence" (.str "required")
def optional (n : Node) : Node := n.setFlag "presence" (.str "optional")
def forbidden (n : Node) : Node := n.setFlag "presence" (.str "forbidden")
def label (n : Node) (name : Value) : Node := n.setFlag "label" name
def description (n : Node) (text : Value) : Node := n.setFlag "description" text
def default (n : Node) (v : Value) : Node := n.setFlag "default" v
def sample (n : Node) (vs : List Value) : Node := { n with examples := n.examples ++ vs }

/-- Writes the entries of a mapping over the metadata, then those given by name. -/
def addMeta (n : Node) (mapping : Value) (named : List (String × Value) := []) :
    Except Fault Node := do
  let entries ← if mapping.truthy then mapping.toEntries else pure []
  return { n with metadata := (n.metadata.update entries).update (namedEntries named) }

/-- Writes the entries of a mapping over the flags. -/
def prefs (n : Node) (mapping : Value) : Except Fault Node := do
  let entries ← (← mapping.spread).mapM fun
    | (.str name, v) => .ok (name, v)
    | _ => .error .keywordNotText
  return { n with flags := n.flags.update entries }

/-! ## Allowed and denied values -/

/-- Allows values, which are no longer denied. -/
def allow (n : Node) (vs : List Value) : Node :=
  { n with
    valids := n.valids ++ vs
    invalids := n.invalids.filter fun v => !v.isIn vs }

/-- Allows these values only. -/
def valid (n : Node) (vs : List Value) : Node := (n.allow vs).setFlag "only" (.bool true)

/-- Denies values, which are no longer allowed. -/
def invalid (n : Node) (vs : List Value) : Node :=
  { n with
    invalids := n.invalids ++ vs
    valids := n.valids.filter fun v => !v.isIn vs }

/-! ## Sizes -/

def min (n : Node) (limit : Value) : Except Fault Node :=
  n.ruleFor "min" ["string", "number", "binary", "array"] (.min limit)

def max (n : Node) (limit : Value) : Except Fault Node :=
  n.ruleFor "max" ["string", "number", "binary", "array"] (.max limit)

def length (n : Node) (limit : Value) : Except Fault Node :=
  n.ruleFor "length" ["string", "binary", "array"] (.length limit)

/-! ## Numbers -/

def integer (n : Node) : Except Fault Node := n.ruleFor "integer" ["number"] .integer
def precision (n : Node) (limit : Value) : Except Fault Node :=
  n.ruleFor "precision" ["number"] (.precision limit)
def positive (n : Node) : Except Fault Node := n.ruleFor "positive" ["number"] (.sign .positive)
def negative (n : Node) : Except Fault Node := n.ruleFor "negative" ["number"] (.sign .negative)

/-! ## Text -/

def alphanum (n : Node) : Except Fault Node := n.ruleFor "alphanum" ["string"] .alphanum
def token (n : Node) : Except Fault Node := n.ruleFor "token" ["string"] .token
def email (n : Node) : Except Fault Node := n.ruleFor "email" ["string"] .email
def isoDate (n : Node) : Except Fault Node := n.ruleFor "iso_date" ["string"] .isoDate
def guid (n : Node) : Except Fault Node := n.ruleFor "guid" ["string"] .guid
def pattern (n : Node) (regex : Value) : Except Fault Node :=
  n.ruleFor "pattern" ["string"] (.pattern regex)
def lowercase (n : Node) : Except Fault Node := n.ruleFor "lowercase" ["string"] (.case .lower)
def uppercase (n : Node) : Except Fault Node := n.ruleFor "uppercase" ["string"] (.case .upper)

/-! ## Binary data and dates -/

def encoding (n : Node) (name : Value) : Except Fault Node := do
  n.expect "encoding" ["binary"]
  return n.setFlag "encoding" name

def format (n : Node) (fmt : Value) : Except Fault Node := do
  n.expect "format" ["date"]
  return n.setFlag "format" fmt

/-! ## Objects -/

/-- Adds the entries of a mapping as children, and those given by name, which go over the others; a
key that is already there keeps its place. -/
def keys (n : Node) (mapping : Value) (named : List (String × Value) := []) :
    Except Fault Node := do
  n.expect "keys" ["object"]
  let entries ← if mapping.truthy then mapping.spread else pure []
  let children ← Schema.ofEntries (entries.update (namedEntries named))
  return { n with children := (OrderedMap.ofEntries n.children).update children }

/-- The source of a compiled pattern, or the value itself. -/
def patternSource : Value → Value
  | .atom (.regex source) => .str source
  | v => v

/-- Gives the schema of all keys that match a pattern. -/
def patternKeys (n : Node) (regex schema : Value) : Except Fault Node := do
  n.expect "pattern_keys" ["object"]
  return { n with keyPattern := some (patternSource regex, ← Schema.ofValue schema) }

def unknown (n : Node) (allow : Value) : Except Fault Node := do
  n.expect "unknown" ["object"]
  return n.setFlag "unknown" allow

/-! ## Arrays and alternatives -/

def itemsOf (n : Node) (schemas : List Value) : Except Fault Node := do
  n.expect "items_of" ["array"]
  return { n with items := n.items ++ (← schemas.mapM Schema.ofValue) }

def unique (n : Node) : Except Fault Node := n.ruleFor "unique" ["array"] .unique

def tryOf (n : Node) (schemas : List Value) : Except Fault Node := do
  n.expect "try_" ["alternatives"]
  return { n with choices := n.choices ++ (← schemas.mapM Schema.ofValue).map .schema }

def conditional (n : Node) (parts : Conditional.Parts) : Except Fault Node := do
  n.expect "conditional" ["alternatives"]
  return { n with choices := n.choices ++ [.conditional (← Conditional.ofParts parts)] }

/-- Whether any, exactly one or all of the alternatives have to fit. -/
def matchMode (n : Node) (describe : Describe) (mode : Value) : Except Fault Node := do
  n.expect "match" ["alternatives"]
  if mode.isIn [.str "any", .str "one", .str "all"] then return n.setFlag "match" mode
  else throw (.badMatchMode (← mode.quoted describe))

def when (n : Node) (parts : Conditional.Parts) : Except Fault Node := do
  return { n with whens := n.whens ++ [← Conditional.ofParts parts] }

/-! ## Constructors -/

def ofKind (kind : String) : Node := { kind }

def string : Node := ofKind "string"
def number : Node := ofKind "number"
def boolean : Node := ofKind "boolean"
def date : Node := ofKind "date"
def binary : Node := ofKind "binary"
def any : Node := ofKind "any"

/-- An uploaded file. -/
def file : Node := { any with metadata := [(.str "swaggerType", .str "file")] }

def object (mapping : Value) (named : List (String × Value) := []) : Except Fault Node :=
  (ofKind "object").keys mapping named
def array (items : List Value) : Except Fault Node := (ofKind "array").itemsOf items
def alternatives (schemas : List Value) : Except Fault Node :=
  (ofKind "alternatives").tryOf schemas

/-! ## Chains of calls -/

/-- A call of a constructor. -/
inductive Constructor
  | ofKind (kind : String)
  | string
  | number
  | boolean
  | date
  | binary
  | any
  | file
  | object (mapping : Value) (named : List (String × Value))
  | array (items : List Value)
  | alternatives (schemas : List Value)

def Constructor.make : Constructor → Except Fault Node
  | ofKind kind => .ok (Node.ofKind kind)
  | string => .ok Node.string
  | number => .ok Node.number
  | boolean => .ok Node.boolean
  | date => .ok Node.date
  | binary => .ok Node.binary
  | any => .ok Node.any
  | file => .ok Node.file
  | object mapping named => Node.object mapping named
  | array items => Node.array items
  | alternatives schemas => Node.alternatives schemas

/-- A call of a method. -/
inductive Method
  | required
  | optional
  | forbidden
  | label (name : Value)
  | description (text : Value)
  | default (v : Value)
  | sample (vs : List Value)
  | addMeta (mapping : Value) (named : List (String × Value))
  | prefs (mapping : Value)
  | allow (vs : List Value)
  | valid (vs : List Value)
  | invalid (vs : List Value)
  | min (limit : Value)
  | max (limit : Value)
  | length (limit : Value)
  | integer
  | precision (limit : Value)
  | positive
  | negative
  | alphanum
  | token
  | email
  | isoDate
  | guid
  | pattern (regex : Value)
  | lowercase
  | uppercase
  | encoding (name : Value)
  | format (fmt : Value)
  | keys (mapping : Value) (named : List (String × Value))
  | patternKeys (regex schema : Value)
  | unknown (v : Value)
  | itemsOf (schemas : List Value)
  | unique
  | tryOf (schemas : List Value)
  | conditional (parts : Conditional.Parts)
  | matchMode (mode : Value)
  | when (parts : Conditional.Parts)

/-- The node that a method makes of a node. -/
def Method.apply (describe : Describe) (n : Node) : Method → Except Fault Node
  | required => .ok n.required
  | optional => .ok n.optional
  | forbidden => .ok n.forbidden
  | label name => .ok (n.label name)
  | description text => .ok (n.description text)
  | default v => .ok (n.default v)
  | sample vs => .ok (n.sample vs)
  | addMeta mapping named => n.addMeta mapping named
  | prefs mapping => n.prefs mapping
  | allow vs => .ok (n.allow vs)
  | valid vs => .ok (n.valid vs)
  | invalid vs => .ok (n.invalid vs)
  | min limit => n.min limit
  | max limit => n.max limit
  | length limit => n.length limit
  | integer => n.integer
  | precision limit => n.precision limit
  | positive => n.positive
  | negative => n.negative
  | alphanum => n.alphanum
  | token => n.token
  | email => n.email
  | isoDate => n.isoDate
  | guid => n.guid
  | pattern regex => n.pattern regex
  | lowercase => n.lowercase
  | uppercase => n.uppercase
  | encoding name => n.encoding name
  | format fmt => n.format fmt
  | keys mapping named => n.keys mapping named
  | patternKeys regex schema => n.patternKeys regex schema
  | unknown v => n.unknown v
  | itemsOf schemas => n.itemsOf schemas
  | unique => n.unique
  | tryOf schemas => n.tryOf schemas
  | conditional parts => n.conditional parts
  | matchMode mode => n.matchMode describe mode
  | when parts => n.when parts

/-- The node that a constructor makes and methods change, one after the other. -/
def build (describe : Describe) (start : Constructor) (methods : List Method) :
    Except Fault Node := do
  methods.foldlM (fun n m => m.apply describe n) (← start.make)

end Node

end WireShape
