import WireShape.Atom

/-!
# Values

A `Value` is what schemas carry and produce and what requests are checked as: an atom, a list or a
mapping that remembers the order of its entries. A mapping supplied from outside has an identity,
by which the same mapping used twice is known; it plays no part in equality. The last three forms
are the parts of a route that carry content.

* `Value.same`: equality of values (the order of entries does not count).
* `Value.typeName`, `Value.truthy`: what messages and conditions see of a value.
-/

namespace WireShape

inductive Value
  | atom (a : Atom)
  | list (items : List Value)
  | map (entries : List (Atom × Value)) (identity : Option Nat)
  | mediaType (schema examples : Value)
  | requestBody (content description required : Value)
  | response (description content : Value)
deriving Inhabited

namespace Value

@[match_pattern] abbrev null : Value := .atom .null
@[match_pattern] abbrev bool (b : Bool) : Value := .atom (.bool b)
@[match_pattern] abbrev int (i : Int) : Value := .atom (.int i)
@[match_pattern] abbrev float (x : Binary64) : Value := .atom (.float x)
@[match_pattern] abbrev str (s : String) : Value := .atom (.str s)
@[match_pattern] abbrev bytes (bs : List UInt8) : Value := .atom (.bytes bs)
@[match_pattern] abbrev ref (key : String) : Value := .atom (.ref key)
@[match_pattern] abbrev node (id : NodeId) : Value := .atom (.node id)

/-- A mapping that the library makes. -/
@[match_pattern] abbrev ofEntries (entries : OrderedMap Atom Value) : Value := .map entries none

/-- A mapping that the library makes, with text keys. -/
def ofFields (fields : List (String × Value)) : Value :=
  .map (fields.map fun e => (.str e.1, e.2)) none

def typeName : Value → String
  | atom a => a.typeName
  | list _ => "list"
  | map .. => "dict"
  | mediaType .. => "MediaType"
  | requestBody .. => "RequestBody"
  | response .. => "Response"

/-- The name of the type without what is before a dot. -/
def shortTypeName : Value → String
  | atom (.regex _) => "Pattern"
  | v => v.typeName

def isNull : Value → Bool
  | null => true
  | _ => false

theorem isNull_iff {v : Value} : v.isNull = true ↔ v = null := by
  constructor
  · intro h
    unfold isNull at h
    split at h
    · rfl
    · cases h
  · rintro rfl
    rfl

def isFalse : Value → Bool
  | bool false => true
  | _ => false

def isMap : Value → Bool
  | map .. => true
  | _ => false

/-- Whether a condition on the value holds: false of null, false, zero and all that is empty. -/
def truthy : Value → Bool
  | atom a => a.truthy
  | list xs => !xs.isEmpty
  | map es _ => !es.isEmpty
  | _ => true

/-- The value, or the other one if this one is not truthy. -/
def orElse (v other : Value) : Value := if v.truthy then v else other

/-- A number, not counting booleans. -/
def number? : Value → Option Number
  | int i => some (.int i)
  | float x => some (.float x)
  | _ => none

def isText : Value → Bool
  | str _ => true
  | _ => false

def isBool : Value → Bool
  | bool _ => true
  | _ => false

def isNumber (v : Value) : Bool := v.number?.isSome

/-- The entry of a mapping under a text key; none if the value is no mapping. -/
def field? (v : Value) (name : String) : Option Value :=
  match v with
  | map es _ => OrderedMap.get? es (.str name)
  | _ => none

/-- The entries of a mapping under construction. -/
abbrev Fields := OrderedMap Atom Value

/-- Writes a value under a text key. -/
def Fields.set (fields : Fields) (name : String) (v : Value) : Fields :=
  OrderedMap.insert fields (.str name) v

/-- Writes the entries of other fields one by one. -/
def Fields.merge (fields later : Fields) : Fields := OrderedMap.update fields later

/-- Removes a text key. -/
def Fields.remove (fields : Fields) (name : String) : Fields :=
  OrderedMap.erase fields (.str name)

/-! ## Equality -/

mutual

/-- Equality of values: atoms by `Atom.same`, lists element by element, mappings key by key. -/
def same : Value → Value → Bool
  | atom a, atom b => a.same b
  | list xs, list ys => sameItems xs ys
  | map es _, map fs _ => es.length == fs.length && sameEntries es fs
  | mediaType s e, mediaType t f => same s t && same e f
  | requestBody c d r, requestBody c' d' r' => same c c' && same d d' && same r r'
  | response d c, response d' c' => same d d' && same c c'
  | _, _ => false

def sameItems : List Value → List Value → Bool
  | [], [] => true
  | x :: xs, y :: ys => same x y && sameItems xs ys
  | _, _ => false

/-- Every entry has an equal one in the other mapping. -/
def sameEntries : List (Atom × Value) → List (Atom × Value) → Bool
  | [], _ => true
  | (k, v) :: es, fs =>
    (match OrderedMap.get? fs k with
      | some w => same v w
      | none => false) && sameEntries es fs

end

/-- Whether an equal value is in the list. -/
def isIn (v : Value) (xs : List Value) : Bool := xs.any fun x => x.same v

end Value

end WireShape
