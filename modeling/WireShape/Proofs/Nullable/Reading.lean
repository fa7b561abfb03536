import WireShape.Proofs.NullTypes
import WireShape.Proofs.Validation.Schemas

/-!
# Published schemas read by themselves

A published schema can be read without being brought into its checked form. Null satisfies what is
marked as nullable. Any other datum must satisfy each keyword of the schema, and the schemas in the
value of a keyword are read in the same way. The reading is recursive on the schema and can be
computed. What lists of distinct elements are is given to it.

* `OpenApi.satisfies`: whether a datum satisfies a published schema.
* `OpenApi.satisfies_iff`: it does so by the mark or by all keywords.
-/

namespace WireShape

open Value (Fields)
open NullTypes (Tidy)

namespace OpenApi

/-- The value of a keyword with the readings of the schemas in it. -/
structure Reading where
  value : Value
  /-- The reading of the value as a schema. -/
  schema : Value → Bool
  /-- The readings of the members of the value. -/
  members : List (Value → Bool)
  /-- The keys of the value with the readings of what stands under them. -/
  fields : List (Atom × (Value → Bool))

/-! ## Keywords -/

/-- Whether a datum is of the named type. -/
def isOfType (name x : Value) : Bool :=
  match name with
  | .str s => (Assertion.typeTest? s).any fun test => test x
  | _ => false

/-- Whether a datum is among the listed ones. -/
def isListed (choices x : Value) : Bool :=
  match choices with
  | .list xs => xs.any fun w => w.sameStrict x
  | _ => false

/-- Whether a number is not on the refused side of its limit. -/
def keepsLimit (refused : Ordering) (limit x : Value) : Bool :=
  match limit, x.number? with
  | .int i, some a => a.compare? (.int i) != some refused
  | _, _ => true

/-- Whether a size, if the datum has one, is as its limit asks. -/
def keepsSize (keeps : Int → Int → Bool) (limit : Value) (size? : Option Nat) : Bool :=
  match limit, size? with
  | .int i, some n => keeps i n
  | _, _ => true

/-- Whether a text has a part that fits the pattern. -/
def fitsPattern (source x : Value) : Bool :=
  match Assertion.patternOf source, x with
  | .ok p, .str s => p.found s
  | _, _ => true

/-- Whether a text is of the named format; formats without a test say nothing. -/
def fitsFormat (name x : Value) : Bool :=
  match name, x with
  | .str n, .str s => (Format.check? n).all fun test => test s
  | _, _ => true

/-- Whether a mapping has all the listed keys. -/
def hasKeys (keys x : Value) : Bool :=
  match keys, x with
  | .list ks, .map es _ => ks.all fun
    | .atom k => OrderedMap.contains es k
    | _ => false
  | _, _ => true

/-- The keys that a schema describes. -/
def described (fields : Fields) : Fields :=
  match OrderedMap.get? fields (.str "properties") with
  | some (.map props _) => props
  | _ => []

/-- Whether a datum satisfies a keyword of a schema. -/
def meets (distinct : List Value → Bool) (fields : Fields) (kw : Keyword) (r : Reading)
    (x : Value) : Bool :=
  match kw with
  | .type => isOfType r.value x
  | .enum => isListed r.value x
  | .not => !r.schema x
  | .minimum => keepsLimit .lt r.value x
  | .maximum => keepsLimit .gt r.value x
  | .minLength => keepsSize (fun i n => i ≤ n) r.value (Assertion.textSize? x)
  | .maxLength => keepsSize (fun i n => n ≤ i) r.value (Assertion.textSize? x)
  | .minItems => keepsSize (fun i n => i ≤ n) r.value (Assertion.listSize? x)
  | .maxItems => keepsSize (fun i n => n ≤ i) r.value (Assertion.listSize? x)
  | .pattern => fitsPattern r.value x
  | .format => fitsFormat r.value x
  | .required => hasKeys r.value x
  | .uniqueItems =>
    match x with
    | .list xs => !r.value.truthy || distinct xs
    | _ => true
  | .properties =>
    match x with
    | .map es _ => r.fields.all fun e => (OrderedMap.get? es e.1).all e.2
    | _ => true
  | .additionalProperties =>
    match x with
    | .map es _ => es.all fun e => OrderedMap.contains (described fields) e.1 || r.schema e.2
    | _ => true
  | .items =>
    match x with
    | .list xs => xs.all r.schema
    | _ => true
  | .oneOf => r.members.countP (fun read => read x) == 1
  | _ => true

/-- Whether a datum satisfies an entry of a schema; only the names of keywords count. -/
def meetsEntry (distinct : List Value → Bool) (fields : Fields) (key : Atom) (r : Reading)
    (x : Value) : Bool :=
  match key with
  | .str name => (Keyword.ofName? name).all fun kw => meets distinct fields kw r x
  | _ => true

/-! ## Schemas -/

/-- Whether a schema is marked as nullable. -/
def isNullable (fields : Fields) : Bool :=
  match OrderedMap.get? fields (.str "nullable") with
  | some (.bool b) => b
  | _ => false

variable (distinct : List Value → Bool)

mutual

/-- Whether a datum satisfies a schema. -/
def satisfies : Value → Value → Bool
  | .bool b, _ => b
  | .map es _, x =>
    isNullable es && x.isNull || (readings es).all fun e => meetsEntry distinct es e.1 e.2 x
  | _, _ => false

/-- The entries of a schema with the readings of their values. -/
def readings : List (Atom × Value) → List (Atom × Reading)
  | [] => []
  | (k, v) :: es => (k, ⟨v, satisfies v, membersOf v, fieldsOf v⟩) :: readings es

/-- The readings of the members of a value. -/
def membersOf : Value → List (Value → Bool)
  | .list xs => listMembers xs
  | _ => []

def listMembers : List Value → List (Value → Bool)
  | [] => []
  | v :: vs => satisfies v :: listMembers vs

/-- The keys of a value with the readings of what stands under them. -/
def fieldsOf : Value → List (Atom × (Value → Bool))
  | .map es _ => mapFields es
  | _ => []

def mapFields : List (Atom × Value) → List (Atom × (Value → Bool))
  | [] => []
  | (k, v) :: es => (k, satisfies v) :: mapFields es

end

/-- The reading of a value. -/
def reading (v : Value) : Reading :=
  ⟨v, satisfies distinct v, membersOf distinct v, fieldsOf distinct v⟩

variable {distinct} {fields : Fields} {x : Value}

theorem readings_eq :
    readings distinct fields = fields.map fun e => (e.1, reading distinct e.2) := by
  induction fields with
  | nil => rfl
  | cons e fields ih =>
    rw [readings, ih]
    rfl

theorem membersOf_list {xs : List Value} :
    membersOf distinct (.list xs) = xs.map (satisfies distinct) := by
  rw [membersOf]
  induction xs with
  | nil => rfl
  | cons v xs ih => rw [listMembers, ih, List.map_cons]

theorem fieldsOf_map {identity : Option Nat} :
    fieldsOf distinct (.map fields identity) =
      fields.map fun e => (e.1, satisfies distinct e.2) := by
  rw [fieldsOf]
  induction fields with
  | nil => rfl
  | cons e fields ih =>
    rw [mapFields, ih]
    rfl

/-- A datum satisfies a schema if it is null and the schema is nullable, or if it satisfies all
keywords of the schema. -/
theorem satisfies_iff {identity : Option Nat} (h : Tidy fields) :
    satisfies distinct (.map fields identity) x = true ↔
      (isNullable fields = true ∧ x = .null) ∨ ∀ (kw : Keyword) v,
        OrderedMap.get? fields (.str kw.name) = some v →
          meets distinct fields kw (reading distinct v) x = true := by
  have hentry : ∀ e ∈ fields, meetsEntry distinct fields e.1 (reading distinct e.2) x = true ↔
      ∀ kw : Keyword, e.1 = .str kw.name →
        meets distinct fields kw (reading distinct e.2) x = true := by
    intro e he
    obtain ⟨s, hs⟩ := h.text e he
    rw [hs, meetsEntry, Option.all_eq_true]
    constructor
    · rintro hall kw ⟨rfl⟩
      exact hall kw (Keyword.ofName?_name kw)
    · rintro hall kw hkw
      exact hall kw (congrArg Atom.str (Keyword.eq_name_of_ofName? hkw))
  rw [satisfies, Bool.or_eq_true, Bool.and_eq_true, Value.isNull_iff, readings_eq, List.all_map,
    List.all_eq_true]
  refine or_congr Iff.rfl ⟨fun hall kw v hget => ?_, fun hall e he => ?_⟩
  · obtain ⟨k, hmem, hk⟩ := OrderedMap.mem_of_get? hget
    exact (hentry _ hmem).mp (hall _ hmem) kw (Atom.beq_str_iff.mp hk)
  · refine (hentry e he).mpr fun kw hkey => hall kw e.2 ?_
    exact h.separate.get? he (by rw [hkey]; exact Atom.beq_str_iff.mpr rfl)

end OpenApi

/-- Exactly one member of a list has a property if the property counts one. -/
theorem exactlyOne_iff_countP {α : Type} {p : α → Bool} {xs : List α} :
    ExactlyOne (fun a => p a = true) xs ↔ xs.countP p = 1 := by
  constructor
  · rintro ⟨before, a, after, rfl, ha, hbefore, hafter⟩
    rw [List.countP_append, List.countP_cons_of_pos ha, List.countP_eq_zero.mpr hbefore,
      List.countP_eq_zero.mpr hafter]
  · intro hcount
    rw [List.countP_eq_length_filter] at hcount
    obtain ⟨a, ha⟩ := List.length_eq_one_iff.mp hcount
    obtain ⟨before, after, rfl, hbefore, hpa, hafter⟩ := List.filter_eq_cons_iff.mp ha
    exact ⟨before, a, after, rfl, hpa, hbefore, List.filter_eq_nil_iff.mp hafter⟩

end WireShape
