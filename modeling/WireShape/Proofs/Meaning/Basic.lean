import WireShape.Proofs.Compile.Walks
import WireShape.Proofs.NullTypes
import WireShape.Validation.Assertion

/-!
# What a node admits

The meaning of a node is given without its schema, by recursion on the datum: which data it admits.
It is given for plain nodes: text, integers, booleans, arrays of one schema and objects, with limits,
with values that are named or denied, and with presence. Null is admitted where it is named. Any
other datum must be of the kind of the node, keep its limits, and be one of the named values if only
those are allowed and none of the denied ones. The elements of a list and the entries of a mapping
are asked of the parts of the node.

* `Heap.admits`: the data that the node at a position admits.
* `Heap.Plain`: the nodes that are considered.
-/

namespace WireShape

open Value (Fields)

/-! ## Limits -/

namespace Rule

/-- The least size or number that a rule allows. -/
def least? : Rule → Option Int
  | min (.int i) | length (.int i) => some i
  | _ => none

/-- The greatest size or number that a rule allows. -/
def greatest? : Rule → Option Int
  | max (.int i) | length (.int i) => some i
  | _ => none

/-- The least number that a sign allows. -/
def leastOfSign? : Rule → Option Int
  | sign .positive => some 1
  | _ => none

/-- The greatest number that a sign allows. -/
def greatestOfSign? : Rule → Option Int
  | sign .negative => some (-1)
  | _ => none

/-- Rules about sizes with integers for limits. -/
def IsSize (r : Rule) : Prop := ∃ i : Int, r = min (.int i) ∨ r = max (.int i) ∨ r = length (.int i)

/-- Rules about integers with integers for limits. -/
def IsInteger (r : Rule) : Prop :=
  r = integer ∨ (∃ s, r = sign s) ∨ ∃ i : Int, r = min (.int i) ∨ r = max (.int i)

end Rule

namespace Node

/-- The least size; the last rule about it decides. -/
def leastSize? (n : Node) : Option Int := (n.rules.filterMap Rule.least?).getLast?

/-- The greatest size; the last rule about it decides. -/
def greatestSize? (n : Node) : Option Int := (n.rules.filterMap Rule.greatest?).getLast?

/-- The least number; a limit counts more than a sign. -/
def leastNumber? (n : Node) : Option Int :=
  ((n.rule? "min").bind Rule.least?).or ((n.rule? "sign").bind Rule.leastOfSign?)

/-- The greatest number; a limit counts more than a sign. -/
def greatestNumber? (n : Node) : Option Int :=
  ((n.rule? "max").bind Rule.greatest?).or ((n.rule? "sign").bind Rule.greatestOfSign?)

def allowsSize (n : Node) (size : Nat) : Bool :=
  n.leastSize?.all (fun i : Int => decide (i ≤ size)) &&
    n.greatestSize?.all fun i : Int => decide (size ≤ i)

def allowsNumber (n : Node) (a : Number) : Bool :=
  n.leastNumber?.all (fun i => Number.le (.int i) a) && n.greatestNumber?.all fun i => a.le (.int i)

/-- Whether a datum keeps the limits of a node. -/
def keepsLimits (n : Node) : Value → Bool
  | .str s => n.allowsSize s.length
  | .list xs => n.allowsSize xs.length
  | x => x.number?.all n.allowsNumber

/-! ## Data by themselves -/

/-- Whether a datum is of the kind of a node. -/
def fits (n : Node) (x : Value) : Bool :=
  match n.kind with
  | "string" => x.isText
  | "number" => Assertion.isInteger x
  | "boolean" => x.isBool
  | "array" => Assertion.isList x
  | "object" => x.isMap
  | _ => false

/-- The values that a node names, apart from null. -/
def named (n : Node) : List Value := n.valids.filter fun v => !v.isNull

/-- Whether a node admits no other values than those that it names. -/
def isLimited (n : Node) : Bool := (n.flag "only").truthy && !n.named.isEmpty

/-- Whether a node admits a datum other than null, apart from what is in the datum. -/
def admitsOuter (n : Node) (x : Value) : Bool :=
  n.fits x && n.keepsLimits x && (!n.isLimited || n.named.any fun v => v.sameStrict x) &&
    !n.invalids.any fun v => v.sameStrict x

end Node

/-! ## Data -/

namespace Heap

mutual

/-- Whether the node at a position admits a datum. -/
def admits (h : Heap) : Schema → Value → Bool
  | s, .null => (h.view s).valids.any Value.isNull
  | s, .list xs =>
    (h.view s).admitsOuter (.list xs) && (h.view s).items.all fun t => admitsItems h t xs
  | s, .map es identity =>
    (h.view s).admitsOuter (.map es identity) &&
      ((h.view s).children.all fun c =>
        !(h.view c.2).isRequired || OrderedMap.contains es c.1) &&
      admitsEntries h (h.view s) es
  | s, x => (h.view s).admitsOuter x

/-- Whether the node at a position admits each element of a list. -/
def admitsItems (h : Heap) : Schema → List Value → Bool
  | _, [] => true
  | t, x :: xs => admits h t x && admitsItems h t xs

/-- Whether a node admits each entry of a mapping: a child that is forbidden may not be there, and a
key that is no child's may only be there if unknown keys are allowed. -/
def admitsEntries (h : Heap) : Node → List (Atom × Value) → Bool
  | _, [] => true
  | n, (k, v) :: es =>
    (match OrderedMap.get? n.children k with
      | some t => !(h.view t).isForbidden && admits h t v
      | none => !n.isClosed) && admitsEntries h n es

end

variable {h : Heap}

theorem admitsItems_iff {t : Schema} {xs : List Value} :
    h.admitsItems t xs = true ↔ ∀ x ∈ xs, h.admits t x = true := by
  induction xs with
  | nil => simp [admitsItems]
  | cons x xs ih => simp [admitsItems, ih]

theorem admitsEntries_iff {n : Node} {es : List (Atom × Value)} :
    h.admitsEntries n es = true ↔ ∀ e ∈ es,
      (∀ t, OrderedMap.get? n.children e.1 = some t →
        (h.view t).isForbidden = false ∧ h.admits t e.2 = true) ∧
      (OrderedMap.get? n.children e.1 = none → n.isClosed = false) := by
  induction es with
  | nil => simp [admitsEntries]
  | cons e es ih =>
    obtain ⟨k, v⟩ := e
    rw [admitsEntries, Bool.and_eq_true, ih, List.forall_mem_cons]
    refine and_congr ?_ Iff.rfl
    cases OrderedMap.get? n.children k with
    | none => simp
    | some t => simp

/-- A datum that is neither null nor has parts is admitted by itself. -/
theorem admits_of_atom {s : Schema} {a : Atom} (ha : a ≠ .null) :
    h.admits s (.atom a) = (h.view s).admitsOuter (.atom a) := by
  cases a <;> first | rfl | exact absurd rfl ha

end Heap

/-! ## Plain nodes -/

namespace Node

/-- A node without metadata that holds no other parts than these, and whose annotations have no
mark. -/
structure Bare (n : Node) (parts : List Schema) : Prop where
  metadata : n.metadata = []
  parts : n.parts = parts
  annotations : ∀ name ∈ ["label", "description", "default"], (n.flag name).Unmarked
  examples : ∀ v ∈ n.examples, v.Unmarked

/-- A node that names values of one form, or null, and denies values of that form. -/
structure Lists (n : Node) (form : Value → Prop) : Prop where
  valids : ∀ v ∈ n.valids, v = .null ∨ form v
  invalids : ∀ v ∈ n.invalids, form v

end Node

/-- The nodes that are considered: each holds plain nodes only. A forbidden child stands only in an
object that refuses unknown keys. -/
inductive Heap.Plain (h : Heap) : Schema → Prop
  | string {s : Schema} (hkind : (h.view s).kind = "string") (hbare : (h.view s).Bare [])
      (hrules : ∀ r ∈ (h.view s).rules, r.IsSize)
      (hvalues : (h.view s).Lists fun v => v.isText = true) : Plain h s
  | number {s : Schema} (hkind : (h.view s).kind = "number") (hbare : (h.view s).Bare [])
      (hinteger : .integer ∈ (h.view s).rules) (hrules : ∀ r ∈ (h.view s).rules, r.IsInteger)
      (hvalues : (h.view s).Lists fun v => ∃ i, v = .int i) : Plain h s
  | boolean {s : Schema} (hkind : (h.view s).kind = "boolean") (hbare : (h.view s).Bare [])
      (hvalues : (h.view s).Lists fun v => v.isBool = true) : Plain h s
  | array {s t : Schema} (hkind : (h.view s).kind = "array") (hbare : (h.view s).Bare [t])
      (hitems : (h.view s).items = [t]) (hrules : ∀ r ∈ (h.view s).rules, r.IsSize)
      (hvalues : (h.view s).Lists fun _ => False) (hallowed : (h.view t).isForbidden = false)
      (ht : Plain h t) : Plain h s
  | object {s : Schema} (hkind : (h.view s).kind = "object")
      (hbare : (h.view s).Bare ((h.view s).children.map (·.2)))
      (hseparate : OrderedMap.Separate (h.view s).children)
      (hkeys : ∀ c ∈ (h.view s).children, c.1 ≠ .str "nullable" ∧ ∀ id, c.1 ≠ .node id)
      (hvalues : (h.view s).Lists fun _ => False)
      (hallowed : ∀ c ∈ (h.view s).children, (h.view c.2).isForbidden = true →
        (h.view s).isClosed = true)
      (hchildren : ∀ c ∈ (h.view s).children, Plain h c.2) : Plain h s

end WireShape
