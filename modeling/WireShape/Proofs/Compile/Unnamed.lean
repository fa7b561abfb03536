import WireShape.Proofs.Compile.Known
import WireShape.Proofs.Compile.Scalars

/-!
# Heaps without classes

A heap whose nodes have lost the names of their classes describes the same values, written out
without references. Only the name of its class is different about a node: it has the same parts, and
the outcomes of these are put together in the same way.

* `Node.unnamed`, `Heap.unnamed`: a node and a heap without names of classes.
* `Heap.holds_unnamed`, `Heap.reaches_unnamed`: the positions below a position are the same.
* `Node.assemble_unnamed`: the same outcomes give the same fields.
-/

namespace WireShape

open Value (Fields)

/-! ## Nodes -/

namespace Node

/-- A node without the name of its class. -/
def unnamed (n : Node) : Node := { n with metadata := n.metadata.erase (.str "className") }

variable {n : Node} {name : String}

theorem metaValue_unnamed (hname : name ≠ "className") :
    n.unnamed.metaValue name = n.metaValue name := by
  have hkey : (Atom.str "className" == Atom.str name) = false := by
    refine Bool.eq_false_iff.mpr fun h => hname ?_
    exact Atom.str.inj (Atom.str_beq_iff.mp h)
  unfold metaValue OrderedMap.getD
  rw [unnamed, OrderedMap.get?_erase_of_ne hkey]

@[simp] theorem className_unnamed : n.unnamed.className = .null := by
  unfold className metaValue OrderedMap.getD
  rw [unnamed, OrderedMap.get?_erase_self]
  rfl

@[simp] theorem class?_unnamed : n.unnamed.class? = .ok none := by
  rw [class?_eq_ok_none_iff, className_unnamed]
  rfl

@[simp] theorem override_unnamed : n.unnamed.override = n.override :=
  metaValue_unnamed (by decide)

@[simp] theorem literal_unnamed : n.unnamed.literal = n.literal := metaValue_unnamed (by decide)

@[simp] theorem isLiteral_unnamed : n.unnamed.isLiteral = n.isLiteral := by
  unfold isLiteral
  rw [literal_unnamed, metaValue_unnamed (by decide)]

@[simp] theorem kind?_unnamed : n.unnamed.kind? = n.kind? := by
  unfold kind? baseKind
  rw [metaValue_unnamed (by decide)]
  rfl

@[simp] theorem limitValue_unnamed {limit fallback : Value} :
    n.unnamed.limitValue limit fallback = n.limitValue limit fallback := by
  unfold limitValue siblingValue
  rw [metaValue_unnamed (by decide)]

@[simp] theorem addLiteral_unnamed {fields : Fields} :
    n.unnamed.addLiteral fields = n.addLiteral fields := by
  unfold addLiteral
  rw [literal_unnamed]

@[simp] theorem sizeKeywords_unnamed {suffix : String} :
    n.unnamed.sizeKeywords suffix = n.sizeKeywords suffix := by
  unfold sizeKeywords
  simp only [limitValue_unnamed]
  rfl

end Node

section Fields

variable {n : Node} {h : Heap} {kind : Kind} {outcomes whenOutcomes : List Compiled} {s t : Schema}

@[simp] theorem Scalar.keywords_unnamed {kind : Scalar} :
    kind.keywords n.unnamed = kind.keywords n := by
  cases kind with
  | number =>
    simp only [Scalar.keywords, Scalar.numberKeywords_eq, Scalar.limitKeyword,
      Node.limitValue_unnamed]
    rfl
  | string =>
    simp only [Scalar.keywords, Scalar.stringKeywords, Node.sizeKeywords_unnamed]
    rfl
  | binary =>
    simp only [Scalar.keywords, Scalar.binaryKeywords, Node.sizeKeywords_unnamed]
    rfl
  | date | boolean => rfl
  | any =>
    have hfile : n.unnamed.metaValue "swaggerType" = n.metaValue "swaggerType" :=
      Node.metaValue_unnamed (by decide)
    simp only [Scalar.keywords, Scalar.anyKeywords, hfile]
    rfl

/-! ## Heaps -/

namespace Heap

/-- A heap without the names of classes. -/
def unnamed (h : Heap) : Heap := ⟨h.nodes.map Node.unnamed⟩

/-- The node at a position has lost the name of its class. -/
theorem view_unnamed : h.unnamed.view s = (h.view s).unnamed := by
  cases s with
  | node id =>
    change (h.nodes.map Node.unnamed).getD id default = (h.nodes.getD id default).unnamed
    rw [Array.getD_eq_getD_getElem?, Array.getD_eq_getD_getElem?, Array.getElem?_map]
    cases h.nodes[id]? <;> rfl
  | object fields => rfl

theorem describe_unnamed : h.unnamed.describe = h.describe := by
  funext id
  change (h.unnamed.view (.node id)).describe = (h.view (.node id)).describe
  rw [view_unnamed]
  rfl

/-- The same positions are below each other. -/
theorem holds_unnamed : h.unnamed.Holds = h.Holds := by
  funext s t
  unfold Holds
  rw [view_unnamed, Node.override_unnamed]
  rfl

theorem reaches_unnamed : h.unnamed.Reaches = h.Reaches := by
  unfold Reaches
  rw [holds_unnamed]

/-- Without names there are no classes, forbidden or not. -/
theorem noForbiddenClass_unnamed : h.unnamed.NoForbiddenClass s := by
  intro t _ hclass
  rw [view_unnamed, Node.className_unnamed] at hclass
  cases hclass

end Heap

/-- A node without class has the same parts. -/
theorem Kind.parts_unnamed : kind.parts n.unnamed = kind.parts n := by
  cases kind <;> rfl

/-! ## Fields from outcomes -/

theorem branchValues_unnamed {branches : List Schema} :
    branchValues h.unnamed branches outcomes = branchValues h branches outcomes := by
  have hmark : markBranch h.unnamed = markBranch h := by
    funext s outcome
    unfold markBranch
    rw [Heap.view_unnamed]
    rfl
  unfold branchValues
  rw [hmark]

theorem Kind.fields_unnamed :
    kind.fields h.unnamed n.unnamed outcomes = kind.fields h n outcomes := by
  cases kind with
  | scalar kind => exact Scalar.keywords_unnamed
  | object =>
    have hchild : addChild h.unnamed = addChild h := by
      funext acc entry outcome
      unfold addChild
      rw [Heap.view_unnamed]
      rfl
    change Except.ok (objectFields h.unnamed n.unnamed outcomes) = .ok (objectFields h n outcomes)
    unfold objectFields childFields
    rw [hchild]
    rfl
  | array =>
    change arrayFields n.unnamed outcomes = arrayFields n outcomes
    unfold arrayFields
    rw [Node.sizeKeywords_unnamed]
    rfl
  | alternatives =>
    change alternativeFields h.unnamed n.unnamed outcomes = alternativeFields h n outcomes
    unfold alternativeFields
    rw [Heap.describe_unnamed, branchValues_unnamed]
    rfl

/-- The same outcomes give the same fields. -/
theorem Node.assemble_unnamed : n.unnamed.assemble h.unnamed kind outcomes whenOutcomes =
    n.assemble h kind outcomes whenOutcomes := by
  unfold Node.assemble whenFields
  rw [Kind.fields_unnamed, branchValues_unnamed]
  simp only [Node.addLiteral_unnamed]
  rfl

end Fields

end WireShape
