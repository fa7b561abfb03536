import WireShape.Proofs.Compile.Created
import WireShape.Proofs.Compile.Scalars

/-!
# Copies of nodes

A node that is made required or optional is a copy of the node before, with the same parts. Its
presence is asked for by the node that holds it and, where it is forbidden, by the walk that comes to
it; it plays no part in what the node itself is put together to. So two copies of a class define the
class in the same way, and a walk goes on from both to the same positions.

* `Node.CopyOf`: nodes that differ at most in their presence.
* `Node.CopyOf.assemble`: copies are put together to the same fields.
* `Heap.Visits.copied`, `Heap.Defines.copied`: copies lead on to the same positions and define the
  same.
-/

namespace WireShape

open Value (Fields)

namespace Node

/-- A node that differs from another one at most in its presence. -/
structure CopyOf (n m : Node) : Prop where
  flags : ∀ name, name ≠ "presence" → n.flag name = m.flag name
  rest : { n with flags := m.flags } = m

namespace CopyOf

variable {n m : Node}

theorem refl : n.CopyOf n := ⟨fun _ _ => rfl, rfl⟩

theorem symm (h : n.CopyOf m) : m.CopyOf n := by
  refine ⟨fun name hname => (h.flags name hname).symm, ?_⟩
  rw [← h.rest]

theorem trans {k : Node} (h : n.CopyOf m) (h' : m.CopyOf k) : n.CopyOf k := by
  refine ⟨fun name hname => (h.flags name hname).trans (h'.flags name hname), ?_⟩
  rw [← h'.rest, ← h.rest]

theorem metaValue (h : n.CopyOf m) {name : String} : n.metaValue name = m.metaValue name := by
  rw [← h.rest]
  rfl

theorem override (h : n.CopyOf m) : n.override = m.override := h.metaValue

theorem class? (h : n.CopyOf m) : n.class? = m.class? := by
  rw [← h.rest]
  rfl

theorem kind? (h : n.CopyOf m) : n.kind? = m.kind? := by
  rw [← h.rest]
  rfl

theorem parts (h : n.CopyOf m) {kind : Kind} : kind.parts n = kind.parts m := by
  rw [← h.rest]
  cases kind <;> rfl

theorem whenParts (h : n.CopyOf m) : n.whenParts = m.whenParts := by
  rw [← h.rest]
  rfl

/-! ## What a copy is put together to -/

theorem valueKeywords (h : n.CopyOf m) {accept : Value → Bool} :
    n.valueKeywords accept = m.valueKeywords accept := by
  unfold Node.valueKeywords
  rw [h.flags "only" (by decide), ← h.rest]

theorem sizeKeywords (h : n.CopyOf m) {suffix : String} :
    n.sizeKeywords suffix = m.sizeKeywords suffix := by
  rw [← h.rest]
  rfl

theorem keywords (h : n.CopyOf m) {kind : Scalar} : kind.keywords n = kind.keywords m := by
  cases kind with
  | number =>
    simp only [Scalar.keywords, Scalar.numberKeywords, h.valueKeywords]
    rw [← h.rest]
    rfl
  | string =>
    simp only [Scalar.keywords, Scalar.stringKeywords, Scalar.patternKeyword, h.valueKeywords,
      h.sizeKeywords, h.flags "convert" (by decide)]
    rw [← h.rest]
    rfl
  | binary =>
    simp only [Scalar.keywords, Scalar.binaryKeywords, h.sizeKeywords,
      h.flags "encoding" (by decide)]
  | date => simp only [Scalar.keywords, Scalar.dateKeywords, h.flags "format" (by decide)]
  | boolean => simp only [Scalar.keywords, Scalar.booleanKeywords, h.valueKeywords]
  | any => simp only [Scalar.keywords, Scalar.anyKeywords, h.valueKeywords, h.metaValue]

theorem fields (h : n.CopyOf m) {heap : Heap} {kind : Kind} {outcomes : List Compiled} :
    kind.fields heap n outcomes = kind.fields heap m outcomes := by
  cases kind with
  | scalar => exact h.keywords
  | object =>
    have hclosed : n.isClosed = m.isClosed := by
      unfold Node.isClosed
      rw [h.flags "unknown" (by decide)]
    simp only [Kind.fields, objectFields, closeObject, hclosed]
    rw [← h.rest]
    rfl
  | array =>
    simp only [Kind.fields, arrayFields, h.sizeKeywords]
    rw [← h.rest]
    rfl
  | alternatives =>
    simp only [Kind.fields, alternativeFields, h.flags "match" (by decide)]
    rw [← h.rest]

theorem annotate (h : n.CopyOf m) {fields : Fields} :
    annotate n fields = annotate m fields := by
  simp only [WireShape.annotate, h.flags "description" (by decide), h.flags "label" (by decide),
    h.flags "default" (by decide)]
  rw [← h.rest]

/-- Copies are put together to the same fields. -/
theorem assemble (h : n.CopyOf m) {heap : Heap} {kind : Kind}
    {outcomes whenOutcomes : List Compiled} :
    n.assemble heap kind outcomes whenOutcomes = m.assemble heap kind outcomes whenOutcomes := by
  simp only [Node.assemble, h.fields, h.annotate]
  rw [← h.rest]
  rfl

end CopyOf

end Node

namespace Heap

variable {h : Heap} {s t u : Schema} {b n : Atom} {d : Value}

/-- A walk that goes on from a copy goes on from the node, if it is not forbidden. -/
theorem Visits.copied (ht : h.Visits s t) (hcopy : (h.view s).CopyOf (h.view u))
    (hallowed : (h.view u).isForbidden = false) : h.Visits u t := by
  cases ht with
  | override hoverride ht =>
    exact .override (hcopy.override ▸ hoverride) (hcopy.override ▸ ht)
  | part hoverride _ hkind ht =>
    refine .part (hcopy.override ▸ hoverride) hallowed (hcopy.kind? ▸ hkind) ?_
    rwa [← hcopy.parts, ← hcopy.whenParts]

/-- A class is defined by a copy as it is by the node, if that is not forbidden. -/
theorem Defines.copied (hd : h.Defines s b n d) (hcopy : (h.view s).CopyOf (h.view u))
    (hallowed : (h.view u).isForbidden = false) : h.Defines u b n d := by
  have hliteral : (h.view s).isLiteral = (h.view u).isLiteral := by
    simp only [Node.isLiteral, Node.literal, hcopy.metaValue]
  cases hd with
  | literal hoverride hl hclass =>
    have hsame : (h.view s).literal = (h.view u).literal := hcopy.metaValue
    rw [hsame]
    exact .literal (hcopy.override ▸ hoverride) (hliteral ▸ hl) (hcopy.class? ▸ hclass)
  | compiled hoverride hl hclass _ hkind hparts hwhens hfields =>
    rw [hcopy.parts] at hparts
    rw [hcopy.whenParts] at hwhens
    rw [hcopy.assemble] at hfields
    exact .compiled (hcopy.override ▸ hoverride) (hliteral ▸ hl) (hcopy.class? ▸ hclass) hallowed
      (hcopy.kind? ▸ hkind) hparts hwhens hfields

end Heap

end WireShape
