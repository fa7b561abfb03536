import Mathlib.Algebra.BigOperators.Group.Finset.Basic
import Mathlib.Algebra.Order.BigOperators.Group.List
import WireShape.Proofs.Compile.Walks

/-!
# How deep a walk nests

A node is never entered while it is on the path, so a walk nests no deeper than there are nodes that
are not on the path, with the plain objects that they hold. Where no node is overridden, a walk needs
no greater depth than that, and the depth to which walks are run is greater.

* `Heap.remaining`: what the nodes outside a list cost.
* `Heap.budget`: how deep a walk can still nest.
* `Heap.budget_part`: what is entered leaves enough for each of its parts.
* `Heap.budget_le_depthBound`: the depth to which walks are run is enough.
-/

namespace WireShape

/-! ## Sizes -/

theorem foldl_add_eq_sum {α : Type} {f : α → Nat} {xs : List α} {start : Nat} :
    xs.foldl (fun k x => k + f x) start = start + (xs.map f).sum := by
  induction xs generalizing start with
  | nil => rfl
  | cons x xs ih => rw [List.foldl_cons, ih, List.map_cons, List.sum_cons, Nat.add_assoc]

theorem Node.objectCount_eq {n : Node} : n.objectCount = (n.parts.map Schema.objectCount).sum := by
  unfold Node.objectCount
  rw [foldl_add_eq_sum, Nat.zero_add]

theorem le_sum_of_mem {α : Type} {f : α → Nat} {xs : List α} {x : α} (hx : x ∈ xs) :
    f x ≤ (xs.map f).sum := List.le_sum_of_mem (List.mem_map_of_mem hx)

theorem Schema.fieldObjectCount_eq {fields : List (Atom × Schema)} :
    Schema.fieldObjectCount fields = ((fields.map (·.2)).map Schema.objectCount).sum := by
  induction fields with
  | nil => rfl
  | cons e fields ih => rw [fieldObjectCount, ih, List.map_cons, List.map_cons, List.sum_cons]

namespace Heap

/-- What the nodes that are not in a list cost together. -/
def remaining (h : Heap) (cost : Node → Nat) (ids : List NodeId) : Nat :=
  ∑ id ∈ (Finset.range h.nodes.size).filter fun id => ids.contains id = false, cost (h.get id)

/-- A node that comes into the list is paid for. -/
theorem remaining_enter {h : Heap} {cost : Node → Nat} {ids : List NodeId} {id : NodeId}
    (hid : id < h.nodes.size) (hfresh : ids.contains id = false) :
    h.remaining cost ids = cost (h.get id) + h.remaining cost (id :: ids) := by
  have hmem : id ∈ (Finset.range h.nodes.size).filter fun id => ids.contains id = false :=
    Finset.mem_filter.mpr ⟨Finset.mem_range.mpr hid, hfresh⟩
  have herase : ((Finset.range h.nodes.size).filter fun id => ids.contains id = false).erase id =
      (Finset.range h.nodes.size).filter fun id' => (id :: ids).contains id' = false := by
    ext id'
    simp only [Finset.mem_erase, Finset.mem_filter, List.contains_cons, Bool.or_eq_false_iff,
      beq_eq_false_iff_ne]
    tauto
  unfold remaining
  rw [← Finset.add_sum_erase _ _ hmem, herase]

theorem remaining_nil {h : Heap} {cost : Node → Nat} :
    h.remaining cost [] = (h.nodes.toList.map cost).sum := by
  have hsum : ∀ ns : List Node, ∑ id ∈ Finset.range ns.length, cost (ns.getD id default) =
      (ns.map cost).sum := by
    intro ns
    induction ns with
    | nil => rfl
    | cons n ns ih =>
      rw [List.length_cons, Finset.sum_range_succ']
      simp only [List.getD_cons_succ, List.getD_cons_zero, ih, List.map_cons, List.sum_cons]
      omega
  have hget : ∀ id, h.get id = h.nodes.toList.getD id default := by
    intro id
    unfold Heap.get
    rw [Array.getD_eq_getD_getElem?, List.getD_eq_getElem?_getD, Array.getElem?_toList]
  unfold remaining
  simp only [List.contains_nil, Finset.filter_true, hget]
  exact hsum h.nodes.toList

/-- How deep a walk can still nest: the nodes that are not on the path, with the plain objects that
they hold. -/
def budget (h : Heap) (active : List NodeId) : Nat :=
  ∑ id ∈ (Finset.range h.nodes.size).filter fun id => active.contains id = false,
    (1 + (h.get id).objectCount)

theorem budget_eq {h : Heap} {active : List NodeId} :
    h.budget active = h.remaining (fun n => 1 + n.objectCount) active := rfl

/-- A node that is entered is paid for. -/
theorem budget_enter {h : Heap} {active : List NodeId} {id : NodeId} (hid : id < h.nodes.size)
    (hfresh : active.contains id = false) :
    h.budget active = 1 + (h.get id).objectCount + h.budget (id :: active) := by
  rw [budget_eq, budget_eq, remaining_enter hid hfresh]

theorem budget_nil {h : Heap} : h.budget [] = h.nodeCount := by
  rw [budget_eq, remaining_nil]
  unfold nodeCount
  rw [foldl_add_eq_sum, Nat.zero_add, ← Array.length_toList]
  induction h.nodes.toList with
  | nil => rfl
  | cons n ns ih =>
    simp only [List.map_cons, List.sum_cons, List.length_cons] at ih ⊢
    omega

/-- An identity that no node of the heap has stands for an empty node. -/
theorem view_of_not_lt {h : Heap} {id : NodeId} (hid : ¬ id < h.nodes.size) :
    h.view (.node id) = default := by
  change h.nodes.getD id default = default
  rw [Array.getD_eq_getD_getElem?, Array.getElem?_eq_none (Nat.le_of_not_lt hid)]
  rfl

/-- Only nodes of the heap have a kind. -/
theorem lt_size_of_kind? {h : Heap} {id : NodeId} {kind : Kind}
    (hkind : (h.view (.node id)).kind? = some kind) : id < h.nodes.size := by
  by_contra hle
  rw [view_of_not_lt hle] at hkind
  cases hkind

/-- Only nodes of the heap hold positions. -/
theorem lt_size_of_holds {h : Heap} {id : NodeId} {t : Schema} (ht : h.Holds (.node id) t) :
    id < h.nodes.size := by
  by_contra hle
  rw [Holds, view_of_not_lt hle] at ht
  rcases ht with hpart | hoverride
  · cases hpart
  · cases hoverride

end Heap

/-- What is entered leaves enough for each of its parts. -/
theorem Heap.budget_part {h : Heap} {s t : Schema} {ctx : Context} {kind : Kind}
    (hkind : (h.view s).kind? = some kind) (hfresh : ctx.Fresh s) (ht : t ∈ (h.view s).parts) :
    h.budget (ctx.enterAt s).active + t.objectCount + 1 ≤ h.budget ctx.active + s.objectCount := by
  cases s with
  | node id =>
    have hbudget := budget_enter (lt_size_of_kind? hkind) hfresh
    have hcount : t.objectCount ≤ (h.get id).objectCount := by
      rw [Node.objectCount_eq]
      exact le_sum_of_mem ht
    change h.budget (id :: ctx.active) + t.objectCount + 1 ≤ h.budget ctx.active + 0
    omega
  | object fields =>
    have hcount : t.objectCount ≤ Schema.fieldObjectCount fields := by
      rw [Schema.fieldObjectCount_eq]
      refine le_sum_of_mem ?_
      have hparts : (h.view (.object fields)).parts = fields.map (·.2) := by
        simp [Heap.view, Node.parts]
      exact hparts ▸ ht
    change h.budget ctx.active + t.objectCount + 1 ≤
      h.budget ctx.active + (1 + Schema.fieldObjectCount fields)
    omega

/-- The depth to which walks are run is enough to pay for all nodes. -/
theorem Heap.budget_le_depthBound {h : Heap} {s : Schema} :
    h.budget [] + s.objectCount + 1 ≤ h.depthBound s := by
  rw [Heap.budget_nil]
  unfold Heap.depthBound
  omega

end WireShape
