import WireShape.Proofs.Compile.Bound

/-!
# Walks that end

Where no position is below itself, a path never comes back to a node, neither to its parts nor by
what overrides it. So it is no longer than the nodes that it has not been to allow, each with the
plain objects that it holds and the mapping that overrides it, and a walk that succeeds at some
depth succeeds within the depth to which walks are run.

* `Heap.Acyclic`: no position is below itself.
* `Heap.Descends.acyclic`: heaps built from the parts upwards have no cycles.
* `Heap.reserve`: what the nodes that a path has not been to allow.
* `Heap.Acyclic.runs_iff`: a walk succeeds if it does so at some depth.
-/

namespace WireShape

/-- No position at or below a position is below itself. -/
def Heap.Acyclic (h : Heap) (s : Schema) : Prop :=
  ∀ t, h.Reaches s t → ¬ Relation.TransGen h.Holds t t

theorem Heap.Acyclic.below {h : Heap} {s t : Schema} (hs : h.Acyclic s) (ht : h.Reaches s t) :
    h.Acyclic t := fun u hu => hs u (ht.trans hu)

/-- Whether a node is not overridden and holds nodes before a place only. -/
def Node.holdsBefore (id : NodeId) (n : Node) : Bool :=
  n.override.isNull && n.parts.all fun
    | .node j => decide (j < id)
    | .object _ => false

namespace Heap

variable {h : Heap} {id : NodeId} {t : Schema}

/-- Every position that a node holds is a node that comes before it, as in heaps that are built
from the parts upwards. -/
def Descends (h : Heap) : Prop := ∀ id t, h.Holds (.node id) t → ∃ j < id, t = .node j

/-- A heap descends if no node is overridden and each holds nodes before it only. -/
theorem descends_of_nodes (hnodes : ∀ id < h.nodes.size, (h.get id).holdsBefore id = true) :
    h.Descends := by
  intro id t hholds
  have hnode : (h.get id).holdsBefore id = true := by
    by_cases hid : id < h.nodes.size
    · exact hnodes id hid
    · unfold Heap.get
      rw [Array.getD_eq_getD_getElem?, Array.getElem?_eq_none (Nat.le_of_not_lt hid)]
      rfl
  obtain ⟨hoverride, hparts⟩ := Bool.and_eq_true_iff.mp hnode
  rcases hholds with hpart | hover
  · have hbefore := List.all_eq_true.mp hparts t hpart
    cases t with
    | node j => exact ⟨j, of_decide_eq_true hbefore, rfl⟩
    | object => cases hbefore
  · rw [view, Value.isNull_iff.mp hoverride] at hover
    cases hover

theorem Descends.reaches (hdescends : h.Descends) (hreach : h.Reaches (.node id) t) :
    ∃ j ≤ id, t = .node j := by
  induction hreach with
  | refl => exact ⟨id, Nat.le_refl id, rfl⟩
  | tail _ hholds ih =>
    obtain ⟨j, hj, rfl⟩ := ih
    obtain ⟨k, hk, rfl⟩ := hdescends j _ hholds
    exact ⟨k, (Nat.le_of_lt hk).trans hj, rfl⟩

theorem Descends.acyclic (hdescends : h.Descends) : h.Acyclic (.node id) := by
  have hbelow : ∀ j t, Relation.TransGen h.Holds (.node j) t → ∃ k < j, t = .node k := by
    intro j t hpath
    induction hpath with
    | single hholds => exact hdescends j _ hholds
    | tail _ hholds ih =>
      obtain ⟨k, hk, rfl⟩ := ih
      obtain ⟨l, hl, rfl⟩ := hdescends k _ hholds
      exact ⟨l, Nat.lt_trans hl hk, rfl⟩
  intro t ht hcycle
  obtain ⟨j, _, rfl⟩ := hdescends.reaches ht
  obtain ⟨k, hk, heq⟩ := hbelow j _ hcycle
  cases heq
  exact absurd hk (Nat.lt_irrefl j)

end Heap

/-! ## Plain mappings as positions -/

mutual

/-- A position has as many plain objects as the value that it comes from has mappings. -/
theorem Schema.objectCount_ofValue : ∀ {v : Value} {s : Schema}, Schema.ofValue v = .ok s →
    s.objectCount = v.objectCount
  | .map es _, s, h => by
    obtain ⟨fields, hfields, hs⟩ := bind_eq_ok_iff.mp h
    cases hs
    rw [Schema.objectCount, Value.objectCount, Schema.objectCount_ofEntries hfields]
  | .atom a, s, h => by
    cases a with
    | node id =>
      cases h
      rw [Schema.objectCount, Value.objectCount]
      exact fun _ _ heq => by cases heq
    | _ => cases h
  | .list _, _, h => by cases h
  | .mediaType .., _, h => by cases h
  | .requestBody .., _, h => by cases h
  | .response .., _, h => by cases h

theorem Schema.objectCount_ofEntries : ∀ {es : List (Atom × Value)} {fields : List (Atom × Schema)},
    Schema.ofEntries es = .ok fields →
      Schema.fieldObjectCount fields = Value.entryObjectCount es
  | [], _, h => by
    cases h
    rfl
  | (_, v) :: es, _, h => by
    obtain ⟨s, hs, hrest⟩ := bind_eq_ok_iff.mp h
    obtain ⟨fields, hfields, heq⟩ := bind_eq_ok_iff.mp hrest
    cases heq
    rw [Schema.fieldObjectCount, Value.entryObjectCount, Schema.objectCount_ofValue hs,
      Schema.objectCount_ofEntries hfields]

end

/-- What overrides a node is paid for by the node. -/
theorem Node.objectCount_override {n : Node} {t : Schema} (ht : rootSchema n.override = .ok t) :
    t.objectCount ≤ n.overrideCount := by
  have hcount : t.objectCount = n.override.objectCount := by
    unfold rootSchema at ht
    split at ht
    · cases ht
    · exact Schema.objectCount_ofValue ht
  rw [hcount]
  unfold Node.overrideCount Node.override
  split <;> omega

/-! ## Paths -/

/-- The calls that a path can make at a node and in what it holds, before it comes to a next one. -/
def Node.calls (n : Node) : Nat := 1 + n.objectCount + n.overrideCount

namespace Heap

variable {h : Heap} {s t : Schema} {visited : List NodeId} {id : NodeId}

/-- The calls that a path can still make at the nodes that it has not been to. -/
def reserve (h : Heap) (visited : List NodeId) : Nat := h.remaining Node.calls visited

theorem reserve_le_depthBound : h.reserve [] + s.objectCount + 1 ≤ h.depthBound s := by
  have hsum : h.reserve [] =
      h.nodeCount + h.nodes.toList.foldl (fun k n => k + n.overrideCount) 0 := by
    unfold reserve nodeCount
    rw [remaining_nil, foldl_add_eq_sum, foldl_add_eq_sum, Nat.zero_add, Nat.zero_add,
      ← Array.length_toList]
    induction h.nodes.toList with
    | nil => rfl
    | cons n ns ih =>
      simp only [List.map_cons, List.sum_cons, List.length_cons, Node.calls] at ih ⊢
      omega
  have hle : h.nodes.toList.foldl (fun k n => k + n.overrideCount) 0 ≤
      (h.nodes.size + 1) * h.nodes.toList.foldl (fun k n => k + n.overrideCount) 0 :=
    Nat.le_mul_of_pos_left _ (Nat.succ_pos _)
  unfold depthBound
  omega

/-- Positions that nothing comes to, and a node that has just been left, are not come to. -/
theorem not_reaches_below (hs : h.Acyclic (.node id)) (ht : h.Holds (.node id) t)
    (hvisited : ∀ id' ∈ visited, ¬ h.Reaches (.node id) (.node id')) :
    ∀ id' ∈ id :: visited, ¬ h.Reaches t (.node id') := by
  intro id' hid' hreach
  rcases List.mem_cons.mp hid' with rfl | hmem
  · exact hs _ .refl (Relation.TransGen.head' ht hreach)
  · exact hvisited id' hmem (.head ht hreach)

/-- What is held by a position takes less than the position. -/
theorem reserve_below (hs : h.Acyclic s) (ht : h.Holds s t)
    (hvisited : ∀ id ∈ visited, ¬ h.Reaches s (.node id)) :
    ∃ visited', (∀ id ∈ visited', ¬ h.Reaches t (.node id)) ∧
      h.reserve visited' + t.objectCount + 1 ≤ h.reserve visited + s.objectCount := by
  cases s with
  | object fields =>
    refine ⟨visited, fun id hid hreach => hvisited id hid (.head ht hreach), ?_⟩
    have hpart : t ∈ fields.map (·.2) := by
      rcases ht with hpart | hoverride
      · have hparts : (h.view (.object fields)).parts = fields.map (·.2) := by
          simp [Heap.view, Node.parts]
        exact hparts ▸ hpart
      · cases hoverride
    have hcount : t.objectCount ≤ Schema.fieldObjectCount fields := by
      rw [Schema.fieldObjectCount_eq]
      exact le_sum_of_mem hpart
    change _ ≤ h.reserve visited + (1 + Schema.fieldObjectCount fields)
    omega
  | node id =>
    refine ⟨id :: visited, not_reaches_below hs ht hvisited, ?_⟩
    have hsize : id < h.nodes.size := lt_size_of_holds ht
    have hnew : visited.contains id = false := by
      refine Bool.eq_false_iff.mpr fun hmem => ?_
      exact hvisited id (List.contains_iff_mem.mp hmem) .refl
    have hcount : t.objectCount ≤ (h.get id).objectCount + (h.get id).overrideCount := by
      rcases ht with hpart | hoverride
      · have hle : t.objectCount ≤ (h.get id).objectCount := by
          rw [Node.objectCount_eq]
          exact le_sum_of_mem hpart
        omega
      · have hle : t.objectCount ≤ (h.get id).overrideCount := Node.objectCount_override hoverride
        omega
    unfold reserve
    rw [remaining_enter hsize hnew]
    change _ ≤ 1 + (h.get id).objectCount + (h.get id).overrideCount + h.reserve (id :: visited) + 0
    unfold reserve
    omega

end Heap

/-! ## Enough depth -/

section Depth

variable {h : Heap} {s : Schema} {overriding : Bool} {ctx after : Context} {r : Compiled}

/-- A call succeeds within every depth that leaves enough for the nodes that its path has not been
to. -/
theorem runs_of_reserve {depth depth' : Nat} {visited : List NodeId} (hs : h.Acyclic s)
    (hvisited : ∀ id ∈ visited, ¬ h.Reaches s (.node id))
    (hdepth : h.reserve visited + s.objectCount + 1 ≤ depth')
    (hrun : Runs (compileWithin h depth s overriding) ctx r after) :
    Runs (compileWithin h depth' s overriding) ctx r after := by
  induction depth generalizing s overriding ctx r after depth' visited with
  | zero => exact absurd hrun not_runs_throw
  | succ depth ih =>
    obtain ⟨depth', rfl⟩ : ∃ n, depth' = n + 1 := Nat.exists_eq_add_one.mpr (by omega)
    refine runs_compileStep_iff.mpr (CompileStep.mono ?_ (runs_compileStep_iff.mp hrun))
    intro t o ctx r after ht hr
    obtain ⟨visited', hvisited', hle⟩ := Heap.reserve_below hs ht hvisited
    exact ih (hs.below (.single ht)) hvisited' (by omega) hr

/-- A walk succeeds if it does so at some depth. -/
theorem Heap.Acyclic.runs_iff (hs : h.Acyclic s) :
    Runs (h.compileSchema s) ctx r after ↔ Walked h s false ctx r after := by
  refine ⟨fun hrun => ⟨_, hrun⟩, ?_⟩
  rintro ⟨depth, hrun⟩
  have hnone : ∀ id ∈ ([] : List NodeId), ¬ h.Reaches s (.node id) := fun _ hid => by cases hid
  exact runs_of_reserve hs hnone Heap.reserve_le_depthBound hrun

end Depth

end WireShape
