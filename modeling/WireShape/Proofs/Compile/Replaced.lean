import WireShape.Proofs.Compile.Ending

/-!
# Mappings that override

A plain mapping that overrides a node stands for an object node. Whoever makes that node once and
puts it in place of the mapping has almost the same heap: a walk does the same on both, at every
depth, as long as it meets no cycle. What differs is that the node can be met again on a path and
the mapping cannot, so that a cycle through the mapping is not noticed there.

* `Heap.DoubleOf`: a node that a mapping in place of another node stands for.
* `Heap.overrideBy`: the heap in which that node overrides the other one.
* `unlessCyclic_overrideBy`: a walk that is not cyclic there is the same here.
* `Heap.overrideBy_same`: so it is with compiled schemas and their definitions.
* `Heap.overrideBy_loop`: a cycle through a mapping is noticed only if the mapping is a node.
-/

namespace WireShape

/-- A node that another one overrides. -/
def Node.overriddenBy (n : Node) (target : NodeId) : Node :=
  { n with metadata := OrderedMap.insert n.metadata (.str "schemaOverride") (.node target) }

theorem Node.override_overriddenBy {n : Node} {target : NodeId} :
    (n.overriddenBy target).override = .node target := by
  unfold Node.override Node.metaValue Node.overriddenBy OrderedMap.getD
  rw [OrderedMap.get?_insert]
  rfl

namespace Heap

/-- The heap in which a node is overridden by another one. -/
def overrideBy (h : Heap) (id target : NodeId) : Heap :=
  h.set id ((h.get id).overriddenBy target)

/-- One node is the object node that the mapping in place of another node stands for. -/
structure DoubleOf (h : Heap) (id target : NodeId) (fields : List (Atom × Schema)) : Prop where
  override : rootSchema (h.get id).override = .ok (.object fields)
  node : h.get target = h.view (.object fields)

section Replaced

variable {h : Heap} {id target id' : NodeId} {fields : List (Atom × Schema)} {s : Schema}

theorem get_overrideBy_self (hid : id < h.nodes.size) :
    (h.overrideBy id target).get id = (h.get id).overriddenBy target := by
  unfold overrideBy Heap.set Heap.get
  rw [Array.getD_eq_getD_getElem?, Array.getElem?_setIfInBounds_self_of_lt hid]
  rfl

theorem get_overrideBy_of_ne (hne : id ≠ id') :
    (h.overrideBy id target).get id' = h.get id' := by
  unfold overrideBy Heap.set Heap.get
  rw [Array.getD_eq_getD_getElem?, Array.getElem?_setIfInBounds_ne hne,
    ← Array.getD_eq_getD_getElem?]

theorem view_overrideBy_of_ne (hs : s ≠ .node id) : (h.overrideBy id target).view s = h.view s := by
  cases s with
  | object => rfl
  | node id' => exact get_overrideBy_of_ne fun heq => hs (congrArg Schema.node heq.symm)

theorem get_overrideBy : (h.overrideBy id target).get id' = h.get id' ∨
    (h.overrideBy id target).get id' = (h.get id').overriddenBy target := by
  by_cases hne : id = id'
  · subst hne
    by_cases hid : id < h.nodes.size
    · exact .inr (get_overrideBy_self hid)
    · refine .inl ?_
      unfold overrideBy Heap.set
      rw [Array.setIfInBounds_eq_of_size_le (Nat.le_of_not_lt hid)]
  · exact .inl (get_overrideBy_of_ne hne)

/-- The nodes look as before. -/
theorem resembles_overrideBy : h.Resembles (h.overrideBy id target) where
  describe := by
    funext id'
    unfold Heap.describe
    obtain hget | hget := @get_overrideBy h id target id' <;> rw [hget]
    rfl
  isRequired s := by
    cases s with
    | object => rfl
    | node id' =>
      change (h.get id').isRequired = ((h.overrideBy id target).get id').isRequired
      obtain hget | hget := @get_overrideBy h id target id' <;> rw [hget]
      rfl

/-- What is no greater for a node that another one overrides is no greater for all nodes. -/
theorem remaining_overrideBy_le {cost : Node → Nat} {path : List NodeId}
    (hcost : ∀ n, cost (n.overriddenBy target) ≤ cost n) :
    (h.overrideBy id target).remaining cost path ≤ h.remaining cost path := by
  have hsize : (h.overrideBy id target).nodes.size = h.nodes.size := Array.size_setIfInBounds
  unfold remaining
  rw [hsize]
  refine Finset.sum_le_sum fun id' _ => ?_
  obtain hget | hget := @get_overrideBy h id target id' <;> rw [hget]
  exact hcost _

/-- A walk may not nest deeper than before. -/
theorem depthBound_overrideBy_le : (h.overrideBy id target).depthBound s ≤ h.depthBound s := by
  have hsize : (h.overrideBy id target).nodes.size = h.nodes.size := Array.size_setIfInBounds
  have hnodes : (h.overrideBy id target).nodeCount ≤ h.nodeCount := by
    rw [← budget_nil, ← budget_nil, budget_eq, budget_eq]
    exact remaining_overrideBy_le fun _ => le_rfl
  have hoverrides : (h.overrideBy id target).remaining Node.overrideCount [] ≤
      h.remaining Node.overrideCount [] := by
    refine remaining_overrideBy_le fun n => ?_
    have hoverride : (n.overriddenBy target).metaValue "schemaOverride" = .node target :=
      Node.override_overriddenBy
    have hcount : (n.overriddenBy target).overrideCount = 0 := by
      unfold Node.overrideCount
      rw [hoverride]
      rfl
    rw [hcount]
    exact Nat.zero_le _
  rw [remaining_nil, remaining_nil] at hoverrides
  unfold depthBound
  rw [hsize, foldl_add_eq_sum, foldl_add_eq_sum, Nat.zero_add, Nat.zero_add]
  have hproduct := Nat.mul_le_mul_left (h.nodes.size + 1) hoverrides
  omega

end Replaced

end Heap

/-! ## Side by side -/

section Walks

variable {h : Heap} {recur : Recur} {id target : NodeId} {s t : Schema} {overriding : Bool}
  {fields : List (Atom × Schema)}

/-- What is done at a node that is overridden. -/
theorem compileStep_of_override (ht : rootSchema (h.view s).override = .ok t) :
    compileStep h recur s overriding =
      if overriding then throw .nestedOverride else recur t true := by
  have hnull : (h.view s).override.isNull = false := by
    cases hnull : (h.view s).override.isNull with
    | false => rfl
    | true =>
      unfold Value.isNull at hnull
      split at hnull
      · rename_i heq
        rw [heq] at ht
        cases ht
      · cases hnull
  rw [compileStep_eq, hnull, Bool.not_false, if_pos rfl, ht]
  rfl

namespace Heap.DoubleOf

variable (hdouble : h.DoubleOf id target fields)
include hdouble

theorem ne : id ≠ target := by
  intro heq
  have hoverride := hdouble.override
  rw [heq, hdouble.node] at hoverride
  cases hoverride

theorem rootSchema_overrideBy :
    rootSchema ((h.overrideBy id target).view (.node id)).override = .ok (.node target) := by
  have hid : (h.overrideBy id target).get id = (h.get id).overriddenBy target :=
    get_overrideBy_self (lt_size_of_holds (.inr hdouble.override))
  change rootSchema ((h.overrideBy id target).get id).override = _
  rw [hid, Node.override_overriddenBy]
  rfl

/-- The node looks like the object that the mapping is made into. -/
theorem view_overrideBy : (h.overrideBy id target).view (.node target) = h.view (.object fields) :=
  (get_overrideBy_of_ne hdouble.ne).trans hdouble.node

end Heap.DoubleOf

/-- The walks of the two heaps side by side, from a position and from what overrides the node. The
path on the left has the nodes of the path on the right, so that no cycle on the right is missed. -/
theorem unlessCyclic_overrideBy (hdouble : h.DoubleOf id target fields) {depth : Nat}
    {path path' : List NodeId} (hpath : path' ⊆ path) :
    (∀ s overriding, UnlessCyclic path path'
      (compileWithin (h.overrideBy id target) depth s overriding)
      (compileWithin h depth s overriding)) ∧
    UnlessCyclic path path' (compileWithin (h.overrideBy id target) depth (.node target) true)
      (compileWithin h depth (.object fields) true) := by
  induction depth generalizing path path' with
  | zero => exact ⟨fun _ _ => UnlessCyclic.throw, UnlessCyclic.throw⟩
  | succ depth ih =>
    refine ⟨fun s overriding => ?_, ?_⟩
    · by_cases hs : s = .node id
      · -- At the node itself both walks go on to what overrides it.
        subst hs
        change UnlessCyclic path path' (compileStep _ _ _ _) (compileStep _ _ _ _)
        have hright : rootSchema (h.view (.node id)).override = .ok (.object fields) :=
          hdouble.override
        rw [compileStep_of_override hdouble.rootSchema_overrideBy, compileStep_of_override hright]
        exact Pairs.ite UnlessCyclic.throw (ih hpath).2
      · have hview := (@Heap.view_overrideBy_of_ne h id target s hs).symm
        have hoff : s.OffPath path → s.OffPath path' := fun hoff => hoff.mono hpath
        exact (UnlessCyclic.rules hoff).compileStep Heap.resembles_overrideBy hview
          (fun t _ _ _ => (ih hpath).1 t true)
          fun t _ _ => (ih (Schema.inside_mono hpath)).1 t false
    · have hoff : (Schema.node target).OffPath path → (Schema.object fields).OffPath path' :=
        fun _ => trivial
      refine (UnlessCyclic.rules hoff).compileStep Heap.resembles_overrideBy
        hdouble.view_overrideBy.symm (fun t _ hfirst _ => ?_) fun t _ _ => (ih ?_).1 t false
      · cases hfirst
      · exact List.subset_cons_of_subset target hpath

end Walks

/-! ## The outcomes -/

section Outcomes

variable {h : Heap} {id target : NodeId} {fields : List (Atom × Schema)} {s : Schema} {v : Value}
  {ctx : Context}

/-- At every depth both walks do the same, unless the walk with the node fails for a cycle. -/
theorem compileWithin_overrideBy (hdouble : h.DoubleOf id target fields) {depth : Nat}
    {overriding : Bool} :
    (∃ kind, (compileWithin (h.overrideBy id target) depth s overriding ctx).1 =
      .error (.cyclicSchema kind)) ∨
    compileWithin (h.overrideBy id target) depth s overriding ctx =
      compileWithin h depth s overriding ctx := by
  obtain hcyclic | ⟨hpath, hsame⟩ :=
    (unlessCyclic_overrideBy hdouble (List.Subset.refl ctx.active)).1 s overriding ctx rfl
  · exact .inl hcyclic
  · refine .inr (Eq.symm (hsame.trans (Prod.ext rfl ?_)))
    rw [← hpath]
    rfl

theorem Heap.compile_of_rootSchema (hv : rootSchema v = .ok s) :
    h.compile v ctx = h.compileSchema s ctx := by
  unfold Heap.compile
  rw [hv]
  rfl

theorem Heap.compileAgainst_fails {known : Components} {fault : Fault}
    (hfault : (h.compile v { known }).1 = .error fault) :
    (h.compileAgainst known v).1 = .error fault := by
  change Except.map _ (h.compile v { known }).1 = _
  rw [hfault]
  rfl

/-- The depths to which the two walks are run differ, but this matters only where the walk with the
node is cut off. -/
theorem Heap.compile_overrideBy (hdouble : h.DoubleOf id target fields) :
    (∃ kind, ((h.overrideBy id target).compile v ctx).1 = .error (.cyclicSchema kind)) ∨
    ((h.overrideBy id target).compile v ctx).1 = .error .unbounded ∧
      ¬ (h.overrideBy id target).OverridesAreNodes ∨
    (h.overrideBy id target).compile v ctx = h.compile v ctx := by
  cases hv : rootSchema v with
  | error fault =>
    have hfails : ∀ h : Heap, h.compile v ctx = (.error fault, ctx) := by
      intro h
      unfold Heap.compile
      rw [hv]
      rfl
    exact .inr (.inr ((hfails _).trans (hfails h).symm))
  | ok s =>
    rw [compile_of_rootSchema hv, compile_of_rootSchema hv]
    unfold compileSchema
    obtain hcut | hdeep :=
      noShallower_compileWithin (@depthBound_overrideBy_le h id target s) ctx
    · refine .inr (.inl ⟨hcut, fun hnodes => ?_⟩)
      exact (endsOn_compileWithin hnodes need_le_depthBound).ne_unbounded rfl hcut
    · rw [← hdeep]
      exact (compileWithin_overrideBy hdouble).imp_right .inr

end Outcomes

/-- A mapping in place of a node does what the object node does that it stands for, unless that is
met again on its path: at every depth, and so for compiled schemas with their definitions. The walk
with the object node is cut off only where other mappings override nodes. -/
theorem Heap.overrideBy_same (h : Heap) (id target : NodeId) (fields : List (Atom × Schema))
    (hdouble : h.DoubleOf id target fields) :
    (∀ depth s overriding ctx,
      (∃ kind, (compileWithin (h.overrideBy id target) depth s overriding ctx).1 =
        .error (.cyclicSchema kind)) ∨
      compileWithin (h.overrideBy id target) depth s overriding ctx =
        compileWithin h depth s overriding ctx) ∧
    (∀ known v,
      (∃ kind, ((h.overrideBy id target).compileAgainst known v).1 = .error (.cyclicSchema kind)) ∨
      ((h.overrideBy id target).compileAgainst known v).1 = .error .unbounded ∧
        ¬ (h.overrideBy id target).OverridesAreNodes ∨
      (h.overrideBy id target).compileAgainst known v = h.compileAgainst known v) := by
  refine ⟨fun depth s overriding ctx => compileWithin_overrideBy hdouble, fun known v => ?_⟩
  obtain ⟨kind, hcyclic⟩ | ⟨hcut, hnot⟩ | hsame :=
    @compile_overrideBy h id target fields v { known } hdouble
  · exact .inl ⟨kind, compileAgainst_fails hcyclic⟩
  · exact .inr (.inl ⟨compileAgainst_fails hcut, hnot⟩)
  · refine .inr (.inr ?_)
    unfold compileAgainst
    rw [hsame]

/-- A row with a seat, which stands for a mapping with a seat that overrides the node before it. -/
def rowHeap : Heap where
  nodes := #[{ kind := "string" },
    { kind := "any", metadata := [(.str "schemaOverride", .ofFields [("seat", .node 0)])] },
    { kind := "object", children := [(.str "seat", .node 0)] }]

/-- The mapping and the row compile to the same object. -/
theorem Heap.overrideBy_same_row : rowHeap.DoubleOf 1 2 [(.str "seat", .node 0)] ∧
    (rowHeap.overrideBy 1 2).compileAgainst [] (.node 1) = rowHeap.compileAgainst [] (.node 1) ∧
    (rowHeap.compileAgainst [] (.node 1)).1.isOk = true := by
  have hdouble : rowHeap.DoubleOf 1 2 [(.str "seat", .node 0)] := ⟨rfl, rfl⟩
  have hok : ((rowHeap.overrideBy 1 2).compileAgainst [] (.node 1)).1.isOk = true := rfl
  obtain ⟨kind, hcyclic⟩ | ⟨hcut, _⟩ | hsame :=
    (overrideBy_same rowHeap 1 2 [(.str "seat", .node 0)] hdouble).2 [] (.node 1)
  · rw [hcyclic] at hok
    cases hok
  · rw [hcut] at hok
    cases hok
  · exact ⟨hdouble, hsame, hsame ▸ hok⟩

/-! ## Cycles through a mapping -/

/-- A node that is overridden by a mapping which holds the node, and what the mapping stands for. -/
def loopHeap : Heap where
  nodes := #[
    { kind := "any", metadata := [(.str "schemaOverride", .ofFields [("again", .node 0)])] },
    { kind := "object", children := [(.str "again", .node 0)] }]

/-- The mapping is made into a new node each time, so no path comes back to a node. -/
theorem loopHeap_cutOff {depth : Nat} {ctx : Context} :
    (compileWithin loopHeap depth (.node 0) false ctx).1 = .error .unbounded ∧
    (compileWithin loopHeap depth (.object [(.str "again", .node 0)]) true ctx).1 =
      .error .unbounded := by
  induction depth generalizing ctx with
  | zero => exact ⟨rfl, rfl⟩
  | succ depth ih =>
    refine ⟨ih.2, ?_⟩
    change (compileStep loopHeap _ (.object [(.str "again", .node 0)]) true ctx).1 = _
    exact compileStep_fails rfl trivial ih.1

/-- A cycle through a mapping is not noticed, to whatever depth the walk is run; with the object
node in place of the mapping it is. -/
theorem Heap.overrideBy_loop : loopHeap.DoubleOf 0 1 [(.str "again", .node 0)] ∧
    (∀ depth, (compileWithin loopHeap depth (.node 0) false {}).1 = .error .unbounded) ∧
    (loopHeap.compileAgainst [] (.node 0)).1 = .error .unbounded ∧
    ((loopHeap.overrideBy 0 1).compileAgainst [] (.node 0)).1 = .error (.cyclicSchema "object") := by
  refine ⟨⟨rfl, rfl⟩, fun depth => loopHeap_cutOff.1, compileAgainst_fails ?_, rfl⟩
  rw [compile_of_rootSchema (show rootSchema (.node 0) = .ok (.node 0) from rfl)]
  exact loopHeap_cutOff.1

end WireShape
