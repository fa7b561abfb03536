import Mathlib.Algebra.BigOperators.Ring.Finset
import Mathlib.Algebra.Order.BigOperators.Group.Finset
import WireShape.Proofs.Compile.Bound
import WireShape.Proofs.Compile.Paths

/-!
# Walks end, on cycles too

A node on the path is not entered again, and what overrides a node, where it is a node, may not be
overridden itself. So of each node a path makes two calls at most: one that goes on to what overrides
it, and one that enters it. The last two calls are those that need not enter anything.

A walk that has no memory of its path may go round in a cycle for ever. With the memory it does the
same up to the point where the path comes back to a node, and fails there.

* `Heap.OverridesAreNodes`: what overrides a node is a node.
* `Heap.need`: the calls that a path can still make.
* `endsOn_compileWithin`: that many calls are enough, on every path.
* `compileUnguarded`: the walk without a memory of its path.
* `Heap.compileSchema_ends`: walks end within two calls for each node, and cycles are errors.
-/

namespace WireShape

/-- What overrides a node is a node. -/
def Heap.OverridesAreNodes (h : Heap) : Prop :=
  ∀ n ∈ h.nodes, n.override.isNull = true ∨ ∃ id, n.override = .node id

/-! ## How many calls are enough -/

/-- The calls that a path can make at a position and the plain objects in it. -/
def Schema.calls : Schema → Bool → Nat
  | .node _, true => 1
  | .node _, false => 2
  | .object fields, _ => 3 + fieldObjectCount fields

theorem Schema.calls_false {s : Schema} : s.calls false = s.objectCount + 2 := by
  cases s with
  | node => rfl
  | object => simp only [Schema.calls, Schema.objectCount]; omega

theorem Schema.calls_pos {s : Schema} {overriding : Bool} : 0 < s.calls overriding := by
  cases s <;> cases overriding <;> simp only [Schema.calls] <;> omega

namespace Heap

variable {h : Heap} {path : List NodeId} {s t : Schema} {overriding : Bool} {id : NodeId}

/-- The calls that a path can still make, from a call at a position on. -/
def need (h : Heap) (path : List NodeId) (s : Schema) (overriding : Bool) : Nat :=
  h.remaining (fun n => 2 + n.objectCount) path + s.calls overriding

/-- A position leaves enough calls to each of its parts. -/
theorem need_part (hoff : s.OffPath path) (ht : t ∈ (h.view s).parts) :
    h.need (s.inside path) t false + 1 ≤ h.need path s overriding := by
  unfold need
  rw [Schema.calls_false]
  cases s with
  | object fields =>
    have hcount : t.objectCount ≤ Schema.fieldObjectCount fields := by
      have hparts : (h.view (.object fields)).parts = fields.map (·.2) := by
        simp [Heap.view, Node.parts]
      rw [Schema.fieldObjectCount_eq]
      exact le_sum_of_mem (hparts ▸ ht)
    simp only [Schema.inside, Schema.calls]
    omega
  | node id =>
    have hfresh : path.contains id = false :=
      Bool.eq_false_iff.mpr (List.contains_iff_mem.not.mpr hoff)
    have henter := @remaining_enter h (fun n => 2 + n.objectCount) path id
      (lt_size_of_holds (.inl ht)) hfresh
    have hcount : t.objectCount ≤ (h.get id).objectCount := by
      rw [Node.objectCount_eq]
      exact le_sum_of_mem ht
    have hcalls := @Schema.calls_pos (.node id) overriding
    simp only [Schema.inside]
    omega

theorem remaining_le_nodeCount :
    h.remaining (fun n => 2 + n.objectCount) path ≤ 2 * h.nodeCount := by
  rw [← budget_nil]
  unfold remaining budget
  rw [Finset.mul_sum]
  refine (Finset.sum_le_sum_of_subset ?_).trans (Finset.sum_le_sum fun id _ => ?_)
  · exact fun id hid => Finset.mem_filter.mpr ⟨(Finset.mem_filter.mp hid).1, rfl⟩
  · change 2 + (h.get id).objectCount ≤ 2 * (1 + (h.get id).objectCount)
    omega

/-- Two calls for each node are enough, with two more. -/
theorem need_le : h.need path s false ≤ 2 * h.nodeCount + s.objectCount + 2 := by
  have hle := @remaining_le_nodeCount h path
  unfold need
  rw [Schema.calls_false]
  omega

/-- What overrides a position is a node, and the position is one. -/
theorem OverridesAreNodes.override (hnodes : h.OverridesAreNodes)
    (hoverride : (h.view s).override.isNull = false) (ht : rootSchema (h.view s).override = .ok t) :
    ∃ id id', s = .node id ∧ t = .node id' := by
  have hview : (h.view s).override.isNull = true ∨ ∃ id, (h.view s).override = .node id :=
    Heap.forall_view hnodes (fun _ _ => .inl rfl) s
  obtain hnull | ⟨id', hid'⟩ := hview
  · exact absurd (hoverride.symm.trans hnull) Bool.false_ne_true
  · rw [hid'] at ht
    cases ht
    cases s with
    | object fields => cases hoverride
    | node id => exact ⟨id, id', rfl, rfl⟩

end Heap

/-- A call is not cut off where the depth allows what its path may still need. -/
theorem endsOn_compileWithin {h : Heap} {depth : Nat} {path : List NodeId} {s : Schema}
    {overriding : Bool} (hnodes : h.OverridesAreNodes) (hdepth : h.need path s overriding ≤ depth) :
    EndsOn path (compileWithin h depth s overriding) := by
  induction depth generalizing path s overriding with
  | zero =>
    have hcalls := @Schema.calls_pos s overriding
    unfold Heap.need at hdepth
    omega
  | succ depth ih =>
    refine EndsOn.compileStep (fun t hoverride hfirst ht => ih ?_) ?_
    · -- A node that is overridden leaves one call less to what overrides it.
      obtain ⟨id, id', rfl, rfl⟩ := hnodes.override hoverride ht
      subst hfirst
      simp only [Heap.need, Schema.calls] at hdepth ⊢
      omega
    · intro t ht hoff
      have hpart := @Heap.need_part _ _ _ _ overriding hoff ht
      exact ih (by omega)

theorem Heap.need_le_depthBound {h : Heap} {path : List NodeId} {s : Schema} :
    h.need path s false ≤ h.depthBound s := by
  refine need_le.trans ?_
  unfold depthBound
  omega

/-- The depth to which walks are run is as good as any that is enough. -/
theorem compileWithin_eq_compileSchema {h : Heap} {depth : Nat} {s : Schema} {ctx : Context}
    (hnodes : h.OverridesAreNodes) (hdepth : h.need ctx.active s false ≤ depth) :
    compileWithin h depth s false ctx = h.compileSchema s ctx := by
  have hends :=
    (endsOn_compileWithin hnodes (le_refl (h.need ctx.active s false))).ne_unbounded rfl
  have hsame : ∀ {depth}, h.need ctx.active s false ≤ depth → compileWithin h depth s false ctx =
      compileWithin h (h.need ctx.active s false) s false ctx :=
    fun hdepth => (noShallower_compileWithin hdepth ctx).resolve_left hends
  exact (hsame hdepth).trans (hsame Heap.need_le_depthBound).symm

/-! ## Without a memory of the path -/

/-- A step that does not know on which path it is made. -/
def Walk.forgetful {α : Type} (step : Walk α) : Walk α := fun ctx =>
  let (r, after) := step (ctx.onPath [])
  (r, after.onPath ctx.active)

/-- The walk that nests at most `depth` deep, none of whose calls knows on which path it is made. -/
def compileUnguarded (h : Heap) : Nat → Recur
  | 0 => fun _ _ => throw .unbounded
  | depth + 1 => fun s overriding =>
    (compileStep h (compileUnguarded h depth) s overriding).forgetful

theorem UnlessCyclic.forgetful {α : Type} {path path' : List NodeId} {x y : Walk α}
    (hxy : UnlessCyclic path [] x y) : UnlessCyclic path path' x y.forgetful := by
  intro ctx hctx
  obtain hcyclic | ⟨hpath, hsame⟩ := hxy ctx hctx
  · exact .inl hcyclic
  · refine .inr ⟨hpath, ?_⟩
    have hforget : (ctx.onPath path').onPath [] = ctx.onPath [] := rfl
    unfold Walk.forgetful
    rw [hforget, hsame]
    rfl

/-- A walk does what it would do without a memory of its path, unless it fails for a cycle. -/
theorem unlessCyclic_unguarded {h : Heap} {depth : Nat} {path path' : List NodeId} {s : Schema}
    {overriding : Bool} : UnlessCyclic path path' (compileWithin h depth s overriding)
      (compileUnguarded h depth s overriding) := by
  induction depth generalizing path path' s overriding with
  | zero => exact UnlessCyclic.throw
  | succ depth ih =>
    have hoff : s.OffPath path → s.OffPath [] := fun hoff => hoff.mono (List.nil_subset path)
    exact ((UnlessCyclic.rules hoff).compileStep (.refl h) rfl (fun t _ _ _ => ih) fun t _ _ =>
      ih).forgetful

/-! ## Walks end -/

/-- Where only nodes override nodes, every walk ends within two calls for each node, plain objects
included, and two more: no depth beyond that changes what it does, and it is not cut off. A walk that
would go on for ever without a memory of its path fails for a cycle. -/
theorem Heap.compileSchema_ends (h : Heap) (s : Schema) (ctx : Context)
    (hnodes : h.OverridesAreNodes) :
    (∀ depth, 2 * (h.nodeCount + s.objectCount) + 2 ≤ depth →
      compileWithin h depth s false ctx = h.compileSchema s ctx) ∧
    (h.compileSchema s ctx).1 ≠ .error .unbounded ∧
    ((∀ depth, (compileUnguarded h depth s false ctx).1 = .error .unbounded) →
      ∃ kind, (h.compileSchema s ctx).1 = .error (.cyclicSchema kind)) := by
  have hends : (h.compileSchema s ctx).1 ≠ .error .unbounded :=
    (endsOn_compileWithin hnodes need_le_depthBound).ne_unbounded rfl
  refine ⟨fun depth hdepth => ?_, hends, fun hforever => ?_⟩
  · refine compileWithin_eq_compileSchema hnodes (need_le.trans ?_)
    omega
  · obtain hcyclic | ⟨_, hsame⟩ :=
      @unlessCyclic_unguarded h (h.depthBound s) _ ctx.active s false ctx rfl
    · exact hcyclic
    · have hcut : (h.compileSchema s ctx).1 = .error .unbounded := by
        rw [← hforever (h.depthBound s)]
        exact (congrArg Prod.fst hsame).symm
      exact absurd hcut hends

/-- An object fails as its first child does. -/
theorem compileStep_fails {h : Heap} {recur : Recur} {s child : Schema} {overriding : Bool}
    {key : Atom} {rest : List (Atom × Schema)} {ctx : Context} {fault : Fault}
    (hview : h.view s = { kind := "object", children := (key, child) :: rest })
    (hoff : s.OffPath ctx.active)
    (hchild : (recur child false (ctx.onPath (s.inside ctx.active))).1 = .error fault) :
    (compileStep h recur s overriding ctx).1 = .error fault := by
  let n : Node := { kind := "object", children := (key, child) :: rest }
  have hchildren : (compileChildren h recur n.children (ctx.onPath (s.inside ctx.active))).1 =
      .error fault := bind_fails (bind_fails hchild)
  have hobject : (compileObject h recur n (ctx.onPath (s.inside ctx.active))).1 = .error fault :=
    bind_fails hchildren
  have hbody : (compileBody h recur n (ctx.onPath (s.inside ctx.active))).1 = .error fault :=
    bind_fails hobject
  have hposition : (Walk.atPosition s "object" (compileBody h recur n) ctx).1 = .error fault := by
    rw [Walk.atPosition_off hoff]
    exact hbody
  rw [compileStep_eq, hview]
  exact bind_fails hposition

/-- An object whose only child is overridden by the object. -/
def ringHeap : Heap where
  nodes := #[{ kind := "object", children := [(.str "next", .node 1)] },
    { kind := "string", metadata := [(.str "schemaOverride", .node 0)] }]

/-- Without a memory of its path the walk of the ring is cut off at every depth. -/
theorem ringHeap_unguarded {depth : Nat} {ctx : Context} :
    (∀ overriding, (compileUnguarded ringHeap depth (.node 0) overriding ctx).1 =
      .error .unbounded) ∧
    (compileUnguarded ringHeap depth (.node 1) false ctx).1 = .error .unbounded := by
  induction depth generalizing ctx with
  | zero => exact ⟨fun _ => rfl, rfl⟩
  | succ depth ih =>
    refine ⟨fun overriding => ?_, ih.1 true⟩
    change (compileStep ringHeap _ (.node 0) overriding (ctx.onPath [])).1 = _
    have hoff : Schema.OffPath (ctx.onPath []).active (.node 0) := List.not_mem_nil
    exact compileStep_fails rfl hoff ih.2

/-- The ring has two nodes, so its walk ends within six calls; it ends in the cycle. -/
theorem Heap.compileSchema_ends_ring : ringHeap.OverridesAreNodes ∧
    compileWithin ringHeap 6 (.node 0) false {} = ringHeap.compileSchema (.node 0) {} ∧
    (∀ depth, (compileUnguarded ringHeap depth (.node 0) false {}).1 = .error .unbounded) ∧
    (ringHeap.compileSchema (.node 0) {}).1 = .error (.cyclicSchema "object") := by
  have hnodes : ringHeap.OverridesAreNodes := by
    simp only [Heap.OverridesAreNodes, ringHeap, List.mem_toArray, List.forall_mem_cons,
      List.not_mem_nil, false_implies, implies_true, and_true]
    exact ⟨.inl rfl, .inr ⟨0, rfl⟩⟩
  have hforever : ∀ depth,
      (compileUnguarded ringHeap depth (.node 0) false {}).1 = .error .unbounded :=
    fun depth => ringHeap_unguarded.1 false
  obtain ⟨hdeep, _, hcycle⟩ := Heap.compileSchema_ends ringHeap (.node 0) {} hnodes
  obtain ⟨kind, hcyclic⟩ := hcycle hforever
  have hkind : kind = "object" := by
    rw [← hdeep 6 (by decide)] at hcyclic
    cases hcyclic
    rfl
  exact ⟨hnodes, hdeep 6 (by decide), hforever, hkind ▸ hcyclic⟩

end WireShape
