import Mathlib.Data.List.Pairwise
import WireShape.Proofs.Compile.Created
import WireShape.Proofs.Compile.Keywords

/-!
# Forbidden fields are left out

A forbidden node gives no schema, and an object leaves its key out of its properties and of its
required names. The walk asks whether the class of a node is defined before it asks whether the node
is forbidden, so this holds of forbidden nodes without a class and of those whose class is not
defined; where an earlier sibling has defined the class, the forbidden one is shown
(`Heap.compile_forbidden_visit`).

* `Heap.LeavesOut`: the forbidden positions that give no schema in a state.
* `Heap.LeavesOut.compileWithin_eq`: such a position gives none and leaves the state as it was.
* `Heap.forbidden_absent`: the same, and no object shows a key of such a child.
-/

namespace WireShape

open Value (Fields)

/-- A forbidden position with nothing in its place, whose class, if it has one, is not defined. -/
structure Heap.LeavesOut (h : Heap) (ctx : Context) (s : Schema) : Prop where
  override : (h.view s).override.isNull = true
  literal : (h.view s).isLiteral = false
  forbidden : (h.view s).isForbidden = true
  isNew : ∃ c, (h.view s).class? = .ok c ∧ ctx.IsNew c

section Absence

variable {h : Heap} {depth : Nat} {s : Schema} {n : Node} {ctx after : Context}

/-- A forbidden position whose class is not defined gives none and leaves the state as it was. -/
theorem Heap.LeavesOut.compileWithin_eq (hs : h.LeavesOut ctx s) (overriding : Bool) :
    compileWithin h (depth + 1) s overriding ctx = (.ok none, ctx) := by
  obtain ⟨c, hclass, hnew⟩ := hs.isNew
  exact runs_compileStep_iff.mpr (.forbidden hs.override hs.literal hclass hnew hs.forbidden)

/-- What is not defined later was not defined before. -/
theorem Heap.LeavesOut.before (hs : h.LeavesOut after s) (hext : after.Extends ctx) :
    h.LeavesOut ctx s := by
  obtain ⟨c, hclass, hnew⟩ := hs.isNew
  refine ⟨hs.override, hs.literal, hs.forbidden, c, hclass, fun key hkey => ?_⟩
  refine Bool.eq_false_iff.mpr fun hhas => ?_
  exact Bool.false_ne_true ((hnew key hkey).symm.trans (hext.has _ _ hhas))

/-! ## The children of an object -/

/-- A successful call at such a position has no outcome. -/
theorem Heap.LeavesOut.outcome (hs : h.LeavesOut ctx s) {r : Compiled}
    (hrun : Runs (compileWithin h depth s false) ctx r after) : r = none := by
  cases depth with
  | zero => exact absurd hrun not_runs_throw
  | succ depth => exact (Runs.unique hrun (hs.compileWithin_eq false)).1

/-- Of positions compiled one after the other, those that are still left out in the end have no
outcome. -/
theorem outcomes_leavesOut {parts : List Schema} {outcomes : List Compiled}
    (hchain : Outcomes (compileWithin h depth) parts ctx outcomes after) :
    List.Forall₂ (fun t r => h.LeavesOut after t → r = none) parts outcomes := by
  induction hchain with
  | nil => exact .nil
  | cons head tail ih =>
    refine .cons (fun ht => ?_) ih
    have hlater := Chain.extends (fun _ _ _ _ _ hr => (walked_of_runs hr).extends) tail
    exact (ht.before ((walked_of_runs head).extends.trans hlater)).outcome head

/-- A key that a child with an outcome stands under. -/
def ShownBy (pairs : List ((Atom × Schema) × Compiled)) (key : Atom) : Prop :=
  ∃ p ∈ pairs, p.1.1 = key ∧ p.2 ≠ none

/-- Taking in one more child shows no key but its own. -/
theorem addChild_shown {pairs : List ((Atom × Schema) × Compiled)} {acc : Fields × List Value}
    (hacc : (∀ e ∈ acc.1, ShownBy pairs e.1) ∧ ∀ j, .atom j ∈ acc.2 → ShownBy pairs j)
    {p : (Atom × Schema) × Compiled} (hp : p ∈ pairs) :
    (∀ e ∈ (addChild h acc p.1 p.2).1, ShownBy pairs e.1) ∧
      ∀ j, .atom j ∈ (addChild h acc p.1 p.2).2 → ShownBy pairs j := by
  obtain ⟨hproperties, hrequired⟩ := hacc
  cases houtcome : p.2 with
  | none => exact ⟨hproperties, hrequired⟩
  | some schema =>
    have hown : ShownBy pairs p.1.1 := ⟨p, hp, rfl, by simp [houtcome]⟩
    refine ⟨fun e he => ?_, fun j hj => ?_⟩
    · rcases OrderedMap.mem_insert he with hold | ⟨_, hkey | ⟨⟨v, hold⟩, _⟩⟩
      · exact hproperties e hold
      · rw [hkey]
        exact hown
      · exact hproperties (e.1, v) hold
    · dsimp only [addChild] at hj
      split at hj
      · rcases List.mem_append.mp hj with hold | hnew
        · exact hrequired j hold
        · cases List.mem_singleton.mp hnew
          exact hown
      · exact hrequired j hj

/-- Properties and required names are keys of children that have an outcome. -/
theorem childFields_shown {outcomes : List Compiled} :
    (∀ e ∈ (childFields h n outcomes).1, ShownBy (n.children.zip outcomes) e.1) ∧
      ∀ j, .atom j ∈ (childFields h n outcomes).2 → ShownBy (n.children.zip outcomes) j := by
  unfold childFields
  refine List.foldlRecOn (motive := fun acc : Fields × List Value =>
    (∀ e ∈ acc.1, ShownBy (n.children.zip outcomes) e.1) ∧
      ∀ j, .atom j ∈ acc.2 → ShownBy (n.children.zip outcomes) j) _ _ ?_ ?_
  · exact ⟨fun _ he => absurd he List.not_mem_nil, fun _ hj => absurd hj List.not_mem_nil⟩
  · exact fun _ hacc _ hp => addChild_shown hacc hp

/-- Of children with different keys none shows the key of one that has no outcome. -/
theorem ShownBy.ne_key {children : List (Atom × Schema)} {outcomes : List Compiled} {j key : Atom}
    {child : Schema} (hkeys : OrderedMap.Separate children)
    (hlength : children.length ≤ outcomes.length)
    (hmem : ((key, child), none) ∈ children.zip outcomes) (hj : ShownBy (children.zip outcomes) j) :
    (j == key) = false := by
  obtain ⟨p, hp, rfl, hshown⟩ := hj
  have hpairs : (children.zip outcomes).Pairwise fun p q => (p.1.1 == q.1.1) = false := by
    rw [← List.pairwise_map (f := Prod.fst) (R := fun e f : Atom × Schema => (e.1 == f.1) = false),
      List.map_fst_zip hlength]
    exact hkeys
  have : Std.Symm fun p q : (Atom × Schema) × Compiled => (p.1.1 == q.1.1) = false :=
    ⟨fun _ _ hpq => by rwa [BEq.comm]⟩
  refine hpairs.forall hp hmem ?_
  rintro rfl
  exact hshown rfl

/-- No key of a child that is left out in the end is a property or a required name. -/
theorem compileObject_leavesOut {fields : Fields} (hkeys : OrderedMap.Separate n.children)
    (hrun : Runs (compileObject h (compileWithin h depth) n) ctx fields after) :
    ∃ properties required additional, fields = closeObject n properties required additional ∧
      ∀ key child, (key, child) ∈ n.children → h.LeavesOut after child →
        (∀ e ∈ properties, (e.1 == key) = false) ∧
          ∀ j, .atom j ∈ required → (j == key) = false := by
  obtain ⟨outcomes, hchain, rfl⟩ := runs_compileObject_iff.mp hrun
  obtain ⟨first, more, middle, hfirst, hmore, rfl⟩ := Chain.append_iff.mp hchain
  have hlength : n.children.length = first.length := by simpa using hfirst.length_eq.symm
  have hzip : n.children.zip (first ++ more) = n.children.zip first := zip_append_left hlength
  refine ⟨_, _, _, rfl, fun key child hchild hout => ?_⟩
  have hpaired : List.Forall₂ (fun e r => (e, r) ∈ n.children.zip first) n.children first :=
    List.forall₂_iff_zip.mpr ⟨hlength, fun hmem => hmem⟩
  obtain ⟨r, _, hmem⟩ := forall₂_left hpaired hchild
  have hend : after.Extends middle :=
    Chain.extends (fun _ _ _ _ _ hr => (walked_of_runs hr).extends) hmore
  have houtcomes := List.forall₂_map_left_iff.mp (outcomes_leavesOut hfirst)
  obtain rfl : r = none := (List.forall₂_iff_zip.mp houtcomes).2 hmem (hout.before hend)
  have hle : n.children.length ≤ (first ++ more).length := by
    rw [List.length_append]
    omega
  rw [← hzip] at hmem
  exact ⟨fun e he => (childFields_shown.1 e he).ne_key hkeys hle hmem,
    fun j hj => (childFields_shown.2 j hj).ne_key hkeys hle hmem⟩

end Absence

/-- A forbidden node whose class is not defined gives no schema and leaves the state as it was, at
whatever depth and with whatever definitions; and a compiled object has none of the keys of such
children among its properties and required names. -/
theorem Heap.forbidden_absent (h : Heap) (depth : Nat) :
    (∀ s overriding ctx, h.LeavesOut ctx s →
      compileWithin h (depth + 1) s overriding ctx = (.ok none, ctx)) ∧
    ∀ n ctx fields after, OrderedMap.Separate n.children →
      Runs (compileObject h (compileWithin h depth) n) ctx fields after →
        ∃ properties required additional, fields = closeObject n properties required additional ∧
          ∀ key child, (key, child) ∈ n.children → h.LeavesOut after child →
            (∀ e ∈ properties, (e.1 == key) = false) ∧
              ∀ j, .atom j ∈ required → (j == key) = false :=
  ⟨fun _ overriding _ hs => hs.compileWithin_eq overriding,
    fun _ _ _ _ hkeys hrun => compileObject_leavesOut hkeys hrun⟩

/-! ## Classes that are defined already -/

/-- Visits with a host and a guest, both persons; the guest is forbidden. The second visit names the
guest first. -/
def visitHeap : Heap where
  nodes := #[{ kind := "string" },
    { kind := "object", children := [(.str "name", .node 0)],
      metadata := [(.str "className", .str "Person")] },
    { kind := "object", children := [(.str "name", .node 0)],
      flags := [("presence", .str "forbidden")], metadata := [(.str "className", .str "Person")] },
    { kind := "object", children := [(.str "host", .node 1), (.str "guest", .node 2)] },
    { kind := "object", children := [(.str "guest", .node 2), (.str "host", .node 1)] },
    { kind := "object", children := [(.str "note", .node 0), (.str "guest", .node 2)] }]

/-- A guest is left out where nobody is a person yet, and no note shows a guest. -/
theorem Heap.forbidden_absent_visit :
    compileWithin visitHeap 1 (.node 2) false {} = (.ok none, {}) ∧
    ∃ fields after properties required additional,
      Runs (compileObject visitHeap (compileWithin visitHeap 1) (visitHeap.get 5)) {} fields after ∧
        fields = closeObject (visitHeap.get 5) properties required additional ∧
          (∀ e ∈ properties, (e.1 == Atom.str "guest") = false) ∧
            ∀ j, .atom j ∈ required → (j == Atom.str "guest") = false := by
  have hguest : ∀ ctx : Context, ctx.has (.str "schemas") (.str "Person") = false →
      visitHeap.LeavesOut ctx (.node 2) := by
    intro ctx hnew
    refine ⟨rfl, rfl, rfl, some (.str "schemas", .str "Person"), rfl, fun key hkey => ?_⟩
    cases hkey
    exact hnew
  obtain ⟨fields, after, hrun, hnew⟩ : ∃ fields after,
      Runs (compileObject visitHeap (compileWithin visitHeap 1) (visitHeap.get 5)) {} fields after ∧
        after.has (.str "schemas") (.str "Person") = false := ⟨_, _, rfl, rfl⟩
  have hkeys : OrderedMap.Separate (visitHeap.get 5).children := by
    unfold OrderedMap.Separate
    decide
  obtain ⟨properties, required, additional, hfields, habsent⟩ :=
    (forbidden_absent visitHeap 1).2 _ _ _ _ hkeys hrun
  obtain ⟨hproperties, hrequired⟩ :=
    habsent (.str "guest") (.node 2) (List.mem_cons_of_mem _ List.mem_cons_self) (hguest after hnew)
  exact ⟨(forbidden_absent visitHeap 0).1 (.node 2) false {} (hguest {} rfl), fields, after,
    properties, required, additional, hrun, hfields, hproperties, hrequired⟩

/-- A forbidden guest is shown where the host comes first and has made persons a class, and is left
out where the guest comes first. -/
theorem Heap.compile_forbidden_visit :
    (visitHeap.get 2).isForbidden = true ∧ (visitHeap.get 2).override.isNull = true ∧
    ((visitHeap.get 2).metaValue "swaggerOverride").isNull = true ∧
    ∃ fields after properties fields' after' properties',
      Runs (visitHeap.compile (.node 3)) {} (some (.ofEntries fields)) after ∧
      OrderedMap.get? fields (.str "properties") = some (.ofEntries properties) ∧
      OrderedMap.contains properties (.str "guest") = true ∧
      Runs (visitHeap.compile (.node 4)) {} (some (.ofEntries fields')) after' ∧
      OrderedMap.get? fields' (.str "properties") = some (.ofEntries properties') ∧
      OrderedMap.contains properties' (.str "guest") = false :=
  ⟨rfl, rfl, rfl, _, _, _, _, _, _, rfl, rfl, rfl, rfl, rfl, rfl⟩

end WireShape
