import WireShape.Document
import WireShape.Proofs.Json.Reordered
import WireShape.Proofs.Spec.Order

/-!
# Documents and the order of schemas

In which order the schemas of a source are declared shows in its document only as the order of keys,
if the schemas can be declared in any order. The digest is that of a text with sorted keys, so it does
not show the order at all.

* `Document.build_any_order`: documents for two orders of the schemas, and their digests.
-/

namespace WireShape

open Value (Fields)

namespace Document

open Spec (documentFields)

/-- The parts of a published document in their order. -/
def published (version info : Value) (definition : Fields) : Value :=
  .ofEntries (Fields.merge [(.str "openapi", version), (.str "info", info)] definition)

variable {version info : Value} {tags : List Value} {paths : Fields} {c c' : Components}
  {T : Atom → Atom → Prop} {d d' : Value}

/-- Only the definitions of a document can stand in another order. -/
theorem published_documentFields : published version info (documentFields tags paths c) =
    .ofEntries [(.str "openapi", version), (.str "info", info), (.str "tags", .list tags),
      (.str "paths", .ofEntries paths), (.str "components", c.toValue)] := rfl

theorem published_reordered (h : c.Reordered T c') :
    (published version info (documentFields tags paths c)).Reordered
      (published version info (documentFields tags paths c')) := by
  rw [published_documentFields, published_documentFields]
  exact .map (.refl _) rfl (.cons .refl (.cons .refl (.cons .refl (.cons .refl
    (.cons h.value .nil)))))

theorem published_sameText {fallback : Json.Fallback}
    (h : Json.SameText fallback c.toValue c'.toValue) :
    Json.SameText fallback (published version info (documentFields tags paths c))
      (published version info (documentFields tags paths c')) := by
  rw [published_documentFields, published_documentFields]
  have hkeys : (["openapi", "info", "tags", "paths", "components"].map Atom.str).Pairwise
      fun j k => (j == k) = false := by decide
  refine Json.sameText_map ⟨_, .refl _, .cons ⟨rfl, .refl⟩ (.cons ⟨rfl, .refl⟩ (.cons ⟨rfl, .refl⟩
    (.cons ⟨rfl, .refl⟩ (.cons ⟨rfl, h⟩ .nil))))⟩ ?_ ⟨_, List.mem_cons_self, rfl⟩
  exact OrderedMap.separate_iff.mpr hkeys

/-- Values with the same text have the same digest. -/
theorem digest_sameText (h : Json.SameText Json.refuse d d') {hash : String} :
    digest d = .ok hash ↔ digest d' = .ok hash := by
  have hwrite : ∀ {d : Value}, digest d = .ok hash ↔
      ∃ text, Json.writeAt Json.compact Json.refuse 0 d = .ok text ∧ Sha256.hexDigest text = hash := by
    intro d
    unfold digest
    rw [bind_eq_ok_iff]
    exact exists_congr fun _ => and_congr_right fun _ => ⟨Except.ok.inj, congrArg Except.ok⟩
  rw [hwrite, hwrite]
  exact exists_congr fun text => and_congr_left fun _ => h 0 text

/-- A document is published with a specification under settings that the source has no part in. -/
theorem build_eq_ok {heap : Heap} {env : Environment} {source : Source} {overrides : Value}
    (hbuild : (build heap env source overrides).1 = .ok d) :
    ∃ settings definition, Settings.load env overrides = .ok settings ∧
      (Spec.build heap env source (Settings.get settings "STRICT_PARAMETERS")
        (Settings.get settings "HEADER_PREFIX")).1 = .ok definition ∧
      d = published (Settings.get settings "OPENAPI_VERSION") (.ofFields
        [("title", Settings.get settings "API_TITLE"),
          ("version", Settings.get settings "API_VERSION")]) definition := by
  unfold build at hbuild
  cases hload : Settings.load env overrides with
  | error =>
    rw [hload] at hbuild
    cases hbuild
  | ok settings =>
    rw [hload] at hbuild
    dsimp only at hbuild
    cases hspec : (Spec.build heap env source (Settings.get settings "STRICT_PARAMETERS")
        (Settings.get settings "HEADER_PREFIX")).1 with
    | error =>
      rw [hspec] at hbuild
      cases hbuild
    | ok definition =>
      rw [hspec] at hbuild
      exact ⟨settings, definition, rfl, hspec, (Except.ok.inj hbuild).symm⟩

/-- A document is published with its digest if it has both. -/
theorem buildWithDigest_eq_ok_iff {heap : Heap} {env : Environment} {source : Source}
    {strict : Value} {hash : String} :
    (buildWithDigest heap env source strict).1 = .ok (d, hash) ↔
      (build heap env source (.ofFields [("STRICT_PARAMETERS", strict)])).1 = .ok d ∧
        digest d = .ok hash := by
  unfold buildWithDigest
  dsimp only
  rw [bind_eq_ok_iff]
  constructor
  · rintro ⟨_, hbuild, hrest⟩
    obtain ⟨_, hhash, heq⟩ := bind_eq_ok_iff.mp hrest
    cases heq
    exact ⟨hbuild, hhash⟩
  · rintro ⟨hbuild, hhash⟩
    exact ⟨d, hbuild, bind_eq_ok_iff.mpr ⟨hash, hhash, rfl⟩⟩

variable {heap : Heap} {env : Environment} {source : Source} {es fs : Fields}
  {identity other : Option Nat}

/-- Documents for two orders of the schemas differ in the order of keys, and have one digest. -/
theorem build_reordered {overrides : Value} (hschemas : source.schemas = some (.map es identity))
    (hperm : es.Perm fs) (hsource : source.Unordered heap es)
    (hbuild : (build heap env source overrides).1 = .ok d)
    (hbuild' : (build heap env { source with schemas := some (.map fs other) } overrides).1 =
      .ok d') :
    d.Reordered d' ∧ ∀ hash, digest d = .ok hash ↔ digest d' = .ok hash := by
  obtain ⟨settings, _, hload, hspec, rfl⟩ := build_eq_ok hbuild
  obtain ⟨settings', _, hload', hspec', rfl⟩ := build_eq_ok hbuild'
  cases hload.symm.trans hload'
  obtain ⟨_, hbuilding⟩ := Spec.building_of_build hspec
  obtain ⟨_, hbuilding'⟩ := Spec.building_of_build hspec'
  obtain ⟨tags, paths, reg, reg', hregs, rfl, rfl⟩ :=
    Spec.Building.reordered hsource hperm hschemas rfl hbuilding hbuilding'
  refine ⟨published_reordered hregs.components, fun hash => digest_sameText (published_sameText ?_)⟩
  exact hregs.components.sameText hregs.apart (fun _ _ hn => (hsource.schemas.text_names hn).2)
    hregs.schemas

/-- In which order the schemas of a source are declared shows in its document only as the order of
keys, and its digest is the same in every order, if there is one. -/
theorem build_any_order (hschemas : source.schemas = some (.map es identity)) (hperm : es.Perm fs)
    (hsource : source.Unordered heap es) :
    let permuted := { source with schemas := some (.map fs other) }
    (∀ overrides d d', (build heap env source overrides).1 = .ok d →
      (build heap env permuted overrides).1 = .ok d' → d.Reordered d') ∧
    ∀ strict d d' hash, (buildWithDigest heap env source strict).1 = .ok (d, hash) →
      (build heap env permuted (.ofFields [("STRICT_PARAMETERS", strict)])).1 = .ok d' →
        (buildWithDigest heap env permuted strict).1 = .ok (d', hash) := by
  intro permuted
  refine ⟨fun overrides d d' hbuild hbuild' =>
    (build_reordered hschemas hperm hsource hbuild hbuild').1, ?_⟩
  intro strict d d' hash hboth hbuild'
  obtain ⟨hbuild, hhash⟩ := buildWithDigest_eq_ok_iff.mp hboth
  obtain ⟨_, hsame⟩ := build_reordered hschemas hperm hsource hbuild hbuild'
  exact buildWithDigest_eq_ok_iff.mpr ⟨hbuild', (hsame hash).mp hhash⟩

/-- A keeper with a name; keepers are a class. -/
def keeper : Node where
  kind := "object"
  children := [(.str "name", .node 0)]
  metadata := [(.str "className", .str "Keeper")]

/-- Two homes, one with a keeper and one with a copy of it that is required. -/
def zooHeap : Heap where
  nodes := #[{ kind := "string" }, keeper, { keeper with flags := [("presence", .str "required")] },
    { kind := "object", children := [(.str "keeper", .node 1)] },
    { kind := "object", children := [(.str "keeper", .node 2)] }]

def zooSchemas : Fields := [(.str "Cage", .node 3), (.str "Tank", .node 4)]

/-- A source that declares both homes and has a route that takes one of them. -/
def zooSource : Source where
  tag := some (.ofFields [("name", .str "zoo")])
  schemas := some (.ofEntries zooSchemas)
  parameters := some (.ofEntries [])
  routes := some [.ofFields [("path", .str "/tanks"), ("method", .str "post"),
    ("summary", .str "Add"), ("body", .ofFields
      [("content", .ofEntries [(.str "application/json", .node 4)]), ("description", .null),
        ("required", .null)])]]

/-- A node of the zoo: its class, if it has one, is that of keepers. -/
structure IsZooNode (n : Node) : Prop where
  plain : n.literal.isNull = true
  allowed : n.isForbidden = false
  keepers : ∀ b name, n.class? = .ok (some (b, name)) →
    b = .str "schemas" ∧ name = .str "Keeper" ∧ keeper.CopyOf n

theorem isZooNode (s : Schema) : IsZooNode (zooHeap.view s) := by
  have hcopy : keeper.CopyOf { keeper with flags := [("presence", .str "required")] } := by
    refine ⟨fun name hname => ?_, rfl⟩
    change Value.null = OrderedMap.getD [("presence", Value.str "required")] name .null
    rw [OrderedMap.getD, OrderedMap.get?_cons, if_neg (by simpa using hname.symm)]
    rfl
  refine Heap.forall_view ?_ (fun _ _ => ⟨rfl, rfl, fun _ _ h => by cases h⟩) s
  simp only [zooHeap, List.mem_toArray, List.forall_mem_cons, List.not_mem_nil, false_implies,
    implies_true, and_true]
  refine ⟨⟨rfl, rfl, fun _ _ h => by cases h⟩, ⟨rfl, rfl, fun _ _ h => ?_⟩,
    ⟨rfl, rfl, fun _ _ h => ?_⟩, ⟨rfl, rfl, fun _ _ h => by cases h⟩,
    ⟨rfl, rfl, fun _ _ h => by cases h⟩⟩
  · cases h
    exact ⟨rfl, rfl, .refl⟩
  · cases h
    exact ⟨rfl, rfl, hcopy⟩

/-- The schema of a home, with what is said of required fields. -/
def homeSchema (required : Fields) : Value :=
  .ofEntries ([(.str "type", .str "object"),
    (.str "properties", .ofFields [("keeper", reference "schemas" "Keeper")])] ++ required ++
      [(.str "additionalProperties", .bool false)])

theorem zoo_unordered : zooHeap.Unordered zooSchemas where
  separate := OrderedMap.separate_iff.mpr (by decide)
  named := by simp [zooSchemas, Atom.isText]
  identities := by simp [zooSchemas, Value.identity?]
  uniform :=
    { plain := fun _ => (isZooNode _).plain
      named := fun _ hclass => by
        obtain ⟨rfl, rfl, _⟩ := (isZooNode _).keepers _ _ hclass
        exact ⟨rfl, rfl⟩
      allowed := fun _ _ => (isZooNode _).allowed
      copies := fun _ _ hclass hclass' =>
        ((isZooNode _).keepers _ _ hclass).2.2.symm.trans ((isZooNode _).keepers _ _ hclass').2.2 }
  classes := by
    intro t n _ hclass
    obtain ⟨_, rfl, _⟩ := (isZooNode t).keepers _ _ hclass
    decide
  shapes := by
    refine List.pairwise_cons.mpr ⟨fun e he => ?_, List.pairwise_singleton _ _⟩
    obtain rfl : e = (.str "Tank", .node 4) := List.mem_singleton.mp he
    have hallowed : ∀ v, zooHeap.NoForbiddenClassIn v := fun _ _ _ t _ _ => (isZooNode t).allowed
    rintro d d' shape ⟨_, _, hd⟩ ⟨_, _, hd'⟩ hshape hshape'
    have hrun : Runs (zooHeap.compile (.node 3)) {} (some (homeSchema [])) _ := rfl
    have hrun' : Runs (zooHeap.compile (.node 4)) {}
      (some (homeSchema [(.str "required", .list [.str "keeper"])])) _ := rfl
    cases (hallowed _).one_outcome hrun hd
    cases (hallowed _).one_outcome hrun' hd'
    have hne : (Json.canonical zooHeap.describe (homeSchema [])).toOption ≠
        (Json.canonical zooHeap.describe
          (homeSchema [(.str "required", .list [.str "keeper"])])).toOption := by decide +kernel
    rw [hshape, hshape'] at hne
    exact hne rfl

theorem zooSource_unordered : zooSource.Unordered zooHeap zooSchemas :=
  ⟨zoo_unordered, fun _ _ hparameters => by
    cases hparameters
    exact fun _ _ _ _ _ hp => by cases hp⟩

theorem build_any_order_zoo : zooSource.schemas = some (.map zooSchemas none) ∧
    zooSchemas.Perm zooSchemas.reverse ∧ zooSource.Unordered zooHeap zooSchemas ∧
    ∃ d d', (build zooHeap [] zooSource .null).1 = .ok d ∧
      (build zooHeap [] { zooSource with schemas := some (.map zooSchemas.reverse none) } .null).1 =
        .ok d' ∧ d.Reordered d' := by
  have hperm : zooSchemas.Perm zooSchemas.reverse := (List.reverse_perm _).symm
  obtain ⟨hsame, _⟩ := @build_any_order zooHeap [] _ _ _ none none rfl hperm zooSource_unordered
  have hok : (build zooHeap [] zooSource .null).1.isOk = true := by decide +kernel
  have hok' : (build zooHeap []
    { zooSource with schemas := some (.map zooSchemas.reverse none) } .null).1.isOk = true := by
      decide +kernel
  obtain ⟨d, hbuild⟩ := exists_of_isOk hok
  obtain ⟨d', hbuild'⟩ := exists_of_isOk hok'
  exact ⟨rfl, hperm, zooSource_unordered, d, d', hbuild, hbuild', hsame .null d d' hbuild hbuild'⟩

end Document

end WireShape
