import WireShape.Proofs.Compile.Independence
import WireShape.Proofs.Json.Exact
import WireShape.Proofs.Spec.Names

/-!
# Schemas of one shape share a name

While the routes of a source are gone through, a shape that has a name keeps it: a name is given to
a shape only if the shape has none. So two schemas of bodies or responses that are compiled to one
shape get one name, wherever they stand. Schemas that are declared have the names under which they
are declared, whatever their shape.

A schema that is compiled to a bare reference has the name to which it refers, and its shape is not
looked up. A title beside the reference does not count for the shape, but the schema is published
under it (`Spec.shared_names_alias`). So the names agree if both schemas are bare references or
neither is.

* `Registry.Shares`: a name found by shape, or read off a bare reference.
* `Registry.sharing`: the registries that keep the names of shapes.
* `Registry.Naming.shares`: choosing a name keeps them.
* `Spec.shared_names`: schemas of one shape have one name.
-/

namespace WireShape

open Value (Fields)

/-- A schema that consists of a reference into the schemas. -/
def Value.IsBare (schema : Value) : Prop :=
  ∃ target, referenceName? schema "schemas" = .ok (some target)

/-- Bare references of one shape refer to one name. -/
theorem referenceName?_of_shape {describe : Describe} {schema schema' target target' : Value}
    (h : referenceName? schema "schemas" = .ok (some target))
    (h' : referenceName? schema' "schemas" = .ok (some target'))
    (hshape : Json.canonical describe schema = Json.canonical describe schema') :
    target = target' := by
  obtain ⟨what, rfl, i, rfl⟩ := referenceName?_eq_some h
  obtain ⟨what', rfl, j, rfl⟩ := referenceName?_eq_some h'
  have hexact : ∀ (s : String) (i : Option Nat), (Value.map [(refKey, .str s)] i).IsExact := by
    intro s i
    refine .map (by simp [refKey]) (List.pairwise_singleton _ _) ?_
    simpa using .str s
  obtain ⟨s, t, hs, ht, hst⟩ := @Json.exact_shape_iff _ _ describe
    (hexact (bucketPath "schemas" ++ what) i) (hexact (bucketPath "schemas" ++ what') j)
  have hsame := hst.mp (Except.ok.inj (hs.symm.trans (hshape.trans ht)))
  have hfound := hsame refKey (by decide)
  rw [OrderedMap.get?_cons, OrderedMap.get?_cons, if_pos (Atom.str_beq_iff.mpr rfl),
    if_pos (Atom.str_beq_iff.mpr rfl)] at hfound
  cases hfound with
  | some hdata =>
    generalize hleft : bucketPath "schemas" ++ what = left at hdata
    generalize hright : bucketPath "schemas" ++ what' = right at hdata
    cases hdata
    rw [← hright] at hleft
    rw [String.append_right_inj] at hleft
    rw [hleft]

/-- An identity that belongs to a declared schema. -/
def Source.Declared (source : Source) (i : Identity) : Prop :=
  ∃ es identity, source.schemas = some (.map es identity) ∧ ∃ e ∈ es, e.2.identity? = some i

namespace Registry

/-- A schema is the bare reference of a name, or no bare reference and of a shape that has the name. -/
def Shows (describe : Describe) (schema : Value) (name : Atom) (reg : Registry) : Prop :=
  (∃ target, referenceName? schema "schemas" = .ok (some target) ∧ target.asKey = .ok name) ∨
    referenceName? schema "schemas" = .ok none ∧
      ∃ shape, Json.canonical describe schema = .ok shape ∧ reg.byShape.get? shape = some name

/-- A value is compiled to a schema that shows its name. -/
def Shares (h : Heap) (v : Value) (name : Atom) (reg : Registry) : Prop :=
  ∃ ctx schema after, Runs (h.compile v) ctx (some schema) after ∧ Shows h.describe schema name reg

/-- Shapes that have a name keep it. -/
def KeepsShapes (reg after : Registry) : Prop :=
  ∀ shape name, reg.byShape.get? shape = some name → after.byShape.get? shape = some name

/-- The name of an identity is a declared one, or it is shared by a value of that identity. -/
def RemembersShared (h : Heap) (declared : Identity → Prop) (V : Value → Prop) (reg : Registry) :
    Prop :=
  ∀ e ∈ reg.byIdentity, declared e.1 ∨ ∃ v, V v ∧ v.identity? = some e.1 ∧ Shares h v e.2 reg

variable {h : Heap} {declared : Identity → Prop} {V : Value → Prop} {reg mid after : Registry}
  {v : Value} {name : Atom} {α : Type} {x : Registering α}

theorem KeepsShapes.refl : reg.KeepsShapes reg := fun _ _ hname => hname

theorem KeepsShapes.trans (h₁ : reg.KeepsShapes mid) (h₂ : mid.KeepsShapes after) :
    reg.KeepsShapes after := fun shape name hname => h₂ shape name (h₁ shape name hname)

theorem KeepsShapes.of_eq (h : after.byShape = reg.byShape) : reg.KeepsShapes after :=
  fun _ _ hname => by rwa [h]

/-- A name may be given to a shape that has none. -/
theorem KeepsShapes.of_insert {shape : String} (hnew : reg.byShape.get? shape = none)
    (h : after.byShape = reg.byShape.insert shape name) : reg.KeepsShapes after := by
  intro shape' name' hname
  rw [h, OrderedMap.get?_insert]
  by_cases hsame : (shape == shape') = true
  · rw [eq_of_beq hsame, hname] at hnew
    cases hnew
  · rw [if_neg hsame]
    exact hname

/-- Registries whose names by identity are declared or shared, and that keep the names of shapes. -/
def sharing (h : Heap) (declared : Identity → Prop) (V : Value → Prop) : Discipline where
  Inv := RemembersShared h declared V
  Grows := KeepsShapes
  refl _ := .refl
  trans := .trans

theorem Shares.mono (hname : Shares h v name reg) (hgrows : reg.KeepsShapes after) :
    Shares h v name after := by
  obtain ⟨ctx, schema, ctx', hrun, hshows⟩ := hname
  refine ⟨ctx, schema, ctx', hrun, hshows.imp_right ?_⟩
  exact fun ⟨hplain, shape, hshape, hfound⟩ => ⟨hplain, shape, hshape, hgrows shape name hfound⟩

theorem RemembersShared.mono (hreg : reg.RemembersShared h declared V)
    (hidentity : after.byIdentity = reg.byIdentity) (hgrows : reg.KeepsShapes after) :
    after.RemembersShared h declared V := by
  intro e he
  rw [hidentity] at he
  apply (hreg e he).imp_right
  exact fun ⟨v, hv, hid, hname⟩ => ⟨v, hv, hid, hname.mono hgrows⟩

/-! ## Steps -/

/-- Steps that give no names. -/
theorem sharing_of_names_eq (hx : ∀ reg a after, Runs x reg a after →
    after.byIdentity = reg.byIdentity ∧ after.byShape = reg.byShape) :
    (sharing h declared V).Keeps (fun _ => True) x fun _ _ => True := by
  intro reg a after hrun hreg _
  obtain ⟨hidentity, hshape⟩ := hx reg a after hrun
  exact ⟨hreg.mono hidentity (.of_eq hshape), .of_eq hshape, trivial⟩

theorem Compiling.names_eq {walk : Walk Compiled} {r : Compiled}
    (hcompile : Compiling h walk reg r after) :
    after.byIdentity = reg.byIdentity ∧ after.byShape = reg.byShape := by
  obtain @⟨ctx, logged, _, _, hlogged, hmerge⟩ := hcompile
  obtain ⟨hidentity, hshape⟩ := merge_bindings hmerge
  exact ⟨hidentity.trans hlogged.byIdentity, hshape.trans hlogged.byShape⟩

theorem runWalk_sharing {walk : Walk Compiled} :
    (sharing h declared V).Keeps (fun _ => True) (runWalk h walk) fun _ _ => True :=
  sharing_of_names_eq fun _ _ _ hrun => (runs_runWalk hrun).names_eq

theorem addLogFrom_sharing {level : LogLevel} {message : Except Fault String} :
    (sharing h declared V).Keeps (fun _ => True) (addLogFrom level message) fun _ _ => True :=
  sharing_of_names_eq fun _ _ _ hrun =>
    ⟨(runs_addLogFrom hrun).byIdentity, (runs_addLogFrom hrun).byShape⟩

theorem define_sharing {bucket name : Atom} {schema : Value} :
    (sharing h declared V).Keeps (fun _ => True) (define bucket name schema) fun _ _ => True := by
  refine sharing_of_names_eq fun reg _ after hrun => ?_
  obtain rfl := runs_define_iff.mp hrun
  exact ⟨rfl, rfl⟩

/-- A value that has just been compiled may be given the name that its schema shows. -/
theorem RemembersShared.give {schema : Value}
    (hcompile : Compiling h (h.compile v) reg (some schema) mid)
    (hreg : reg.RemembersShared h declared V) (hv : V v)
    (hidentity : after.byIdentity = mid.bound v name) (hgrows : mid.KeepsShapes after)
    (hshows : Shows h.describe schema name after) :
    after.RemembersShared h declared V ∧ reg.KeepsShapes after ∧ Shares h v name after := by
  obtain ⟨hidentity', hbyShape⟩ := hcompile.names_eq
  have hbefore : reg.KeepsShapes mid := .of_eq hbyShape
  obtain @⟨ctx, _, _, hwalk, _, _⟩ := hcompile
  have hshares : Shares h v name after := ⟨_, schema, ctx, hwalk, hshows⟩
  refine ⟨fun e he => ?_, hbefore.trans hgrows, hshares⟩
  rw [hidentity] at he
  rcases mem_bound he with hold | ⟨hid, hname⟩
  · rw [hidentity'] at hold
    apply (hreg e hold).imp_right
    exact fun ⟨w, hw, hid, hname⟩ => ⟨w, hw, hid, (hname.mono hbefore).mono hgrows⟩
  · rw [hname]
    exact .inr ⟨v, hv, hid, hshares⟩

/-- The name that is chosen for a value is a declared one, or it is shared. -/
theorem Naming.shares (hnaming : Naming h v reg name after) (hreg : reg.RemembersShared h declared V)
    (hv : V v) (hone : ∀ w, V w → w.identity?.isSome = true → w.identity? = v.identity? → w = v) :
    after.RemembersShared h declared V ∧ reg.KeepsShapes after ∧
      ((∃ i, v.identity? = some i ∧ declared i) ∨ Shares h v name after) := by
  cases hnaming with
  | seen hseen =>
    obtain ⟨identity, hid, hget⟩ := Option.bind_eq_some_iff.mp hseen
    obtain ⟨k, hmem, hk⟩ := OrderedMap.mem_of_get? hget
    obtain rfl : k = identity := eq_of_beq hk
    refine ⟨hreg, .refl, ?_⟩
    rcases hreg _ hmem with hdeclared | ⟨w, hw, hwid, hname⟩
    · exact .inl ⟨k, hid, hdeclared⟩
    · have hsame : w = v := hone w hw (by rw [hwid]; rfl) (hwid.trans hid.symm)
      exact .inr (hsame ▸ hname)
  | reference hcompile hreference hname _ hidentity hbyShape =>
    obtain ⟨hafter, hgrows, hshares⟩ := hreg.give hcompile hv hidentity (.of_eq hbyShape)
      (.inl ⟨_, hreference, hname⟩)
    exact ⟨hafter, hgrows, .inr hshares⟩
  | shape hcompile hreference hcanonical hknown _ hidentity hbyShape =>
    obtain ⟨hafter, hgrows, hshares⟩ := hreg.give hcompile hv hidentity (.of_eq hbyShape)
      (.inr ⟨hreference, _, hcanonical, by rw [hbyShape, hknown]⟩)
    exact ⟨hafter, hgrows, .inr hshares⟩
  | label hcompile hreference hcanonical hnew _ _ _ _ _ hidentity hbyShape
  | publish hcompile hreference hcanonical hnew _ _ _ _ hidentity hbyShape =>
    obtain ⟨hafter, hgrows, hshares⟩ := hreg.give hcompile hv hidentity (.of_insert hnew hbyShape)
      (.inr ⟨hreference, _, hcanonical, by rw [hbyShape, OrderedMap.get?_insert_self]⟩)
    exact ⟨hafter, hgrows, .inr hshares⟩

theorem nameFor_sharing (hv : V v)
    (hone : ∀ w, V w → w.identity?.isSome = true → w.identity? = v.identity? → w = v) :
    (sharing h declared V).Keeps (fun _ => True) (nameFor h v) fun name reg =>
      (∃ i, v.identity? = some i ∧ declared i) ∨ Shares h v name reg :=
  fun _ _ _ hrun hreg _ => (runs_nameFor hrun).shares hreg hv hone

end Registry

namespace Spec

open Registry (sharing Shares)

variable {setup : Setup} {source : Source} {heap : Heap} {env : Environment} {V : Value → Prop}

/-! ## Builds -/

/-- Only identities of declared schemas are remembered when the declarations are done. -/
theorem declareSchemas_sharing {schemas : Value} (hschemas : source.schemas = some schemas) :
    (sharing setup.heap source.Declared V).Keeps (fun reg => reg = {}) (declareSchemas setup schemas)
      fun _ _ => True := by
  refine keeps_entries fun es hes => ?_
  rintro reg i after hrun _ rfl
  -- Shapes may lose names here, but at the start there are none to lose.
  refine ⟨fun e he => .inl ?_, fun _ _ hname => (by cases hname), trivial⟩
  revert e
  refine runs_forM_preserves (I := fun reg => ∀ e ∈ reg.byIdentity, source.Declared e.1) hrun ?_
    (fun _ he => by cases he)
  intro entry hentry reg _ later hstep hreg e he
  obtain ⟨_, mid, hdeclare, hlast⟩ := runs_bind_iff.mp hstep
  obtain ⟨_, rfl⟩ := runs_pure_iff.mp hlast
  cases Registry.runs_declare hdeclare with
  | skip hcompile hafter =>
    rw [hafter.byIdentity, hcompile.names_eq.1] at he
    exact hreg e he
  | define hcompile _ _ hidentity _ =>
    rw [hidentity] at he
    rcases Registry.mem_bound he with hold | ⟨hid, _⟩
    · rw [hcompile.names_eq.1] at hold
      exact hreg e hold
    · rcases hes with rfl | ⟨identity, rfl⟩
      · cases hentry
      · exact ⟨es, identity, hschemas, entry, hentry, hid⟩

theorem declareParameters_sharing {parameters : Value} :
    (sharing setup.heap source.Declared V).Keeps (fun _ => True)
      (declareParameters setup parameters) fun _ _ => True := by
  refine keeps_entries fun es _ => .forM (fun _ _ _ _ => trivial) fun e _ => ?_
  refine (Discipline.Keeps.compositional.buildParameter Registry.runWalk_sharing fun _ _ =>
    Registry.addLogFrom_sharing).bind fun r => ?_
  cases r with
  | none => exact .pure fun _ _ => trivial
  | some parameter => exact Registry.define_sharing

/-- The steps of a build keep the names of shapes, and the names of values that are not declared are
shared. -/
theorem builds_sharing (hsource : source.Regular setup.heap) :
    Builds setup source (sharing setup.heap source.Declared (source.Supplies setup.heap.describe))
      fun v name reg => source.Supplies setup.heap.describe v ∧
        ((∃ i, v.identity? = some i ∧ source.Declared i) ∨ Shares setup.heap v name reg) where
  lasts _ _ _ _ hgrows hname :=
    ⟨hname.1, hname.2.imp_right fun hname => hname.mono hgrows⟩
  schemas _ hv := declareSchemas_sharing hv
  parameters _ _ := declareParameters_sharing
  walks _ _ := Registry.runWalk_sharing
  names v := by
    rintro ⟨routes, hroutes, r, hr, m, hm, rfl⟩
    have hsupplied : source.Supplies setup.heap.describe m.1 := .media hroutes hr hm
    refine (Registry.nameFor_sharing hsupplied fun w hw hid heq =>
      hsource.one w m.1 hw hsupplied hid heq).conseq (fun _ hp => hp) fun _ _ hname => ?_
    exact ⟨hsupplied, hname⟩
  logs level message := @Registry.addLogFrom_sharing _ _ _ level (.ok message)

/-- Names that are shared are equal where the schemas are of one shape. -/
theorem Shares.name_eq {v w : Value} {name other : Atom} {reg : Registry} {schema schema' : Value}
    {ctx ctx' after after' : Context} (hname : Shares heap v name reg)
    (hother : Shares heap w other reg) (hv : heap.NoForbiddenClassIn v)
    (hw : heap.NoForbiddenClassIn w) (hrun : Runs (heap.compile v) ctx (some schema) after)
    (hrun' : Runs (heap.compile w) ctx' (some schema') after')
    (hshape : Json.canonical heap.describe schema = Json.canonical heap.describe schema')
    (hbare : schema.IsBare ↔ schema'.IsBare) : name = other := by
  obtain ⟨_, found, _, hfound, hshows⟩ := hname
  obtain ⟨_, found', _, hfound', hshows'⟩ := hother
  cases hv.one_outcome hrun hfound
  cases hw.one_outcome hrun' hfound'
  rcases hshows with ⟨target, href, hkey⟩ | ⟨hplain, shape, hcanonical, hknown⟩
  · rcases hshows' with ⟨target', href', hkey'⟩ | ⟨hplain', _⟩
    · obtain rfl := referenceName?_of_shape href href' hshape
      exact Except.ok.inj (hkey.symm.trans hkey')
    · obtain ⟨target', href'⟩ := hbare.mp ⟨target, href⟩
      rw [hplain'] at href'
      cases href'
  · rcases hshows' with ⟨target', href', _⟩ | ⟨_, shape', hcanonical', hknown'⟩
    · obtain ⟨target, href⟩ := hbare.mpr ⟨target', href'⟩
      rw [hplain] at href
      cases href
    · rw [hcanonical, hcanonical'] at hshape
      cases hshape
      exact Option.some.inj (hknown.symm.trans hknown')

/-- Two schemas of bodies or responses that are not declared, and of which both or neither are compiled
to bare references, have one name if they are compiled to schemas of one shape. -/
theorem shared_names {source : Source} {strict headerStart : Value} {fields : Fields}
    {log : Array LogEntry} (hsource : source.Regular heap)
    (hbuild : build heap env source strict headerStart = (.ok fields, log)) :
    ∃ paths components names, RightNames heap source fields paths components names ∧
      ∀ p ∈ paths.media.zip names, ∀ q ∈ paths.media.zip names,
        (∀ i, p.1.1.identity? = some i → ¬ source.Declared i) →
        (∀ i, q.1.1.identity? = some i → ¬ source.Declared i) →
        ∀ known known' c c', (heap.compileAgainst known p.1.1).1 = .ok (some c) →
          (heap.compileAgainst known' q.1.1).1 = .ok (some c') →
          (c.schema.IsBare ↔ c'.schema.IsBare) →
          Json.canonical heap.describe c.schema = Json.canonical heap.describe c'.schema →
            p.2 = q.2 := by
  obtain ⟨setup, reg, rfl, _, hrun⟩ := runs_of_build hbuild
  have hbuilds := (builds_sound hsource).both (builds_sharing hsource)
  obtain ⟨_, _, paths, names, hpaths, hcomponents, htargets, hnames⟩ :=
    hbuilds.buildWith _ _ _ hrun ⟨sound_start, fun e he => (by cases he)⟩ rfl
  refine ⟨paths, reg.components, names, ⟨hpaths, hcomponents, htargets, ?_⟩, ?_⟩
  · exact hnames.imp fun _ _ hname => hname.1.components
  intro p hp q hq hfree hfree' known known' c c' hc hc' hbare hshape
  have hshares : ∀ p ∈ paths.media.zip names, (∀ i, p.1.1.identity? = some i → ¬ source.Declared i) →
      source.Supplies setup.heap.describe p.1.1 ∧ Shares setup.heap p.1.1 p.2 reg := by
    intro p hp hfree
    obtain ⟨_, hsupplied, ⟨i, hid, hdeclared⟩ | hname⟩ := List.forall₂_zip hnames hp
    · exact absurd hdeclared (hfree i hid)
    · exact ⟨hsupplied, hname⟩
  have hruns : ∀ {v : Value} {known : Components} {c : CompiledSchema},
      (setup.heap.compileAgainst known v).1 = .ok (some c) →
        ∃ ctx after, Runs (setup.heap.compile v) ctx (some c.schema) after := by
    intro v known c hc
    obtain ⟨r, after, hrun, heq⟩ := compileAgainst_eq_ok_iff.mp hc
    obtain ⟨schema, rfl, rfl⟩ := Option.map_eq_some_iff.mp heq.symm
    exact ⟨_, after, hrun⟩
  obtain ⟨hsupplied, hname⟩ := hshares p hp hfree
  obtain ⟨hsupplied', hother⟩ := hshares q hq hfree'
  obtain ⟨_, _, hrun⟩ := hruns hc
  obtain ⟨_, _, hrun'⟩ := hruns hc'
  exact Shares.name_eq hname hother (hsource.classes _ hsupplied) (hsource.classes _ hsupplied') hrun
    hrun' hshape hbare

end Spec

/-! ## A body and a response -/

/-- A route that takes one schema and answers with another one. -/
def exchangeSource : Source where
  tag := some (.ofFields [("name", .str "pets")])
  schemas := some (.ofEntries [])
  parameters := some (.ofEntries [])
  routes := some [.ofFields [("path", .str "/pets"), ("method", .str "post"),
    ("summary", .str "Add"),
    ("body", .ofFields [("content", .ofEntries [(.str "application/json", .node 1)]),
      ("description", .null), ("required", .null)]),
    ("responses", .ofEntries [(.str "201",
      .ofFields [("content", .ofEntries [(.str "application/json", .node 2)])])])]]

/-- The route of that source. -/
def exchangeRoute : Route where
  path := .str "/pets"
  method := .str "post"
  summary := .str "Add"
  tags := [.str "pets"]
  headers := .null
  query := .null
  params := .null
  body := some
    { content := .ofEntries [(.str "application/json", .mediaType (.node 1) .null)]
      description := .str ""
      required := .bool false }
  responses := [("201",
    { description := .str ""
      content := .ofEntries [(.str "application/json", .mediaType (.node 2) .null)] })]

theorem exchangeSource_routes {describe : Describe} :
    exchangeSource.getRoutes describe = .ok [exchangeRoute] := by rfl

theorem exchangeSource_paths {describe : Describe} : exchangeSource.paths describe =
    .ok [(.str "/pets", [(.str "post", exchangeRoute)])] := by rfl

theorem exchangeRoute_media : exchangeRoute.media = [(.node 1, .null), (.node 2, .null)] := by rfl

/-- The source is regular where no class is forbidden. -/
theorem exchangeSource_regular {h : Heap}
    (hnodes : ∀ n ∈ h.nodes, n.className.truthy = true → n.isForbidden = false) :
    exchangeSource.Regular h := by
  have hsupplied : ∀ v, exchangeSource.Supplies h.describe v → ∃ id, v = .node id := by
    intro v hv
    cases hv with
    | schema hschemas he =>
      cases hschemas
      cases he
    | media hroutes hr hm =>
      rw [exchangeSource_routes] at hroutes
      cases hroutes
      obtain rfl := List.mem_singleton.mp hr
      rw [exchangeRoute_media] at hm
      simp only [List.mem_cons, List.not_mem_nil, or_false] at hm
      obtain rfl | rfl := hm
      · exact ⟨1, rfl⟩
      · exact ⟨2, rfl⟩
  refine ⟨fun es identity hschemas => ?_, fun v w hv hw _ hid => ?_, fun v _ => ?_⟩
  · cases hschemas
    exact List.Pairwise.nil
  · obtain ⟨i, rfl⟩ := hsupplied v hv
    obtain ⟨j, rfl⟩ := hsupplied w hw
    cases hid
    rfl
  · exact Heap.noForbiddenClass_of_nodes hnodes v

/-- No identity is declared. -/
theorem exchangeSource_declares_none {i : Identity} : ¬ exchangeSource.Declared i := by
  rintro ⟨es, identity, hschemas, e, he, _⟩
  cases hschemas
  cases he

/-- Two schemas of one shape under different labels. -/
def twinHeap : Heap where
  nodes := #[{ kind := "string" },
    { kind := "object", children := [(.str "name", .node 0)], flags := [("label", .str "Pet")] },
    { kind := "object", children := [(.str "name", .node 0)], flags := [("label", .str "Animal")] }]

/-- The class of pets, and a reference to pets under a label of its own. -/
def aliasHeap : Heap where
  nodes := #[{ kind := "string" },
    { kind := "object", children := [(.str "name", .node 0)],
      metadata := [(.str "className", .str "Pet")] },
    { kind := "any", flags := [("label", .str "Alias")],
      metadata := [(.str "swagger", reference "schemas" "Pet")] }]

/-- The schema of what has a name. -/
def nameSchema (label : String) : Value :=
  .ofFields [("type", .str "object"),
    ("properties", .ofFields [("name", .ofFields [("type", .str "string")])]),
    ("additionalProperties", .bool false), ("title", .str label)]

namespace Spec

theorem exchange_build {h : Heap} (hok : (build h [] exchangeSource .null .null).1.isOk = true) :
    ∃ fields log, build h [] exchangeSource .null .null = (.ok fields, log) := by
  cases hbuild : build h [] exchangeSource .null .null with
  | mk outcome log =>
    rw [hbuild] at hok
    cases outcome with
    | error fault => cases hok
    | ok fields => exact ⟨fields, log, rfl⟩

theorem exchange_media {fields : Fields} {h : Heap} {paths : Paths} {components : Components}
    {names : List Atom} (hnames : RightNames h exchangeSource fields paths components names) :
    ∃ name other, names = [name, other] ∧
      paths.media.zip names = [((.node 1, .null), name), ((.node 2, .null), other)] := by
  obtain ⟨hpaths, _, _, hall⟩ := hnames
  rw [exchangeSource_paths] at hpaths
  obtain rfl := Except.ok.inj hpaths
  have hmedia : Paths.media [(.str "/pets", [(.str "post", exchangeRoute)])] =
      [(.node 1, .null), (.node 2, .null)] := by rfl
  rw [hmedia] at hall ⊢
  have hlength := hall.length_eq
  obtain ⟨name, other, rfl⟩ := List.length_eq_two.mp hlength.symm
  exact ⟨name, other, rfl, rfl⟩

set_option maxRecDepth 1024 in
/-- Pets and animals are one schema, whose name is the label that comes first. -/
theorem shared_names_twins : exchangeSource.Regular twinHeap ∧
    ∃ fields log, build twinHeap [] exchangeSource .null .null = (.ok fields, log) ∧
      ∃ paths components name,
        RightNames twinHeap exchangeSource fields paths components [name, name] := by
  have hregular : exchangeSource.Regular twinHeap := by
    apply exchangeSource_regular
    simp only [twinHeap, List.mem_toArray, List.forall_mem_cons, List.not_mem_nil, false_implies,
      implies_true, and_true]
    exact ⟨fun _ => rfl, fun _ => rfl, fun _ => rfl⟩
  obtain ⟨fields, log, hbuild⟩ := @exchange_build twinHeap (by rfl)
  obtain ⟨paths, components, names, hright, hshared⟩ := shared_names hregular hbuild
  obtain ⟨name, other, rfl, hzip⟩ := exchange_media hright
  rw [hzip] at hshared
  have hplain : ∀ label, ¬ (nameSchema label).IsBare := by
    rintro label ⟨target, href⟩
    cases href
  have heq := hshared ((.node 1, .null), name) (by simp) ((.node 2, .null), other) (by simp)
    (fun _ _ => exchangeSource_declares_none) (fun _ _ => exchangeSource_declares_none) [] []
    ⟨nameSchema "Pet", []⟩ ⟨nameSchema "Animal", []⟩ (by rfl) (by rfl)
    (iff_of_false (hplain _) (hplain _)) (by rfl)
  have heq : name = other := heq
  subst heq
  exact ⟨hregular, fields, log, hbuild, paths, components, name, hright⟩

/-- A pet and its alias have one shape and two names. -/
theorem shared_names_alias : exchangeSource.Regular aliasHeap ∧ (∀ i, ¬ exchangeSource.Declared i) ∧
    (∃ fields log, build aliasHeap [] exchangeSource .null .null = (.ok fields, log) ∧
      exchangeSource.paths aliasHeap.describe = .ok [(.str "/pets", [(.str "post", exchangeRoute)])] ∧
      targets fields = [reference "schemas" "Pet", reference "schemas" "Alias"]) ∧
    exchangeRoute.media = [(.node 1, .null), (.node 2, .null)] ∧
    ∃ c c', (aliasHeap.compileAgainst [] (.node 1)).1 = .ok (some c) ∧
      (aliasHeap.compileAgainst [] (.node 2)).1 = .ok (some c') ∧
      Json.canonical aliasHeap.describe c.schema = Json.canonical aliasHeap.describe c'.schema := by
  have htargets : (build aliasHeap [] exchangeSource .null .null).1.map targets =
      .ok [reference "schemas" "Pet", reference "schemas" "Alias"] := by rfl
  refine ⟨?_, fun _ => exchangeSource_declares_none, ?_, exchangeRoute_media, ?_⟩
  · apply exchangeSource_regular
    simp only [aliasHeap, List.mem_toArray, List.forall_mem_cons, List.not_mem_nil, false_implies,
      implies_true, and_true]
    exact ⟨fun _ => rfl, fun _ => rfl, fun _ => rfl⟩
  · obtain ⟨fields, log, hbuild⟩ := @exchange_build aliasHeap (by rfl)
    rw [hbuild] at htargets
    exact ⟨fields, log, hbuild, exchangeSource_paths, Except.ok.inj htargets⟩
  · let titled : Value :=
      .ofFields [("title", .str "Alias"), ("$ref", .str "#/components/schemas/Pet")]
    have halias : (aliasHeap.compileAgainst [] (.node 2)).1 = .ok (some ⟨titled, []⟩) := by rfl
    obtain ⟨created, hpet⟩ : ∃ created, (aliasHeap.compileAgainst [] (.node 1)).1 =
      .ok (some ⟨reference "schemas" "Pet", created⟩) := ⟨_, rfl⟩
    exact ⟨_, _, hpet, halias, by rfl⟩

end Spec

end WireShape
