import WireShape.Proofs.Formed.FieldNames
import WireShape.Proofs.Registry.Origins
import WireShape.Proofs.Spec.Names

/-!
# Published schemas and those of containers

A body is checked by a container, which compiles the schema of the body by itself. The document has
the schema compiled after all other ones, under a name that may be that of another schema of the
same shape, and refers to definitions that may have been written by other schemas. Where the
positions of a source are coherent and names are not given twice, both expand to the same text, but
for the title.

* `Source.Coherent`: sources all of whose classes stand for one definition each.
* `Spec.builds_derived`: what a build defines comes from classes or has a name of its own.
* `Components.agree_with`: definitions of a document against those of a schema compiled by itself.
* `Spec.bodies_agree`: the schemas in a document expand to those of the containers.
-/

namespace WireShape

open Value (Fields SameShape Writable)

/-! ## Sources -/

/-- A source whose positions are coherent. Declared schemas and labels have no names of classes
among the schemas, and declared parameters have none among the parameters. -/
structure Source.Coherent (h : Heap) (source : Source) : Prop where
  regular : source.Regular h
  positions : h.Coherent (source.Starts h)
  ownsNoRefs : source.OwnsNoRefs h
  schemas : ∀ es identity, source.schemas = some (.map es identity) → ∀ e ∈ es, ∃ key,
    e.1 = .str key ∧ ¬ h.NamesClass (source.Starts h) "schemas" key
  parameters : ∀ es identity, source.parameters = some (.map es identity) → ∀ e ∈ es, ∃ key,
    e.1 = .str key ∧ ¬ h.NamesClass (source.Starts h) "parameters" key
  labels : ∀ v, source.HasMedia h.describe v → ∀ schema title, h.Gives v (some schema) →
    schema.field? "title" = some title → ∃ key,
      title = .str key ∧ ¬ h.NamesClass (source.Starts h) "schemas" key

/-! ## Where the definitions of a document come from -/

namespace Registry

/-- Registries all of whose definitions come from classes or have names of their own. -/
def provenance (h : Heap) (Start : Schema → Prop) : Discipline where
  Inv := Registry.Derived h Start
  Grows _ _ := True
  refl _ := trivial
  trans _ _ := trivial

variable {h : Heap} {Start : Schema → Prop} {P : Registry → Prop} {v : Value} {name : Atom}

theorem addLogFrom_derived {level : LogLevel} {message : Except Fault String} :
    (provenance h Start).Keeps P (addLogFrom level message) fun _ _ => True :=
  fun _ _ _ hrun hreg _ => ⟨(runs_addLogFrom hrun).derived hreg, trivial, trivial⟩

theorem declare_derived (hStart : h.Coherent Start) (hv : ∀ s, rootSchema v = .ok s → Start s)
    (hname : ∃ key, name = .str key ∧ ¬ h.NamesClass Start "schemas" key) :
    (provenance h Start).Keeps P (declare h name v) fun _ _ => True :=
  fun _ _ _ hrun hreg _ =>
    ⟨(runs_declare hrun).derived hStart (fun s hs => .start (hv s hs)) hname hreg, trivial, trivial⟩

theorem buildParameter_derived {headerStart : Value} (hStart : h.Coherent Start)
    (hv : ∀ s, rootSchema v = .ok s → Start s) :
    (provenance h Start).Keeps (fun _ => True) (buildParameter h v headerStart) fun _ _ => True := by
  refine Discipline.Keeps.compositional.buildParameter ?_ fun _ _ => addLogFrom_derived
  exact fun _ _ _ hrun hreg _ => ⟨compiling_value_derived hStart (fun s hs => .start (hv s hs))
    (runs_runWalk hrun) hreg, trivial, trivial⟩

theorem registerParameter_derived {parameter : Value} (hStart : h.Coherent Start)
    (hname : ∃ key, name = .str key ∧ ¬ h.NamesClass Start "parameters" key) :
    (provenance h Start).Keeps P (registerParameter name parameter) fun _ _ => True := by
  intro reg _ after hrun hreg _
  obtain ⟨key, rfl, hfree⟩ := hname
  obtain rfl := runs_define_iff.mp hrun
  exact ⟨Derived.define hreg hStart (.parameter hfree) rfl, trivial, trivial⟩

end Registry

namespace Spec

open Registry (closedness provenance)

variable {setup : Setup} {source : Source}

/-- The steps of a build keep what is known of where definitions come from. -/
theorem builds_derived (hsource : source.Coherent setup.heap) :
    Builds setup source (provenance setup.heap (source.Starts setup.heap))
      fun v _ _ => source.HasMedia setup.heap.describe v where
  lasts _ _ _ _ _ hv := hv
  schemas v hv := by
    refine (Discipline.Keeps.conseq (P := fun _ => True) (keeps_entries fun es hes => ?_)
      (fun _ _ => trivial) fun _ _ hq => hq)
    refine .forM (fun _ _ _ _ => trivial) fun e he => ?_
    rcases hes with rfl | ⟨identity, rfl⟩
    · cases he
    · exact (Registry.declare_derived hsource.positions (fun s hs => .schema hv he hs)
        (hsource.schemas es identity hv e he)).bind fun _ => .pure fun _ _ => trivial
  parameters v hv := by
    refine keeps_entries fun es hes => .forM (fun _ _ _ _ => trivial) fun e he => ?_
    rcases hes with rfl | ⟨identity, rfl⟩
    · cases he
    · refine (Registry.buildParameter_derived hsource.positions
        fun s hs => .parameter hv he hs).bind fun r => ?_
      cases r with
      | none => exact .pure fun _ _ => trivial
      | some parameter =>
        exact Registry.registerParameter_derived hsource.positions
          (hsource.parameters es identity hv e he)
  walks s hs := fun _ _ _ hrun hreg _ => ⟨Registry.compiling_schema_derived hsource.positions
    (.start hs) (Registry.runs_runWalk hrun) hreg, trivial, trivial⟩
  names v hv := fun _ _ _ hrun hreg _ => ⟨(Registry.runs_nameFor hrun).derived hsource.positions
    (fun s hs => .start (.media hv hs)) (hsource.labels v hv) hreg, trivial, hv⟩
  logs level message := @Registry.addLogFrom_derived _ _ _ level (.ok message)

/-- The steps of a build leave no reference without a definition. -/
theorem builds_closed (hsource : source.OwnsNoRefs setup.heap) :
    Builds setup source (closedness setup.heap.describe) fun _ name reg =>
      reg.Offers setup.heap.describe name where
  lasts _ _ _ _ hgrows hoffers := hoffers.mono hgrows
  schemas v hv := (declareSchemas_keeps fun es identity heq =>
    hsource.schemas es identity (heq ▸ hv)).conseq (fun _ _ => trivial) fun _ _ hq => hq
  parameters v hv := declareParameters_keeps fun es identity heq =>
    hsource.parameters es identity (heq ▸ hv)
  walks s hs := by
    refine (Registry.compileSchema_keeps (P := fun _ => True) ?_).conseq (fun _ hp => hp)
      fun _ _ _ => trivial
    cases hs with
    | schema hschemas he hs =>
      exact fun t => hsource.schemas _ _ hschemas _ he s t (ofValue_of_rootSchema hs)
    | parameter hparameters he hs =>
      exact fun t => hsource.parameters _ _ hparameters _ he s t (ofValue_of_rootSchema hs)
    | @path _ r s e hroutes hr hs he =>
      intro t ht
      refine (hsource.routes _ hroutes r hr).params s t hs (.head (.inl ?_) ht)
      simp only [Node.parts, List.mem_append]
      exact .inl (.inl (.inl (.inl (List.mem_map_of_mem he))))
    | media hv hs =>
      obtain ⟨routes, hroutes, r, hr, m, hm, rfl⟩ := hv
      exact fun t => ((hsource.routes _ hroutes r hr).media m hm).1 s t (ofValue_of_rootSchema hs)
  names v hv := by
    obtain ⟨routes, hroutes, r, hr, m, hm, rfl⟩ := hv
    exact Registry.nameFor_keeps ((hsource.routes _ hroutes r hr).media m hm).1
  logs _ _ := Registry.addLog_keeps

end Spec

/-! ## Two sets of definitions -/

namespace Components

variable {h : Heap} {Start : Schema → Prop} {components own : Components}

/-- Definitions from classes and under names of their own stand in order. -/
theorem From.orderly (hStart : h.Coherent Start)
    (hcomponents : components.From Registry.IsOwnBucket (h.Origin Start)) : components.Orderly where
  separate := hcomponents.apart.buckets
  buckets bucket hbucket := by
    rcases hcomponents.buckets bucket hbucket with (hb | hb) | ⟨n, d, hd⟩
    · exact ⟨_, hb, by decide⟩
    · exact ⟨_, hb, by decide⟩
    · obtain ⟨b, n, hb, _, hslash⟩ := hd.named hStart
      exact ⟨b, hb, hslash⟩
  names bucket hbucket entry hentry := by
    obtain ⟨_, n, _, hn, _⟩ := (hcomponents.entries bucket hbucket entry hentry).named hStart
    exact ⟨n, hn⟩

/-- Definitions as they are looked up, if there are others under the same names. -/
def lookupAmong (components own : Components) : Lookup := fun bucket name =>
  (own.lookup bucket name).bind fun _ => components.lookup bucket name

/-- The definitions of a document that stand under names of classes are definitions of these. -/
theorem lookupAmong_writable (hStart : h.Coherent Start)
    (hcomponents : components.From Registry.IsOwnBucket (h.Origin Start))
    (hown : own.Unfolds h Start) : (components.lookupAmong own).Having Writable := by
  intro bucket name d hd
  obtain ⟨e, he, hd⟩ := Option.bind_eq_some_iff.mp hd
  obtain ⟨t, ht, hdefines⟩ := hown.defined bucket name e he
  obtain ⟨t', ht', hdefines'⟩ := (hcomponents.found (Heap.Origin.texts hStart) hd).defines
    ⟨t, ht, hdefines.override_isNull, hdefines.class?⟩
  exact hStart.defines_writable ht'.isBelow hdefines'

/-- Where definitions of both are referred to, those of a document are of the shape of those of a
schema that is compiled by itself. -/
theorem agree_with (hStart : h.Coherent Start)
    (hcomponents : components.From Registry.IsOwnBucket (h.Origin Start))
    (hclosed : components.RefersWithin (components.Resolves h.describe))
    (hown : own.Unfolds h Start) :
    LookupsAgree SameShape (fun t => own.Resolves h.describe t ∧ components.Resolves h.describe t)
      own.lookup (components.lookupAmong own) := by
  rintro target ⟨_, hresolves⟩ bucket name e hsplit he
  obtain ⟨bucket', name', d, hsplit', hd⟩ := (hcomponents.orderly hStart).find hresolves
  cases hsplit.symm.trans hsplit'
  obtain ⟨t, ht, hdefines⟩ := hown.defined bucket name e he
  obtain ⟨t', ht', hdefines'⟩ := (hcomponents.found (Heap.Origin.texts hStart) hd).defines
    ⟨t, ht, hdefines.override_isNull, hdefines.class?⟩
  have hsame : d.SameShape e := hStart.sameShape ht'.isBelow ht hdefines' hdefines
  refine ⟨d, Option.bind_eq_some_iff.mpr ⟨e, he, hd⟩, hsame, fun u hu => ⟨?_, ?_⟩⟩
  · exact hsame.refersWithin (hStart.defines_writable ht'.isBelow hdefines') (hown.closed.found he)
      u hu
  · exact hclosed.found hd u hu

end Components

/-- The checked form of what a value compiles to can be made: no position is below itself, nothing
is named like the mark of nullable schemas, and all supplied values have a checked form. -/
def Heap.Translates (h : Heap) (v : Value) : Prop :=
  ∀ s, rootSchema v = .ok s → h.Acyclic s ∧ ∀ t, h.Reaches s t →
    (h.view t).NamesNoMark ∧ ∀ x ∈ (h.view t).supplied, NullTypes.Expands x

/-- Two schemas, each with definitions of its own, expand to schemas of one text, but for their
titles. -/
def ExpandAlike (describe : Describe) (find find' : Lookup) (v w : Value) : Prop :=
  ∃ depth u u' text, expandWithin find depth v = some u ∧ expandWithin find' depth w = some u' ∧
    Json.canonical describe u = .ok text ∧ Json.canonical describe u' = .ok text

section Agreement

variable {h : Heap} {Start : Schema → Prop} {components : Components} {own : CompiledSchema}
  {v : Value}

/-- A schema that is of the shape of one that is compiled by itself, and that refers to what is
defined, expands like it. -/
theorem CompiledSchema.Unfolds.alike (hown : own.Unfolds h Start) (hStart : h.Coherent Start)
    (hcomponents : components.From Registry.IsOwnBucket (h.Origin Start))
    (hclosed : components.RefersWithin (components.Resolves h.describe)) (hv : v.Writable)
    (htitle : ∀ t, v.field? "title" = some t → t.RefFree)
    (hrefs : v.RefersWithin (components.Resolves h.describe))
    (hsame : (Json.withoutTitle v).SameShape (Json.withoutTitle own.schema)) :
    ExpandAlike h.describe components.lookup own.components.lookup v own.schema := by
  have hwritable := hown.standard.writable
  obtain ⟨depth, u, hu⟩ := hown.expands
  have hwithin : v.RefersWithin (own.components.Resolves h.describe) :=
    hv.refersWithin_of_withoutTitle htitle
      (hsame.refersWithin hv.withoutTitle hown.within.withoutTitle)
  have hfind := hown.components.writable hStart
  have hfind' := Components.lookupAmong_writable hStart hcomponents hown.components
  obtain ⟨depth', u', hu', hshape⟩ := expandWithin_but_title hfind hfind'
    (Components.agree_with hStart hcomponents hclosed hown.components) hv hwritable hown.isMap
    (fun t ht => ⟨hwithin t ht, hrefs t ht⟩) htitle hsame hu
  have huw := expandWithin_writable hfind hwritable hu
  have huw' := expandWithin_writable hfind' hv hu'
  obtain ⟨text, htext⟩ : ∃ text, Json.canonical h.describe u = .ok text :=
    Json.exists_writeAt huw.withoutTitle
  have hfound : expandWithin components.lookup depth' v = some u' := by
    refine expandWithin_of_found (fun bucket name d hd => ?_) hu'
    obtain ⟨_, _, hd⟩ := Option.bind_eq_some_iff.mp hd
    exact hd
  exact ⟨max depth depth', u', u, text, expandWithin_mono (Nat.le_max_right _ _) hfound,
    expandWithin_mono (Nat.le_max_left _ _) hu,
    ((Json.canonical_eq_iff huw' huw).mpr hshape).trans htext, htext⟩

/-- A reference to a definition of that shape does so as well. -/
theorem ExpandAlike.reference {describe : Describe} {find find' : Lookup} {name : String}
    {d w : Value} (halike : ExpandAlike describe find find' d w)
    (hd : find "schemas" name = some d) (hmap : d.isMap = true) :
    ExpandAlike describe find find' (reference "schemas" name) w := by
  obtain ⟨depth, u, u', text, hu, hu', htext, htext'⟩ := halike
  obtain ⟨es, i, rfl⟩ := Value.exists_map_of_isMap hmap
  obtain ⟨fs, j, rfl⟩ := expandWithin_isMap hu
  exact ⟨depth + 1, .ofEntries fs, u', text, expandWithin_reference (by decide) hd hu,
    expandWithin_mono (Nat.le_succ depth) hu', htext, htext'⟩

/-- What is equal to a plain reference is that reference. -/
theorem Value.Writable.eq_reference {place what : String} (hv : v.Writable)
    (hsame : v.same (WireShape.reference place what) = true) :
    ∃ i, v = .map [(refKey, .str (bucketPath place ++ what))] i := by
  cases v with
  | map es i =>
    obtain ⟨hlength, hentries⟩ := Value.same_map_iff.mp hsame
    obtain ⟨e, rfl⟩ := List.length_eq_one_iff.mp hlength
    obtain ⟨w, hw, hvalue⟩ := hentries e List.mem_cons_self
    obtain ⟨key, hmem, hkey⟩ := OrderedMap.mem_of_get? hw
    obtain ⟨rfl, rfl⟩ := Prod.mk.inj (List.mem_singleton.mp hmem)
    obtain ⟨s, hs⟩ := hv.key List.mem_cons_self
    have hfirst : e.1 = refKey := by
      rw [hs] at hkey ⊢
      exact (Atom.beq_str_iff.mp hkey).symm
    have hsecond : e.2 = .str (bucketPath place ++ what) := by
      cases hatom : e.2 with
      | atom a =>
        rw [hatom] at hvalue
        rw [show a = .str (bucketPath place ++ what) from Atom.beq_str_iff.mp hvalue]
      | _ =>
        rw [hatom] at hvalue
        cases hvalue
    exact ⟨i, by rw [← hfirst, ← hsecond]⟩
  | _ => cases hsame

end Agreement

namespace Spec

variable {heap : Heap} {source : Source} {reg : Registry} {v target : Value} {name : Atom}

/-- What a body is compiled to against the definitions of the document, it is compiled to by
itself. -/
theorem outcome_unique (hsource : source.Coherent heap) (hv : source.HasMedia heap.describe v)
    {known known' : Components} {found : CompiledSchema} {compiled : Option CompiledSchema}
    (hfound : (heap.compileAgainst known v).1 = .ok (some found))
    (hcompiled : (heap.compileAgainst known' v).1 = .ok compiled) :
    ∃ created, compiled = some ⟨found.schema, created⟩ := by
  obtain ⟨r, _, hrun, heq⟩ := compileAgainst_eq_ok_iff.mp hfound
  obtain ⟨r', after, hrun', rfl⟩ := compileAgainst_eq_ok_iff.mp hcompiled
  have hallowed : heap.NoForbiddenClassIn v := fun s hs =>
    hsource.positions.noForbiddenClass (.start (.media hv hs))
  cases hallowed.one_outcome hrun hrun'
  obtain ⟨schema, rfl, rfl⟩ := Option.map_eq_some_iff.mp heq.symm
  exact ⟨_, rfl⟩

/-- What a body refers to expands like the schema of its container. -/
theorem target_alike (hsource : source.Coherent heap) (hclosed : reg.Closed heap.describe)
    (hderived : reg.Derived heap (source.Starts heap))
    (hv : source.HasMedia heap.describe v) (hanswers : reg.components.Answers heap v name)
    (hoffers : reg.Offers heap.describe name)
    (htarget : referenceTo heap.describe (.str "schemas") name = .ok target) {c : Container}
    (hc : (Container.compile heap v false).1 = .ok c) :
    ExpandAlike heap.describe reg.components.lookup c.components.lookup target c.schema := by
  obtain ⟨compiled, hagainst, hof⟩ := Container.compile_eq_ok_iff.mp hc
  obtain ⟨⟨schema, _⟩, hfound, hright⟩ := hanswers
  obtain ⟨created, rfl⟩ := outcome_unique hsource hv hfound hagainst
  obtain ⟨_, _, hrun, _⟩ := compileAgainst_eq_ok_iff.mp hagainst
  obtain ⟨s, hs, _⟩ := runs_compile_iff.mp hrun
  have hown := hsource.positions.compiled hs (.start (.media hv hs)) hagainst
  obtain ⟨hschema, hcomponents⟩ := Container.schema_of_ofCompiled hof
  rw [if_neg Bool.false_ne_true] at hschema
  rw [hschema, hcomponents]
  obtain ⟨place, what, hplace, hwhat, rfl⟩ := referenceTo_eq_ok_iff.mp htarget
  cases hplace
  rcases hright with ⟨what', rfl, hsame⟩ | ⟨k, d, shape, hmem, hk, hshape, hd⟩
  · cases hwhat
    obtain ⟨i, rfl⟩ := hown.standard.writable.eq_reference hsame
    have hreference : (reference "schemas" what).Writable := Value.IsStandard.reference.writable
    refine hown.alike hsource.positions hderived hclosed.components hreference ?_
      (Value.refersWithin_reference (hoffers what rfl)) hreference.withoutTitle.sameShape_refl
    intro t ht
    cases ht
  · have horigin := hderived.mem_bucket (Heap.Origin.texts hsource.positions) hmem
    obtain ⟨_, key, _, rfl, _⟩ := horigin.named hsource.positions
    obtain rfl := hk.str_left
    cases hwhat
    obtain ⟨hwritable, htitle⟩ := horigin.published hsource.positions
    have hlookup : reg.components.lookup "schemas" what = some d :=
      hderived.apart.bucket.get? hmem (Atom.str_beq_iff.mpr rfl)
    have halike := hown.alike hsource.positions hderived hclosed.components hwritable htitle
      (hclosed.components.found hlookup)
      ((Json.canonical_eq_iff hwritable hown.standard.writable).mp (hd.trans hshape.symm))
    exact halike.reference hlookup (hclosed.components.found_isMap hlookup)

/-- A body that can be translated has a container: as its schema is compiled against the definitions
of the document, it is compiled by itself. -/
theorem container_exists (hsource : source.Coherent heap)
    (hderived : reg.Derived heap (source.Starts heap))
    (hv : source.HasMedia heap.describe v) (hanswers : reg.components.Answers heap v name)
    (htranslates : heap.Translates v) : ∃ c, (Container.compile heap v false).1 = .ok c := by
  obtain ⟨_, hfound, _⟩ := hanswers
  obtain ⟨_, _, hrun, _⟩ := compileAgainst_eq_ok_iff.mp hfound
  obtain ⟨s, hs, hrun⟩ := runs_compile_iff.mp hrun
  obtain ⟨hacyclic, hbelow⟩ := htranslates s hs
  obtain ⟨hentered, _⟩ := (walked_of_runs hrun).entered hsource.positions (.start (.media hv hs))
    (hderived.enters hsource.positions)
  obtain ⟨r, after, hrun'⟩ := hentered.yields hsource.positions hacyclic
  exact Container.exists_of_namesNoMark hs (fun t ht => (hbelow t ht).1)
    (fun t ht => (hbelow t ht).2)
    (compileAgainst_eq_ok_iff.mpr ⟨r, after, runs_compile_iff.mpr ⟨s, hs, hrun'⟩, rfl⟩)

/-- The schemas of all bodies and responses, expanded by the definitions of the document, are those
of their containers, expanded by their own definitions, but for the titles. There is a container
where nothing is named like the mark of nullable schemas. -/
theorem bodies_agree {env : Environment} {strict headerStart : Value} {fields : Fields}
    {log : Array LogEntry} (hsource : source.Coherent heap)
    (hbuild : build heap env source strict headerStart = (.ok fields, log)) :
    ∃ (paths : Paths) (components : Components), source.paths heap.describe = .ok paths ∧
      OrderedMap.get? fields (.str "components") = some components.toValue ∧
        List.Forall₂ (fun m target =>
          (heap.Translates m.1 → ∃ c, (Container.compile heap m.1 false).1 = .ok c) ∧
            ∀ c, (Container.compile heap m.1 false).1 = .ok c →
              ExpandAlike heap.describe components.lookup c.components.lookup target c.schema)
          paths.media (targets fields) := by
  obtain ⟨setup, reg, rfl, _, hrun⟩ := runs_of_build hbuild
  have hbuilds := ((builds_sound hsource.regular).both (builds_closed hsource.ownsNoRefs)).both
    (builds_derived hsource)
  obtain ⟨⟨⟨_, hclosed⟩, hderived⟩, _, paths, names, hpaths, hcomponents, htargets, hnames⟩ :=
    hbuilds.buildWith _ _ _ hrun ⟨⟨sound_start, closed_start⟩, Registry.from_start⟩ rfl
  refine ⟨paths, _, hpaths, hcomponents, ?_⟩
  refine forall₂_transfer hnames.flip htargets fun name _ m _ target hname htarget => ?_
  obtain ⟨⟨hanswers, hoffers⟩, hmedia⟩ := hname
  exact ⟨container_exists hsource hderived hmedia hanswers.components,
    fun c hc => target_alike hsource hclosed hderived hmedia hanswers.components hoffers htarget hc⟩

end Spec

/-! ## A kennel -/

/-- A string, a pet with a name twice, an order of one of the pets, and flags one of which is named
like the mark of nullable schemas; pets are a class. -/
def kennelHeap : Heap where
  nodes := #[{ kind := "string" },
    { kind := "object", children := [(.str "name", .node 0)],
      metadata := [(.str "className", .str "Pet")] },
    { kind := "object", children := [(.str "pet", .node 1)], flags := [("label", .str "Order")] },
    { kind := "object", children := [(.str "name", .node 0)],
      metadata := [(.str "className", .str "Pet")] },
    { kind := "object", children := [(.str "nullable", .node 0), (.str "enum", .node 0)],
      flags := [("label", .str "Flags")] }]

/-- Routes that each take a body. -/
def kennelSource (bodies : List (String × NodeId)) : Source where
  tag := some (.ofFields [("name", .str "kennel")])
  schemas := some (.ofEntries [])
  parameters := some (.ofEntries [])
  routes := some (bodies.map fun (path, id) => .ofFields [("path", .str path),
    ("method", .str "post"), ("summary", .str "Send"),
    ("body", .ofFields [("content", .ofEntries [(.str "application/json", .node id)]),
      ("description", .null), ("required", .null)])])

/-- Orders and pets are sent. -/
def orderSource : Source := kennelSource [("/orders", 2), ("/pets", 3)]

def flagSource : Source := kennelSource [("/flags", 4)]

/-- The routes as they are read. -/
def kennelRoute (path : String) (id : NodeId) : Route where
  path := .str path
  method := .str "post"
  summary := .str "Send"
  tags := [.str "kennel"]
  headers := .null
  query := .null
  params := .null
  body := some
    { content := .ofEntries [(.str "application/json", .mediaType (.node id) .null)]
      description := .str ""
      required := .bool false }
  responses := []

section Kennel

variable {Start : Schema → Prop} {s t : Schema} {b n : Atom} {i : NodeId}

theorem kennelHeap_descends : kennelHeap.Descends := Heap.descends_of_nodes (by decide)

/-- Only pets are a class. -/
theorem kennelHeap_owns (hown : kennelHeap.Owns t b n) : b = .str "schemas" ∧ n = .str "Pet" := by
  refine kennelHeap.forall_view (P := fun node => node.class? = .ok (some (b, n)) →
    b = .str "schemas" ∧ n = .str "Pet") ?_ (fun _ _ hclass => by cases hclass) t hown.2
  simp only [kennelHeap, List.mem_toArray, List.forall_mem_cons, List.not_mem_nil, false_implies,
    implies_true, and_true]
  refine ⟨nofun, ?_, nofun, ?_, nofun⟩ <;> exact fun hclass => by cases hclass; exact ⟨rfl, rfl⟩

/-- Both pets are registered with one definition. -/
theorem kennelHeap_registers (hown : kennelHeap.Owns (.node i) b n) :
    kennelHeap.Registers (.node i) "schemas" "Pet" (.ofFields [("type", .str "object"),
      ("properties", .ofFields [("name", .ofFields [("type", .str "string")])]),
      ("additionalProperties", .bool false)]) := by
  rcases i with _ | _ | _ | _ | _ | i
  · cases hown.2
  · exact ⟨rfl, rfl, _, _, rfl, rfl⟩
  · cases hown.2
  · exact ⟨rfl, rfl, _, _, rfl, rfl⟩
  · cases hown.2
  · cases hown.2

/-- All values there are standard, and all keys are texts. -/
theorem kennelHeap_supplies : (kennelHeap.view (.node i)).SuppliesJson := by
  have hlabel : ∀ {s : String}, ∀ e ∈ [("label", Value.str s)], e.2.IsStandard := by
    intro s e he
    rw [List.mem_singleton.mp he]
    exact .atom (.str _)
  have hone : ∀ {s : String} {t : Schema}, ∀ e ∈ [(Atom.str s, t)], ∃ s, e.1 = .str s := by
    intro s t e he
    exact ⟨s, by rw [List.mem_singleton.mp he]⟩
  rcases i with _ | _ | _ | _ | _ | i
  · exact .of_plain rfl ⟨rfl, rfl, rfl⟩ rfl rfl nofun nofun
  · exact .of_plain rfl ⟨rfl, rfl, rfl⟩ rfl rfl nofun hone
  · exact .of_plain rfl ⟨rfl, rfl, rfl⟩ rfl rfl hlabel hone
  · exact .of_plain rfl ⟨rfl, rfl, rfl⟩ rfl rfl nofun hone
  · exact .of_plain rfl ⟨rfl, rfl, rfl⟩ rfl rfl hlabel
      (List.forall_mem_cons.mpr ⟨⟨_, rfl⟩, hone⟩)
  · exact .of_plain rfl ⟨rfl, rfl, rfl⟩ rfl rfl nofun nofun

theorem kennelHeap_ownsNoRefs : ∀ n ∈ kennelHeap.nodes, n.OwnsNoRefs := by
  simp only [kennelHeap, List.mem_toArray, List.forall_mem_cons, List.not_mem_nil, false_implies,
    implies_true, and_true]
  have hlabel : ∀ {n : Node} {s : String}, n.literal.isNull = true → n.supplied = [.str s] →
      n.OwnsNoRefs := by
    intro n s hliteral hsupplied
    refine ⟨hliteral, fun v hv => ?_⟩
    rw [hsupplied] at hv
    rw [List.mem_singleton.mp hv]
    exact Value.refersWithin_atom
  exact ⟨⟨rfl, nofun⟩, ⟨rfl, nofun⟩, hlabel rfl rfl, ⟨rfl, nofun⟩, hlabel rfl rfl⟩

theorem kennelHeap_coherent (hStart : ∀ s, Start s → ∃ i, s = .node i) :
    kennelHeap.Coherent Start := by
  have hnode : ∀ {t : Schema}, kennelHeap.Below Start t → ∃ i, t = .node i := by
    rintro t ⟨s, hs, ht⟩
    obtain ⟨i, rfl⟩ := hStart s hs
    obtain ⟨j, _, rfl⟩ := kennelHeap_descends.reaches ht
    exact ⟨j, rfl⟩
  refine ⟨fun t _ => ?_, fun t _ => ?_, ?_, fun t _ => ?_, fun t ht => ?_⟩
  · refine kennelHeap.forall_view (P := fun n => n.className.truthy = true →
      n.isForbidden = false) ?_ (fun _ _ _ => rfl) t
    simp only [kennelHeap, List.mem_toArray, List.forall_mem_cons, List.not_mem_nil, false_implies,
      implies_true, and_true]
    exact ⟨fun _ => rfl, fun _ => rfl, fun _ => rfl, fun _ => rfl, fun _ => rfl⟩
  · refine kennelHeap.forall_view (P := fun n => n.className.truthy = true →
      ∃ bucket name : String, n.classBucket = .str bucket ∧ n.className = .str name ∧
        '/' ∉ bucket.toList) ?_ (fun _ _ htruthy => by cases htruthy) t
    simp only [kennelHeap, List.mem_toArray, List.forall_mem_cons, List.not_mem_nil, false_implies,
      implies_true, and_true]
    exact ⟨nofun, fun _ => ⟨_, _, rfl, rfl, by decide⟩, nofun,
      fun _ => ⟨_, _, rfl, rfl, by decide⟩, nofun⟩
  · intro t u bucket name ht hu _ htoverride huoverride htclass huclass
    obtain ⟨i, rfl⟩ := hnode ht
    obtain ⟨j, rfl⟩ := hnode hu
    obtain ⟨hbucket, hname⟩ := kennelHeap_owns ⟨htoverride, htclass⟩
    cases hbucket
    cases hname
    exact ⟨_, _, _, kennelHeap_registers ⟨htoverride, htclass⟩,
      kennelHeap_registers ⟨huoverride, huclass⟩, rfl, rfl⟩
  · exact kennelHeap.forall_view kennelHeap_ownsNoRefs (fun _ _ => ⟨rfl, nofun⟩) t
  · obtain ⟨i, rfl⟩ := hnode ht
    exact kennelHeap_supplies

/-- What a value compiles to by itself has the title of whatever it compiles to. -/
theorem Heap.Gives.title {h : Heap} {v schema : Value} {title : Option Value}
    (hallowed : h.NoForbiddenClassIn v) (hgives : h.Gives v (some schema))
    (htitle : (h.compileAgainst [] v).1.map (Option.map fun c => c.schema.field? "title") =
      .ok (some title)) : schema.field? "title" = title := by
  obtain ⟨_, _, hrun⟩ := hgives
  cases hcompiled : (h.compileAgainst [] v).1 with
  | error =>
    rw [hcompiled] at htitle
    cases htitle
  | ok compiled =>
    obtain ⟨r, after, hrun', rfl⟩ := compileAgainst_eq_ok_iff.mp hcompiled
    obtain rfl := hallowed.one_outcome hrun hrun'
    rw [hcompiled] at htitle
    exact Option.some.inj (Except.ok.inj htitle)

theorem kennelHeap_allowed (v : Value) : kennelHeap.NoForbiddenClassIn v := by
  refine Heap.noForbiddenClass_of_nodes ?_ v
  simp only [kennelHeap, List.mem_toArray, List.forall_mem_cons, List.not_mem_nil, false_implies,
    implies_true, and_true]
  exact ⟨fun _ => rfl, fun _ => rfl, fun _ => rfl, fun _ => rfl, fun _ => rfl⟩

theorem kennelSource_coherent {bodies : List (String × NodeId)}
    (hroutes : (kennelSource bodies).getRoutes kennelHeap.describe =
      .ok (bodies.map fun body => kennelRoute body.1 body.2))
    (htitles : ∀ body ∈ bodies, ∃ title : Option String,
      (kennelHeap.compileAgainst [] (.node body.2)).1.map (Option.map fun c =>
        c.schema.field? "title") = .ok (some (title.map .str)) ∧ title ≠ some "Pet") :
    (kennelSource bodies).Coherent kennelHeap := by
  have hmedia : ∀ v, (kennelSource bodies).HasMedia kennelHeap.describe v →
      ∃ body ∈ bodies, v = .node body.2 := by
    rintro v ⟨routes, hr, r, hrm, m, hm, rfl⟩
    rw [hroutes] at hr
    cases hr
    obtain ⟨body, hbody, rfl⟩ := List.mem_map.mp hrm
    obtain rfl : m = (.node body.2, .null) := List.mem_singleton.mp hm
    exact ⟨body, hbody, rfl⟩
  have hstarts : ∀ s, (kennelSource bodies).Starts kennelHeap s → ∃ i, s = .node i := by
    rintro s (⟨hschemas, he, _⟩ | ⟨hparameters, he, _⟩ | ⟨hr, hrm, hs, _⟩ | ⟨hv, hs⟩)
    · cases hschemas
      cases he
    · cases hparameters
      cases he
    · rw [hroutes] at hr
      cases hr
      obtain ⟨body, hbody, rfl⟩ := List.mem_map.mp hrm
      cases hs
    · obtain ⟨body, _, rfl⟩ := hmedia _ hv
      cases hs
      exact ⟨_, rfl⟩
  have hsupplied : ∀ v, (kennelSource bodies).Supplies kennelHeap.describe v → ∃ i, v = .node i := by
    rintro v (⟨hschemas, he⟩ | ⟨hr, hrm, hm⟩)
    · cases hschemas
      cases he
    · obtain ⟨body, _, heq⟩ := hmedia _ ⟨_, hr, _, hrm, _, hm, rfl⟩
      exact ⟨_, heq⟩
  have hnames : ∀ {bucket name : String},
      kennelHeap.NamesClass ((kennelSource bodies).Starts kennelHeap) bucket name → name = "Pet" := by
    rintro bucket name ⟨t, _, hown⟩
    exact Atom.str.inj (kennelHeap_owns hown).2
  refine ⟨⟨?_, ?_, fun v _ => kennelHeap_allowed v⟩, kennelHeap_coherent hstarts, ?_, ?_, ?_, ?_⟩
  · rintro es identity hschemas
    cases hschemas
    exact List.Pairwise.nil
  · intro v w hv hw _ heq
    obtain ⟨i, rfl⟩ := hsupplied v hv
    obtain ⟨j, rfl⟩ := hsupplied w hw
    cases heq
    rfl
  · have hnodes : ∀ v, kennelHeap.OwnsNoRefs v := Heap.ownsNoRefs_of_nodes kennelHeap_ownsNoRefs
    refine ⟨fun _ _ _ _ _ => hnodes _, fun _ _ _ _ _ => hnodes _, ?_, ?_⟩
    · intro v hv
      cases hv
      exact Value.refersWithin_ofFields (by simpa using Value.refersWithin_atom)
    · intro routes hr r hrm
      rw [hroutes] at hr
      cases hr
      obtain ⟨body, _, rfl⟩ := List.mem_map.mp hrm
      refine ⟨hnodes _, fun m hm => ?_, fun v hv => ?_⟩
      · obtain rfl : m = (.node body.2, .null) := List.mem_singleton.mp hm
        exact ⟨hnodes _, Value.refersWithin_atom⟩
      · have hatom : ∃ a, v = .atom a := by
          simp only [Route.texts, kennelRoute, List.mem_append, List.mem_cons, Option.map_some,
            Option.getD_some, List.map_nil, List.not_mem_nil, or_false] at hv
          rcases hv with (rfl | rfl) | rfl | rfl <;> exact ⟨_, rfl⟩
        obtain ⟨a, rfl⟩ := hatom
        exact Value.refersWithin_atom
  · rintro es identity hschemas e he
    cases hschemas
    cases he
  · rintro es identity hparameters e he
    cases hparameters
    cases he
  · intro v hv schema title hgives hfield
    obtain ⟨body, hbody, rfl⟩ := hmedia v hv
    obtain ⟨found, hfound, hne⟩ := htitles body hbody
    have htitle := hgives.title (kennelHeap_allowed _) hfound
    obtain ⟨key, rfl, rfl⟩ := Option.map_eq_some_iff.mp (htitle.symm.trans hfield)
    exact ⟨key, rfl, fun hclass => hne (congrArg some (hnames hclass))⟩

theorem orderSource_coherent : orderSource.Coherent kennelHeap := by
  refine kennelSource_coherent rfl ?_
  refine List.forall_mem_cons.mpr ⟨⟨some "Order", rfl, by decide⟩, ?_⟩
  exact List.forall_mem_cons.mpr ⟨⟨none, rfl, by decide⟩, nofun⟩

theorem flagSource_coherent : flagSource.Coherent kennelHeap :=
  kennelSource_coherent rfl
    (List.forall_mem_cons.mpr ⟨⟨some "Flags", rfl, by decide⟩, nofun⟩)

/-- Nothing that an order or a pet holds is named like the mark. -/
theorem kennelHeap_translates (hi : i ≤ 3) : kennelHeap.Translates (.node i) := by
  have hkey : ∀ {s : String}, s ≠ "nullable" → (Atom.str s).IsNoMark :=
    fun hne heq => hne (Atom.str.inj heq)
  have hone : ∀ {s : String} {t : Schema}, s ≠ "nullable" → ∀ e ∈ [(Atom.str s, t)], e.1.IsNoMark := by
    intro s t hne e he
    rw [List.mem_singleton.mp he]
    exact hkey hne
  intro s hs
  cases hs
  refine ⟨kennelHeap_descends.acyclic, fun t ht => ?_⟩
  obtain ⟨j, hj, rfl⟩ := kennelHeap_descends.reaches ht
  rcases j with _ | _ | _ | _ | j
  · exact ⟨⟨rfl, nofun, .of_none rfl⟩, nofun⟩
  · exact ⟨⟨rfl, hone (by decide), .of_some rfl (hkey (by decide)) (hkey (by decide))⟩, nofun⟩
  · refine ⟨⟨rfl, hone (by decide), .of_none rfl⟩, fun x hx => ?_⟩
    obtain rfl : x = .str "Order" := List.mem_singleton.mp hx
    exact ⟨_, rfl⟩
  · exact ⟨⟨rfl, hone (by decide), .of_some rfl (hkey (by decide)) (hkey (by decide))⟩, nofun⟩
  · exact absurd (hj.trans hi) (Nat.not_le.mpr (Nat.le_add_left 4 j))

theorem orderSource_paths {paths : Paths}
    (hpaths : orderSource.paths kennelHeap.describe = .ok paths) :
    paths.media = [(.node 2, .null), (.node 3, .null)] := by
  cases hpaths
  rfl

namespace Spec

/-- An order is published under its label, the class of its pet is that of the other body, and both
bodies have containers with the same schemas. -/
theorem bodies_agree_orders : orderSource.Coherent kennelHeap ∧
    ∃ fields log, build kennelHeap [] orderSource .null .null = (.ok fields, log) ∧
      ∃ components : Components,
        OrderedMap.get? fields (.str "components") = some components.toValue ∧
          List.Forall₂ (fun id target => ∃ c,
            (Container.compile kennelHeap (.node id) false).1 = .ok c ∧
              ExpandAlike kennelHeap.describe components.lookup c.components.lookup target c.schema)
            [2, 3] (targets fields) := by
  have hok : (build kennelHeap [] orderSource .null .null).1.isOk = true := by rfl
  cases hbuild : build kennelHeap [] orderSource .null .null with
  | mk outcome log =>
    rw [hbuild] at hok
    cases outcome with
    | error fault => cases hok
    | ok fields =>
      obtain ⟨paths, components, hpaths, hcomponents, hall⟩ :=
        bodies_agree orderSource_coherent hbuild
      rw [orderSource_paths hpaths] at hall
      refine ⟨orderSource_coherent, fields, log, rfl, components, hcomponents, ?_⟩
      obtain ⟨target, _, ⟨hfirst, hfirst'⟩, hall, htargets⟩ := List.forall₂_cons_left_iff.mp hall
      obtain ⟨target', _, ⟨hsecond, hsecond'⟩, hnil, rfl⟩ := List.forall₂_cons_left_iff.mp hall
      obtain rfl := List.forall₂_nil_left_iff.mp hnil
      rw [htargets]
      obtain ⟨c, hc⟩ := hfirst (kennelHeap_translates (by decide))
      obtain ⟨c', hc'⟩ := hsecond (kennelHeap_translates (by decide))
      exact .cons ⟨c, hc, hfirst' c hc⟩ (.cons ⟨c', hc', hsecond' c' hc'⟩ .nil)

/-- The flags are published, but no container is made of them: one of their names is read as the mark
of nullable schemas. -/
theorem bodies_agree_flags : flagSource.Coherent kennelHeap ∧
    flagSource.HasMedia kennelHeap.describe (.node 4) ∧
    (build kennelHeap [] flagSource .null .null).1.isOk = true ∧
    (Container.compile kennelHeap (.node 4) false).1.isOk = false :=
  ⟨flagSource_coherent, ⟨_, rfl, _, List.mem_cons_self, _, List.mem_cons_self, rfl⟩, by rfl,
    by decide +kernel⟩

end Spec

end Kennel

end WireShape
