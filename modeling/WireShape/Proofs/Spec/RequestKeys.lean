import WireShape.Proofs.Properties
import WireShape.Proofs.Spec.Operations

/-!
# The keys of a request, documented and checked

The document lists the keys of the headers, of the query and of the path parameters of a route as
they stand in the node of the schema; a request is checked against what the schema compiles to.
Both are the same keys in the same order where nothing stands in the place of the node or of what it
describes. A schema that overrides the node is checked, but its keys are not documented
(`Spec.request_keys_override`).

* `Spec.NamesOf`: the names under which the keys of parameters are declared.
* `Spec.Documents`: parameters that are those of the keys that a container describes.
* `Spec.request_keys`: the parameters of all operations of a document.
-/

namespace WireShape

open Value (Fields)

/-- Of children with outcomes of two kinds, which agree on which of them give anything, the keys of
the ones go with what the others give. -/
theorem forall₂_shownKeys {V : Atom × Schema → Compiled → Prop}
    {W : Atom × Schema → Option Value → Prop} {R : Atom → Value → Prop}
    {children : List (Atom × Schema)} {outcomes : List Compiled} {found : List (Option Value)}
    (houtcomes : List.Forall₂ V children outcomes) (hfound : List.Forall₂ W children found)
    (hagree : ∀ e ∈ children, ∀ r o, V e r → W e o →
      r = none ∧ o = none ∨ ∃ v item, r = some v ∧ o = some item ∧ R e.1 item) :
    List.Forall₂ R (shownKeys children outcomes) (found.filterMap id) := by
  unfold shownKeys shownChildren
  induction houtcomes generalizing found with
  | nil =>
    cases hfound
    exact .nil
  | @cons e r children outcomes hV _ ih =>
    cases hfound with
    | @cons _ o _ found hW hrest =>
      have ih := ih hrest fun e' he' => hagree e' (List.mem_cons_of_mem _ he')
      rw [List.zip_cons_cons]
      rcases hagree e List.mem_cons_self r o hV hW with ⟨rfl, rfl⟩ | ⟨v, item, rfl, rfl, hR⟩
      · exact ih
      · exact .cons hR ih

namespace Spec

/-! ## Parameters by key -/

/-- The name by which a key is referred to: that under which it is declared, or else the key. -/
def ParameterNames.nameOf (names : ParameterNames) (key : Atom) : Atom :=
  match OrderedMap.get? names key with
  | some name => if name == .null then key else name
  | none => key

/-- The reference to the parameter of a key. -/
def RefersTo (describe : Describe) (names : ParameterNames) (key : Atom) (item : Value) : Prop :=
  referenceTo describe (.str "parameters") (names.nameOf key) = .ok item

/-- A parameter in the path that stands in place under its key. -/
def StandsFor (key : Atom) (item : Value) : Prop :=
  item.field? "name" = some (.atom key) ∧ item.field? "in" = some (.str "path")

/-- A parameter in the path that is required and has in place what its key compiles to, but for the
description. -/
structure StandsInPath (key : Atom) (schema item : Value) : Prop where
  stands : StandsFor key item
  required : item.field? "required" = some (.bool true)
  schema : ∃ definition : Fields, schema.toEntries = .ok definition ∧
    item.field? "schema" = some (.ofEntries (definition.remove "description"))

/-- What a key in the path gives: nothing if its schema compiles to nothing, and else a parameter. -/
def GivesInPath (h : Heap) (e : Atom × Schema) (reg : Registry) (o : Option Value)
    (after : Registry) : Prop :=
  Runs (Registry.compileSchema h e.2) reg none after ∧ o = none ∨
    ∃ schema item, Runs (Registry.compileSchema h e.2) reg (some schema) after ∧ o = some item ∧
      StandsInPath e.1 schema item

section Runs

variable {setup : Setup} {names : ParameterNames} {route : Route} {key name : Atom}
  {container : Value} {items : List Value} {reg after : Registry}

theorem runs_parameterName (hrun : Runs (parameterName setup names route key) reg name after) :
    name = names.nameOf key := by
  have hundeclared : Runs (parameterName.undeclared setup route key) reg name after → name = key := by
    intro hrun
    unfold parameterName.undeclared at hrun
    obtain ⟨_, _, hrun⟩ := runs_registryLift_bind_iff.mp hrun
    split at hrun
    · obtain ⟨_, _, hrun⟩ := runs_registryLift_bind_iff.mp hrun
      obtain ⟨_, _, hthrow, _⟩ := runs_bind_iff.mp hrun
      exact absurd hthrow not_runs_throw
    · obtain ⟨_, _, hrun⟩ := runs_registryLift_bind_iff.mp hrun
      obtain ⟨_, _, hrun⟩ := runs_registryLift_bind_iff.mp hrun
      obtain ⟨_, _, hrun⟩ := runs_registryLift_bind_iff.mp hrun
      obtain ⟨_, _, _, hrun⟩ := runs_bind_iff.mp hrun
      exact (runs_pure_iff.mp hrun).1
  unfold parameterName at hrun
  unfold ParameterNames.nameOf
  cases hget : OrderedMap.get? names key with
  | none =>
    rw [hget] at hrun
    exact hundeclared hrun
  | some declared =>
    rw [hget] at hrun
    dsimp only at hrun ⊢
    split at hrun
    · rename_i hnull
      rw [if_pos hnull]
      exact hundeclared hrun
    · rename_i hsome
      rw [if_neg hsome]
      exact (runs_pure_iff.mp hrun).1

/-- The references for a container are made one after the other for the keys of its node that are not
forbidden. -/
theorem chain_referenceParameters
    (hrun : Runs (referenceParameters setup names route container) reg items after) :
    (container.isNull = true ∧ items = [] ∧ after = reg) ∨ container.isNull = false ∧
      ∃ s, Schema.ofValue container = .ok s ∧
        Chain (fun e before item later => ∃ name,
          Runs (parameterName setup names route e.1) before name later ∧
            referenceTo setup.heap.describe (.str "parameters") name = .ok item)
          ((setup.heap.view s).children.filter fun e => !(setup.heap.view e.2).isForbidden) reg items
          after := by
  unfold referenceParameters at hrun
  split at hrun
  · rename_i hnull
    exact .inl ⟨hnull, runs_pure_iff.mp hrun⟩
  · rename_i hsome
    refine .inr ⟨Bool.eq_false_iff.mpr hsome, ?_⟩
    obtain ⟨s, hs, hrun⟩ := runs_registryLift_bind_iff.mp hrun
    refine ⟨s, hs, (runs_mapM_iff.mp hrun).mono fun e _ before item later hstep => ?_⟩
    obtain ⟨name, _, hname, hstep⟩ := runs_bind_iff.mp hstep
    obtain ⟨hitem, rfl⟩ := runs_registryLift_iff.mp hstep
    exact ⟨name, hname, hitem⟩

/-- The references for a container are those of the keys of its node that are not forbidden. -/
theorem runs_referenceParameters
    (hrun : Runs (referenceParameters setup names route container) reg items after) :
    (container.isNull = true → items = []) ∧ (container.isNull = false →
      ∃ s, Schema.ofValue container = .ok s ∧
        List.Forall₂ (RefersTo setup.heap.describe names) (((setup.heap.view s).children.filter
          fun e => !(setup.heap.view e.2).isForbidden).map (·.1)) items) := by
  rcases chain_referenceParameters hrun with ⟨hnull, hitems, -⟩ | ⟨hsome, s, hs, hchain⟩
  · exact ⟨fun _ => hitems, fun h => absurd (hnull.symm.trans h) nofun⟩
  · refine ⟨fun h => absurd (hsome.symm.trans h) nofun, fun _ => ⟨s, hs, ?_⟩⟩
    refine List.forall₂_map_left_iff.mpr (hchain.answers ?_)
    rintro e _ before item later ⟨name, hname, hitem⟩
    rwa [RefersTo, ← runs_parameterName hname]

/-- The parameters in the path are made one after the other for the keys whose schemas compile to
one. -/
theorem chain_pathParameters (hrun : Runs (pathParameters setup container) reg items after) :
    (container.isNull = true ∧ items = [] ∧ after = reg) ∨ container.isNull = false ∧
      ∃ s found, Schema.ofValue container = .ok s ∧ items = found.filterMap id ∧
        Chain (GivesInPath setup.heap) (setup.heap.view s).children reg found after := by
  unfold pathParameters at hrun
  split at hrun
  · rename_i hnull
    exact .inl ⟨hnull, runs_pure_iff.mp hrun⟩
  · rename_i hsome
    refine .inr ⟨Bool.eq_false_iff.mpr hsome, ?_⟩
    obtain ⟨s, hs, hrun⟩ := runs_registryLift_bind_iff.mp hrun
    obtain ⟨found, _, hloop, hrun⟩ := runs_bind_iff.mp hrun
    obtain ⟨hitems, rfl⟩ := runs_pure_iff.mp hrun
    refine ⟨s, found, hs, hitems, (runs_mapM_iff.mp hloop).mono fun e _ before o later hstep => ?_⟩
    obtain ⟨r, _, hcompile, hstep⟩ := runs_bind_iff.mp hstep
    cases r with
    | none =>
      obtain ⟨rfl, rfl⟩ := runs_pure_iff.mp hstep
      exact .inl ⟨hcompile, rfl⟩
    | some schema =>
      obtain ⟨definition, hdefinition, hstep⟩ := runs_registryLift_bind_iff.mp hstep
      obtain ⟨rfl, rfl⟩ := runs_pure_iff.mp hstep
      refine .inr ⟨schema, _, hcompile, rfl, ?_⟩
      split <;> exact ⟨⟨rfl, rfl⟩, rfl, definition, hdefinition, rfl⟩

/-- The parameters in the path are those of the keys whose schemas compile to one. -/
theorem runs_pathParameters (hrun : Runs (pathParameters setup container) reg items after) :
    (container.isNull = true → items = []) ∧ (container.isNull = false →
      ∃ s found, Schema.ofValue container = .ok s ∧ items = found.filterMap id ∧
        List.Forall₂ (fun e o => ∃ ctx r later, Walked setup.heap e.2 false ctx r later ∧
          (r = none ∧ o = none ∨ ∃ v item, r = some v ∧ o = some item ∧ StandsFor e.1 item))
          (setup.heap.view s).children found) := by
  rcases chain_pathParameters hrun with ⟨hnull, hitems, -⟩ | ⟨hsome, s, found, hs, hitems, hchain⟩
  · exact ⟨fun _ => hitems, fun h => absurd (hnull.symm.trans h) nofun⟩
  · refine ⟨fun h => absurd (hsome.symm.trans h) nofun, fun _ => ⟨s, found, hs, hitems, ?_⟩⟩
    refine hchain.answers fun e _ before o later hgives => ?_
    rcases hgives with ⟨hcompile, rfl⟩ | ⟨schema, item, hcompile, rfl, hitem⟩
    · obtain ⟨hwalk, _, _⟩ := Registry.runs_runWalk hcompile
      exact ⟨_, none, _, walked_of_runs hwalk, .inl ⟨rfl, rfl⟩⟩
    · obtain ⟨hwalk, _, _⟩ := Registry.runs_runWalk hcompile
      exact ⟨_, some schema, _, walked_of_runs hwalk, .inr ⟨schema, item, rfl, rfl, hitem.stands⟩⟩

end Runs

/-! ## Keys that are documented and checked -/

/-- The given parameters are those of the keys that a container describes, one for each in their
order. What it holds has to be such that it gives a schema in the one place as in the other. -/
def Documents (h : Heap) (Child : Schema → Prop) (Item : Atom → Value → Prop) (container : Value)
    (items : List Value) : Prop :=
  (container = .null → items = []) ∧
  ∀ s, Schema.ofValue container = .ok s → h.Direct s → (∀ e ∈ (h.view s).children, Child e.2) →
    ∀ allowUnknown c, (Container.compile h container allowUnknown).1 = .ok c →
      ∃ properties, c.properties = .ok (.ofEntries properties) ∧
        List.Forall₂ Item (OrderedMap.keys properties) items

/-- The parameters of an operation are those of the headers, of the query and of the path. -/
def DocumentsRequest (h : Heap) (names : ParameterNames) (route : Route) (operation : Value) : Prop :=
  ∃ headers query path, operation.field? "parameters" = some (.list (headers ++ query ++ path)) ∧
    Documents h h.Ordinary (RefersTo h.describe names) route.headers headers ∧
    Documents h h.Ordinary (RefersTo h.describe names) route.query query ∧
    Documents h (fun s => h.Ordinary s ∨ h.NoForbiddenClass s) StandsFor route.params path

section Keys

variable {setup : Setup} {names : ParameterNames} {route : Route} {container operation : Value}
  {items : List Value} {reg after : Registry}

theorem documents_references
    (hrun : Runs (referenceParameters setup names route container) reg items after) :
    Documents setup.heap setup.heap.Ordinary (RefersTo setup.heap.describe names) container
      items := by
  obtain ⟨hnull, hsome⟩ := runs_referenceParameters hrun
  refine ⟨fun h => hnull (Value.isNull_iff.mpr h), fun s hs hdirect hchildren allowUnknown c hc => ?_⟩
  obtain ⟨properties, outcomes, hproperties, hall, hkeys⟩ :=
    Container.properties_of_direct hc hs hdirect
  refine ⟨properties, hproperties, ?_⟩
  have hordinary : List.Forall₂ (fun e r => r = none ↔ (setup.heap.view e.2).isForbidden = true)
      (setup.heap.view s).children outcomes :=
    forall₂_imp_mem (fun e he r ⟨_, _, hrun⟩ => (hchildren e he).eq_none_iff hrun) hall
  rw [hkeys, shownKeys_ordinary hordinary]
  cases hcontainer : container.isNull with
  | true =>
    rw [Value.isNull_iff.mp hcontainer] at hs
    cases hs
  | false =>
    obtain ⟨s', hs', hitems⟩ := hsome hcontainer
    obtain rfl := Except.ok.inj (hs'.symm.trans hs)
    exact hitems

theorem documents_pathParameters
    (hrun : Runs (pathParameters setup container) reg items after) :
    Documents setup.heap (fun s => setup.heap.Ordinary s ∨ setup.heap.NoForbiddenClass s) StandsFor
      container items := by
  obtain ⟨hnull, hsome⟩ := runs_pathParameters hrun
  refine ⟨fun h => hnull (Value.isNull_iff.mpr h), fun s hs hdirect hchildren allowUnknown c hc => ?_⟩
  obtain ⟨properties, outcomes, hproperties, hall, hkeys⟩ :=
    Container.properties_of_direct hc hs hdirect
  refine ⟨properties, hproperties, ?_⟩
  rw [hkeys]
  cases hcontainer : container.isNull with
  | true =>
    rw [Value.isNull_iff.mp hcontainer] at hs
    cases hs
  | false =>
    obtain ⟨s', found, hs', rfl, hfound⟩ := hsome hcontainer
    obtain rfl := Except.ok.inj (hs'.symm.trans hs)
    refine forall₂_shownKeys hall hfound fun e he r o hr ho => ?_
    obtain ⟨_, _, hrun⟩ := hr
    obtain ⟨_, r', _, hrun', ho⟩ := ho
    -- The container and the document ask the same position, each with definitions of its own.
    have hagree : r = none ↔ r' = none := by
      rcases hchildren e he with hordinary | hnone
      · exact (hordinary.eq_none_iff hrun).trans (hordinary.eq_none_iff hrun').symm
      · rw [hrun.unique hnone hrun']
    rcases ho with ⟨hr', rfl⟩ | ⟨v', item, rfl, rfl, hitem⟩
    · exact .inl ⟨hagree.mpr hr', rfl⟩
    · cases r with
      | none => exact absurd (hagree.mp rfl) nofun
      | some v => exact .inr ⟨v, item, rfl, rfl, hitem⟩

/-- The parameters of an operation are those of the keys that its route is checked for. -/
theorem documents_operationOf (hrun : Runs (operationOf setup names route) reg operation after) :
    DocumentsRequest setup.heap names route operation := by
  rw [operationOf_eq] at hrun
  obtain ⟨parameters, _, hparameters, hrun⟩ := runs_bind_iff.mp hrun
  obtain ⟨body, _, _, hrun⟩ := runs_bind_iff.mp hrun
  obtain ⟨responses, _, _, hrun⟩ := runs_bind_iff.mp hrun
  obtain ⟨rfl, rfl⟩ := runs_pure_iff.mp hrun
  obtain ⟨headers, _, hheaders, hparameters⟩ := runs_bind_iff.mp hparameters
  obtain ⟨query, _, hquery, hparameters⟩ := runs_bind_iff.mp hparameters
  obtain ⟨path, _, hpath, hparameters⟩ := runs_bind_iff.mp hparameters
  obtain ⟨rfl, rfl⟩ := runs_pure_iff.mp hparameters
  exact ⟨headers, query, path, rfl, documents_references hheaders, documents_references hquery,
    documents_pathParameters hpath⟩

end Keys

/-! ## The whole document -/

/-- The names under which a source declares the keys of parameters. -/
def NamesOf (setup : Setup) (source : Source) (names : ParameterNames) : Prop :=
  ∃ schemas parameters i j declared mid, source.getSchemas = .ok schemas ∧
    source.getParameters = .ok parameters ∧ Runs (declareSchemas setup schemas) {} i declared ∧
      Runs (declareParameters setup parameters) declared j mid ∧ parameterNames mid = .ok names

/-- **The documented keys are the checked keys.** In a document that is built, the parameters of each
operation are, for the headers, for the query and for the path, those of the keys that the container
of the route describes, one for each in their order, if the schema of the container is an object in
whose place nothing stands. -/
theorem request_keys {heap : Heap} {env : Environment} {source : Source} {strict headerStart : Value}
    {document : Fields} (hbuild : (build heap env source strict headerStart).1 = .ok document) :
    ∃ names routes paths, NamesOf (setupOf heap env strict headerStart) source names ∧
      source.paths heap.describe = .ok routes ∧
      OrderedMap.get? document (.str "paths") = some (.ofEntries paths) ∧
      List.Forall₂ (fun p b => p.1 = b.1 ∧ ∃ operations, b.2 = .ofEntries operations ∧
        List.Forall₂ (fun m o => m.1 = o.1 ∧ DocumentsRequest heap names m.2 o.2) p.2 operations)
        routes paths := by
  obtain ⟨_, hbuilding⟩ := building_of_build hbuild
  cases hbuilding with
  | run hschemas hparameters hdeclare hdeclare' hnames hpaths hoperations _ _ =>
    refine ⟨_, _, _, ⟨_, _, _, _, _, _, hschemas, hparameters, hdeclare, hdeclare', hnames⟩, hpaths,
      rfl, (forall₂_pathsOf hoperations).imp fun p b ⟨hpath, operations, hitem, hall⟩ => ?_⟩
    refine ⟨hpath, operations, hitem, hall.imp fun m o ⟨hmethod, _, _, hrun⟩ => ?_⟩
    exact ⟨hmethod, documents_operationOf hrun⟩

/-- A query with a forbidden key, and path parameters that are a class. -/
def tripHeap : Heap where
  nodes := #[{ kind := "string" }, { kind := "string", flags := [("presence", .str "forbidden")] },
    { kind := "object", children := [(.str "page", .node 0), (.str "secret", .node 1),
      (.str "size", .node 0)] },
    { kind := "object", children := [(.str "id", .node 0)],
      metadata := [(.str "className", .str "TripKey")] }]

def tripSource : Source where
  tag := some (.ofFields [("name", .str "trips")])
  schemas := some (.ofEntries [])
  parameters := some (.ofEntries [(.str "Page", .ofEntries [(.str "page", .node 0)])])
  routes := some [.ofFields [("path", .str "/trips/<id>"), ("method", .str "get"),
    ("summary", .str "Show"), ("query", .node 2), ("params", .node 3)]]

theorem tripHeap_ordinary : tripHeap.Ordinary (.node 0) ∧ tripHeap.Ordinary (.node 1) :=
  ⟨⟨rfl, rfl, fun _ => rfl⟩, rfl, rfl, fun _ => rfl⟩

theorem tripHeap_direct : tripHeap.Direct (.node 2) ∧ tripHeap.Direct (.node 3) :=
  ⟨⟨rfl, rfl, nofun, nofun, rfl, rfl, by unfold OrderedMap.Separate; decide, nofun⟩,
    rfl, rfl, nofun, nofun, rfl, rfl, by unfold OrderedMap.Separate; decide,
    fun _ => ⟨"schemas", "TripKey", rfl, rfl, by decide⟩⟩

/-- The document of the trips lists the keys `page` and `size` of the query and the key `id` of the
path, which are the keys that are checked. -/
theorem request_keys_trips : ∃ document names query path,
    (build tripHeap [] tripSource .null .null).1 = .ok document ∧
    (∃ c properties, (Container.compile tripHeap (.node 2) false).1 = .ok c ∧
      c.properties = .ok (.ofEntries properties) ∧
      OrderedMap.keys properties = [.str "page", .str "size"] ∧
      List.Forall₂ (RefersTo tripHeap.describe names) (OrderedMap.keys properties) query) ∧
    ∃ c properties, (Container.compile tripHeap (.node 3) false).1 = .ok c ∧
      c.properties = .ok (.ofEntries properties) ∧ OrderedMap.keys properties = [.str "id"] ∧
      List.Forall₂ StandsFor (OrderedMap.keys properties) path := by
  have hok : (build tripHeap [] tripSource .null .null).1.isOk = true := by rfl
  obtain ⟨document, hbuild⟩ := exists_of_isOk hok
  obtain ⟨names, routes, _, _, hroutes, _, hall⟩ := request_keys hbuild
  obtain ⟨route, hroute, hquery, hparams⟩ : ∃ route : Route,
      tripSource.paths tripHeap.describe = .ok [(.str "/trips/<id>", [(.str "get", route)])] ∧
        route.query = .node 2 ∧ route.params = .node 3 := ⟨_, rfl, rfl, rfl⟩
  obtain rfl := Except.ok.inj (hroutes.symm.trans hroute)
  obtain ⟨_, _, _, _, _, hoperations⟩ := forall₂_left hall (List.mem_singleton_self _)
  obtain ⟨_, _, _, hrequest⟩ := forall₂_left hoperations (List.mem_singleton_self _)
  obtain ⟨_, query, path, _, _, hqueryKeys, hpathKeys⟩ := hrequest
  obtain ⟨c, properties, hc, hproperties, hkeys⟩ : ∃ c properties,
      (Container.compile tripHeap (.node 2) false).1 = .ok c ∧
        c.properties = .ok (.ofEntries properties) ∧
          OrderedMap.keys properties = [.str "page", .str "size"] := ⟨_, _, rfl, rfl, rfl⟩
  obtain ⟨c', properties', hc', hproperties', hkeys'⟩ : ∃ c properties,
      (Container.compile tripHeap (.node 3) false).1 = .ok c ∧
        c.properties = .ok (.ofEntries properties) ∧
          OrderedMap.keys properties = [.str "id"] := ⟨_, _, rfl, rfl, rfl⟩
  refine ⟨document, names, query, path, hbuild, ⟨c, properties, hc, hproperties, hkeys, ?_⟩,
    c', properties', hc', hproperties', hkeys', ?_⟩
  · rw [hquery] at hqueryKeys
    obtain ⟨_, heq, hall⟩ := hqueryKeys.2 (.node 2) rfl tripHeap_direct.1
      (List.forall_mem_cons.mpr ⟨tripHeap_ordinary.1, List.forall_mem_cons.mpr
        ⟨tripHeap_ordinary.2, List.forall_mem_cons.mpr ⟨tripHeap_ordinary.1, nofun⟩⟩⟩) false c hc
    cases hproperties.symm.trans heq
    exact hall
  · rw [hparams] at hpathKeys
    obtain ⟨_, heq, hall⟩ := hpathKeys.2 (.node 3) rfl tripHeap_direct.2
      (List.forall_mem_cons.mpr ⟨.inl tripHeap_ordinary.1, nofun⟩) false c' hc'
    cases hproperties'.symm.trans heq
    exact hall

/-- A query whose only key is `a`, and in whose place a schema with the only key `b` stands. -/
def detourHeap : Heap where
  nodes := #[{ kind := "string" }, { kind := "object", children := [(.str "b", .node 0)] },
    { kind := "object", children := [(.str "a", .node 0)],
      metadata := [(.str "schemaOverride", .node 1)] }]

/-- A route with such a query; both keys are declared. -/
def detourSource : Source where
  tag := some (.ofFields [("name", .str "detours")])
  schemas := some (.ofEntries [])
  parameters := some (.ofEntries [(.str "a", .ofEntries [(.str "a", .node 0)]),
    (.str "b", .ofEntries [(.str "b", .node 0)])])
  routes := some [.ofFields [("path", .str "/q"), ("method", .str "get"), ("summary", .str "Show"),
    ("query", .node 2)]]

/-- The document lists `a`, but `b` is checked. -/
theorem request_keys_override : ∃ document operation c,
    (build detourHeap [] detourSource .null .null).1 = .ok document ∧
    OrderedMap.get? document (.str "paths") =
      some (.ofEntries [(.str "/q", .ofEntries [(.str "get", operation)])]) ∧
    operation.field? "parameters" = some (.list [reference "parameters" "a"]) ∧
    (Container.compile detourHeap (.node 2) false).1 = .ok c ∧
    c.properties = .ok (.ofEntries [(.str "b", .ofFields [("type", .str "string")])]) :=
  ⟨_, _, _, rfl, rfl, rfl, rfl, rfl⟩

end Spec

end WireShape
