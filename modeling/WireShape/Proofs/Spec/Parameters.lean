import WireShape.Proofs.Registry.Additions
import WireShape.Proofs.Spec.References
import WireShape.Proofs.Spec.RequestKeys
import WireShape.Proofs.Spec.Rules

/-!
# The parameters of an operation

Parameters are declared under names, and routes ask for them by the keys that the declarations have.
So a build turns the declarations round before it goes through the routes: several names may have one
key, of which the last counts, and classes may stand among the parameters without any key. The names
found then are used for all routes, while the routes still add definitions; they stay right because
nothing that is added takes the place of a parameter. If parameters must be declared, the headers and
the query of a route thus refer to definitions with their very keys, and what follows is the path.

* `Components.Holds`: a definition under its very name.
* `Spec.Declares`: the declarations of a source, and the names of its parameters.
* `Spec.ListsParameters`: the parameters of an operation, for headers, query and path.
* `Spec.operation_parameters`: all operations of a document list their parameters.
-/

namespace WireShape

open Value (Fields)

namespace Components

variable {c : Components} {b b' n n' : Atom} {d v : Value}

/-- A bucket has a definition under the very name, and finds it by every key that is the same. -/
structure Holds (c : Components) (b n : Atom) (d : Value) : Prop where
  mem : (n, d) ∈ c.bucket b
  found : ∀ j, (n == j) = true → c.find? b j = some d

theorem Holds.of_separate (hc : OrderedMap.Separate (c.bucket b)) (hmem : (n, d) ∈ c.bucket b) :
    c.Holds b n d :=
  ⟨hmem, fun _ hj => hc.get? hmem hj⟩

/-- What is written under another name leaves a definition. -/
theorem Holds.define (h : c.Holds b n d) (hother : ((b' == b) && (n' == n)) = false) :
    (c.define b' n' v).Holds b n d := by
  refine ⟨?_, fun j hj => ?_⟩
  · rw [bucket_define]
    split
    · rename_i hb
      rw [hb, Bool.true_and] at hother
      rw [bucket_congr hb]
      exact OrderedMap.mem_insert_of_mem h.mem (BEq.symm_false hother)
    · exact h.mem
  · rw [find?_define, if_neg]
    · exact h.found j hj
    · intro hsame
      obtain ⟨hb, hn⟩ := Bool.and_eq_true_iff.mp hsame
      rw [hb, BEq.trans hn (BEq.symm hj)] at hother
      cases hother

end Components

namespace Registry

variable {h : Heap} {I : Registry → Prop}

theorem Adds.preserves_addLog (hI : Adds I) {level : LogLevel} {message : String} :
    Preserves I (addLog level message) := fun _ hreg => hI.logged hreg

/-- What additions keep, the steps of operations keep. -/
theorem Adds.routeRules (hI : Adds I) : RouteRules h fun {_} step => Preserves I step :=
  { preserves_compositional with
    compileSchema := fun _ => hI.preserves_runWalk
    nameFor := fun _ => hI.nameFor }

/-! ## Parameters keep different names -/

theorem adds_separate : Adds fun reg => OrderedMap.Separate reg.parameters where
  sameData hsame hreg := by
    rw [parameters, hsame.components]
    exact hreg
  opened hreg _ := by
    rw [parameters, Components.bucket_append_empty]
    exact hreg
  defined _ hreg _ := Components.separate_define hreg
  seen _ hreg _ := hreg
  shaped _ hreg _ := hreg

/-- No step gives two parameters one name, not even one that writes over a definition. -/
theorem separate_rules :
    WalkRules h fun {_} step => Preserves (fun reg => OrderedMap.Separate reg.parameters) step :=
  { preserves_compositional with
    define := fun _ _ _ _ hreg => Components.separate_define hreg
    remember := fun v _ _ hreg => by
      unfold bind
      cases v.identity? <;> exact hreg
    bindShape := fun _ _ _ hreg => hreg
    openBucket := fun _ => adds_separate.preserves_openBucket
    read := fun _ hf => preserves_get_bind fun reg hreg => hf reg reg hreg
    debug := fun _ => adds_separate.preserves_addLogFrom
    severalKeys := fun _ _ => adds_separate.preserves_addLogFrom
    compile := fun _ => adds_separate.preserves_runWalk
    compileSchema := fun _ => adds_separate.preserves_runWalk }

/-! ## Definitions stay under their names -/

theorem adds_holds {b n : Atom} {d : Value} (hd : d.isNull = false) :
    Adds fun reg => reg.components.Holds b n d where
  sameData hsame hreg := by
    rw [hsame.components]
    exact hreg
  opened hreg _ := by
    refine ⟨?_, fun j hj => ?_⟩
    · rw [Components.bucket_append_empty]
      exact hreg.mem
    · rw [Components.find?, Components.bucket_append_empty]
      exact hreg.found j hj
  defined {reg b' n'} _ hreg hfree := by
    refine hreg.define (Bool.eq_false_iff.mpr fun hsame => ?_)
    obtain ⟨hb, hn⟩ := Bool.and_eq_true_iff.mp hsame
    have hfound : reg.definition? b n = some d :=
      definition?_eq_some_iff.mpr ⟨hreg.found n (BEq.trans (BEq.symm hn) hn), hd⟩
    rw [definition?_congr hb hn, hfound] at hfree
    cases hfree
  seen _ hreg _ := hreg
  shaped _ hreg _ := hreg

end Registry

/-- The keys of the schema that a container holds, with their positions; none if it holds none. -/
def Heap.childrenOf (h : Heap) (container : Value) : List (Atom × Schema) :=
  match Schema.ofValue container with
  | .ok s => (h.view s).children
  | .error _ => []

theorem Heap.childrenOf_null {h : Heap} {container : Value} (hnull : container.isNull = true) :
    h.childrenOf container = [] := by
  rw [Value.isNull_iff.mp hnull]
  rfl

theorem Heap.childrenOf_eq {h : Heap} {container : Value} {s : Schema}
    (hs : Schema.ofValue container = .ok s) : h.childrenOf container = (h.view s).children := by
  unfold childrenOf
  rw [hs]

namespace Spec

/-! ## What the parameters of an operation are -/

/-- A parameter is defined under a name, and what it gives as its own name is the key. -/
def HoldsParameter (components : Components) (key name : Atom) : Prop :=
  ∃ entry own, components.Holds (.str "parameters") name entry ∧
    entry.field? "name" = some (.atom own) ∧ (own == key) = true

/-- A reference to a parameter whose own name is the key. -/
def RefersToKey (describe : Describe) (components : Components) (key : Atom) (item : Value) : Prop :=
  ∃ name, referenceTo describe (.str "parameters") name = .ok item ∧
    HoldsParameter components key name

/-- The references of a container: one for each of its keys that is not forbidden, in their order. -/
def ListsReferences (h : Heap) (components : Components) (container : Value) (items : List Value) :
    Prop :=
  List.Forall₂ (fun e item => RefersToKey h.describe components e.1 item)
    ((h.childrenOf container).filter fun e => !(h.view e.2).isForbidden) items

/-- The parameters in the path: one for each key whose schema compiles to one, in their order. The
schemas are compiled one after the other against the definitions made so far. -/
def ListsPath (h : Heap) (container : Value) (reg : Registry) (items : List Value) : Prop :=
  ∃ found after, Chain (GivesInPath h) (h.childrenOf container) reg found after ∧
    items = found.filterMap id

/-- The parameters of an operation are those of the headers, of the query and of the path. -/
def ListsParameters (h : Heap) (components : Components) (route : Route) (reg : Registry)
    (operation : Value) : Prop :=
  ∃ headers query path, operation.field? "parameters" = some (.list (headers ++ query ++ path)) ∧
    ListsReferences h components route.headers headers ∧
    ListsReferences h components route.query query ∧ ListsPath h route.params reg path

/-- The declarations of a source lead to a registry, whose parameters have certain names. -/
def Declares (setup : Setup) (source : Source) (mid : Registry) (names : ParameterNames) : Prop :=
  ∃ schemas parameters i j declared, source.getSchemas = .ok schemas ∧
    source.getParameters = .ok parameters ∧ Runs (declareSchemas setup schemas) {} i declared ∧
      Runs (declareParameters setup parameters) declared j mid ∧ parameterNames mid = .ok names

section Names

variable {setup : Setup} {source : Source} {mid reg after : Registry} {names : ParameterNames}
  {key name : Atom}

theorem Declares.separate (hmid : Declares setup source mid names) :
    OrderedMap.Separate mid.parameters := by
  obtain ⟨_, _, _, _, _, _, _, hdeclare, hdeclare', _⟩ := hmid
  have hstart : OrderedMap.Separate ({} : Registry).parameters := .nil
  have hdeclared := Registry.separate_rules.declareSchemas.runs hdeclare hstart
  exact Registry.separate_rules.declareParameters.runs hdeclare' hdeclared

/-- The name that is found for a key is that of a parameter with the key as its own name. -/
theorem Declares.holds (hmid : Declares setup source mid names)
    (hname : OrderedMap.get? names key = some name) : HoldsParameter mid.components key name := by
  have hseparate := hmid.separate
  obtain ⟨_, _, _, _, _, _, _, _, _, hnames⟩ := hmid
  obtain ⟨k, hmem, hk⟩ := OrderedMap.mem_of_get? hname
  obtain ⟨entry, own, hentry, hfield, hown⟩ := mem_parameterNames hnames hmem
  refine ⟨entry, own, .of_separate hseparate hentry, hfield, ?_⟩
  rcases hown with rfl | hown
  · exact hk
  · exact BEq.trans hown hk

/-- Operations leave the definitions of parameters. -/
theorem holds_pathsOf {paths : Paths} {fields : Fields}
    (hrun : Runs (pathsOf setup names paths) reg fields after)
    (hreg : HoldsParameter reg.components key name) : HoldsParameter after.components key name := by
  obtain ⟨entry, own, hholds, hfield, hown⟩ := hreg
  have hentry : entry.isNull = false := by
    cases entry with
    | map => rfl
    | _ => cases hfield
  have hI := Registry.adds_holds (b := .str "parameters") (n := name) hentry
  have hkept := (hI.routeRules.pathsOf fun _ => hI.preserves_addLog).runs hrun hholds
  exact ⟨entry, own, hkept, hfield, hown⟩

end Names

/-! ## Operations where parameters must be declared -/

section Operations

variable {setup : Setup} {names : ParameterNames} {components : Components} {route : Route}
  {key name : Atom} {container operation : Value} {items : List Value} {reg after : Registry}

/-- Only keys that have a name get through, and the registry is left as it is. -/
theorem parameterName_strict (hstrict : setup.strict = true)
    (hrun : Runs (parameterName setup names route key) reg name after) :
    OrderedMap.get? names key = some name ∧ after = reg := by
  have hundeclared : ¬ Runs (parameterName.undeclared setup route key) reg name after := by
    intro hrun
    unfold parameterName.undeclared at hrun
    rw [hstrict] at hrun
    obtain ⟨_, _, hrun⟩ := runs_registryLift_bind_iff.mp hrun
    obtain ⟨_, _, hrun⟩ := runs_registryLift_bind_iff.mp hrun
    obtain ⟨_, _, hthrow, _⟩ := runs_bind_iff.mp hrun
    exact not_runs_throw hthrow
  unfold parameterName at hrun
  split at hrun
  · rename_i declared hname
    split at hrun
    · exact absurd hrun hundeclared
    · obtain ⟨rfl, rfl⟩ := runs_pure_iff.mp hrun
      exact ⟨hname, rfl⟩
  · exact absurd hrun hundeclared

theorem listsReferences_of_strict (hstrict : setup.strict = true)
    (hnames : ∀ key name, OrderedMap.get? names key = some name →
      HoldsParameter components key name)
    (hrun : Runs (referenceParameters setup names route container) reg items after) :
    ListsReferences setup.heap components container items ∧ after = reg := by
  unfold ListsReferences
  rcases chain_referenceParameters hrun with ⟨hnull, rfl, hafter⟩ | ⟨_, s, hs, hchain⟩
  · rw [Heap.childrenOf_null hnull]
    exact ⟨.nil, hafter⟩
  · rw [Heap.childrenOf_eq hs]
    refine ⟨hchain.answers ?_, hchain.preserves (I := fun later => later = reg) ?_ rfl⟩
    · rintro e _ before item later ⟨name, hname, hitem⟩
      exact ⟨name, hitem, hnames e.1 name (parameterName_strict hstrict hname).1⟩
    · rintro e _ before item later ⟨name, hname, _⟩ hbefore
      exact (parameterName_strict hstrict hname).2.trans hbefore

theorem listsPath_of_runs (hrun : Runs (pathParameters setup container) reg items after) :
    ListsPath setup.heap container reg items := by
  rcases chain_pathParameters hrun with ⟨hnull, rfl, -⟩ | ⟨_, s, found, hs, hitems, hchain⟩
  · refine ⟨[], reg, ?_, rfl⟩
    rw [Heap.childrenOf_null hnull]
    exact .nil
  · refine ⟨found, after, ?_, hitems⟩
    rw [Heap.childrenOf_eq hs]
    exact hchain

theorem listsParameters_of_strict (hstrict : setup.strict = true)
    (hnames : ∀ key name, OrderedMap.get? names key = some name →
      HoldsParameter components key name)
    (hrun : Runs (operationOf setup names route) reg operation after) :
    ListsParameters setup.heap components route reg operation := by
  rw [operationOf_eq] at hrun
  obtain ⟨parameters, _, hparameters, hrun⟩ := runs_bind_iff.mp hrun
  obtain ⟨body, _, _, hrun⟩ := runs_bind_iff.mp hrun
  obtain ⟨responses, _, _, hrun⟩ := runs_bind_iff.mp hrun
  obtain ⟨rfl, rfl⟩ := runs_pure_iff.mp hrun
  obtain ⟨headers, _, hheaders, hparameters⟩ := runs_bind_iff.mp hparameters
  obtain ⟨query, _, hquery, hparameters⟩ := runs_bind_iff.mp hparameters
  obtain ⟨path, _, hpath, hparameters⟩ := runs_bind_iff.mp hparameters
  obtain ⟨rfl, rfl⟩ := runs_pure_iff.mp hparameters
  -- The references need nothing of the registry, so the path starts where the operation does.
  obtain ⟨hheaderItems, rfl⟩ := listsReferences_of_strict hstrict hnames hheaders
  obtain ⟨hqueryItems, rfl⟩ := listsReferences_of_strict hstrict hnames hquery
  exact ⟨headers, query, path, rfl, hheaderItems, hqueryItems, listsPath_of_runs hpath⟩

end Operations

/-! ## The whole document -/

/-- **The parameters of an operation.** In a document that is built where parameters must be declared,
each operation lists, in this order, one reference for each key of the headers that is not forbidden,
one for each such key of the query, and one parameter in place for each key of the path whose schema
compiles to one when its turn comes. Each reference leads to a parameter of the document with the key
as its name. -/
theorem operation_parameters {heap : Heap} {env : Environment} {source : Source}
    {strict headerStart : Value} {document : Fields} (hstrict : strict.truthy = true)
    (hbuild : (build heap env source strict headerStart).1 = .ok document) :
    ∃ mid names last routes paths,
      Declares (setupOf heap env strict headerStart) source mid names ∧
      source.paths heap.describe = .ok routes ∧
      OrderedMap.get? document (.str "paths") = some (.ofEntries paths) ∧
      OrderedMap.get? document (.str "components") = some last.components.toValue ∧
      Chain (fun p reg b after => p.1 = b.1 ∧ ∃ operations, b.2 = .ofEntries operations ∧
        Chain (fun m reg o after => m.1 = o.1 ∧
          Runs (operationOf (setupOf heap env strict headerStart) names m.2) reg o.2 after ∧
            ListsParameters heap last.components m.2 reg o.2) p.2 reg operations after)
        routes mid paths last := by
  obtain ⟨_, hbuilding⟩ := building_of_build hbuild
  cases hbuilding with
  | @run _ _ _ names _ operations _ _ _ mid last _ hschemas hparameters hdeclare hdeclare' hnames
      hpaths hoperations _ _ =>
  have hmid : Declares (setupOf heap env strict headerStart) source mid names :=
    ⟨_, _, _, _, _, hschemas, hparameters, hdeclare, hdeclare', hnames⟩
  have hright : ∀ key name, OrderedMap.get? names key = some name →
      HoldsParameter last.components key name :=
    fun _ _ hname => holds_pathsOf hoperations (hmid.holds hname)
  have hsetup : (setupOf heap env strict headerStart).strict = true := setupOf_strict hstrict
  refine ⟨mid, names, last, _, operations, hmid, hpaths, rfl, rfl, ?_⟩
  refine (chain_pathsOf hoperations).mono fun p _ s b t ⟨hpath, operations, hitem, hchain⟩ => ?_
  refine ⟨hpath, operations, hitem, hchain.mono fun m _ s o t ⟨hmethod, hrun⟩ => ?_⟩
  have hlists := listsParameters_of_strict hsetup hright hrun
  exact ⟨hmethod, hrun, hlists⟩

/-- Headers, a query with a forbidden key, a path with one, and a class among the parameters. -/
def ferryHeap : Heap where
  nodes := #[{ kind := "string" }, { kind := "string", flags := [("presence", .str "forbidden")] },
    { kind := "object", children := [(.str "x-ticket", .node 0)] },
    { kind := "object", children := [(.str "port", .node 0), (.str "secret", .node 1)] },
    { kind := "object", children := [(.str "id", .node 0), (.str "draft", .node 1)] },
    { kind := "string",
      metadata := [(.str "className", .str "Berth"), (.str "classTarget", .str "parameters")] }]

/-- A source with two parameters for one key. -/
def ferrySource : Source where
  tag := some (.ofFields [("name", .str "ferries")])
  schemas := some (.ofEntries [(.str "Ferry", .ofEntries [(.str "berth", .node 5)])])
  parameters := some (.ofEntries [(.str "Ticket", .ofEntries [(.str "x-ticket", .node 0)]),
    (.str "Harbour", .ofEntries [(.str "port", .node 0)]),
    (.str "Quay", .ofEntries [(.str "port", .node 0)])])
  routes := some [.ofFields [("path", .str "/ferries/<id>"), ("method", .str "get"),
    ("summary", .str "Show"), ("headers", .node 2), ("query", .node 3), ("params", .node 4)]]

/-- The ferries list the header, the query under the later of its two names, and the identifier in the
path. -/
theorem operation_parameters_ferry : (Value.bool true).truthy = true ∧
    ∃ document components operation route reg,
      (build ferryHeap [] ferrySource (.bool true) .null).1 = .ok document ∧
      OrderedMap.get? document (.str "components") = some components.toValue ∧
      OrderedMap.get? document (.str "paths") =
        some (.ofEntries [(.str "/ferries/<id>", .ofEntries [(.str "get", operation)])]) ∧
      operation.field? "parameters" = some (.list [reference "parameters" "Ticket",
        reference "parameters" "Quay", .ofFields [("name", .str "id"), ("in", .str "path"),
          ("required", .bool true), ("schema", .ofFields [("type", .str "string")])]]) ∧
      route.headers = .node 2 ∧ route.query = .node 3 ∧ route.params = .node 4 ∧
      ListsParameters ferryHeap components route reg operation := by
  obtain ⟨document, operation, hbuild, hdocument, hparameters⟩ : ∃ document operation,
      (build ferryHeap [] ferrySource (.bool true) .null).1 = .ok document ∧
        OrderedMap.get? document (.str "paths") =
          some (.ofEntries [(.str "/ferries/<id>", .ofEntries [(.str "get", operation)])]) ∧
        operation.field? "parameters" = some (.list [reference "parameters" "Ticket",
          reference "parameters" "Quay", .ofFields [("name", .str "id"), ("in", .str "path"),
            ("required", .bool true), ("schema", .ofFields [("type", .str "string")])]]) :=
    ⟨_, _, rfl, rfl, rfl⟩
  obtain ⟨route, hroute, hheaders, hquery, hparams⟩ : ∃ route : Route,
      ferrySource.paths ferryHeap.describe = .ok [(.str "/ferries/<id>", [(.str "get", route)])] ∧
        route.headers = .node 2 ∧ route.query = .node 3 ∧ route.params = .node 4 :=
    ⟨_, rfl, rfl, rfl, rfl⟩
  obtain ⟨_, _, last, routes, paths, _, hroutes, hpaths, hcomponents, hall⟩ :=
    operation_parameters rfl hbuild
  obtain rfl := Except.ok.inj (hroutes.symm.trans hroute)
  cases hdocument.symm.trans hpaths
  obtain ⟨_, _, _, ⟨_, operations, hoperations, hmethods⟩, _, hbuilt⟩ := Chain.cons_iff.mp hall
  cases hbuilt
  cases hoperations
  obtain ⟨_, _, _, ⟨_, _, hlists⟩, _, hshown⟩ := Chain.cons_iff.mp hmethods
  cases hshown
  exact ⟨rfl, document, last.components, operation, route, _, hbuild, hcomponents, hdocument,
    hparameters, hheaders, hquery, hparams, hlists⟩

end Spec

end WireShape
