import WireShape.Proofs.Keys
import WireShape.Proofs.Registry.Steps
import WireShape.Spec

/-!
# What a source supplies

A document is made of the schemas, parameters and routes of a source. The routes of the document are
those that the source lists, each under its path and method.

* `Route.media`: the media types of the body and of the responses.
* `Source.route_of_paths`: the routes by path and method are routes that the source lists.
* `Spec.targets`: what the bodies and responses of a document refer to.
* `Spec.Building`: what a build does, one part after the other.
* `Spec.operationOf_eq`: an operation is put together from parameters, body and responses.
-/

namespace WireShape

open Value (Fields)

/-- The media types of a content, each with its schema and its examples. -/
def contentMedia : Value → List (Value × Value)
  | .map es _ => es.filterMap fun e =>
    match e.2 with
    | .mediaType schema examples => some (schema, examples)
    | _ => none
  | _ => []

namespace Route

/-- The contents of the body and of the responses. -/
def contents (r : Route) : List Value :=
  (r.body.map (·.content)).toList ++ r.responses.map (·.2.content)

/-- The media types of the body and of the responses. -/
def media (r : Route) : List (Value × Value) := r.contents.flatMap contentMedia

/-- The values of a route that stand in the document as they are. -/
def texts (r : Route) : List Value :=
  r.summary :: r.tags ++ (r.body.map fun body => [body.description, body.required]).getD [] ++
    r.responses.map (·.2.description)

theorem body_media {r : Route} {body : RequestBody} (hbody : r.body = some body)
    {m : Value × Value} (hm : m ∈ contentMedia body.content) : m ∈ r.media := by
  refine List.mem_flatMap.mpr ⟨body.content, List.mem_append_left _ ?_, hm⟩
  rw [hbody]
  exact List.mem_singleton.mpr rfl

theorem response_media {r : Route} {entry : String × Response} (hentry : entry ∈ r.responses)
    {m : Value × Value} (hm : m ∈ contentMedia entry.2.content) : m ∈ r.media :=
  List.mem_flatMap.mpr ⟨entry.2.content,
    List.mem_append_right _ (List.mem_map_of_mem hentry), hm⟩

end Route

theorem contentMedia_mem {es : List (Atom × Value)} {identity : Option Nat} {mime : Atom}
    {schema examples : Value} (h : (mime, .mediaType schema examples) ∈ es) :
    (schema, examples) ∈ contentMedia (.map es identity) :=
  List.mem_filterMap.mpr ⟨_, h, rfl⟩

namespace Source

theorem getSchemas_eq_ok_iff {source : Source} {v : Value} :
    source.getSchemas = .ok v ↔ source.schemas = some v := by
  unfold getSchemas
  cases source.schemas with
  | none => exact ⟨fun h => (by cases h), fun h => (by cases h)⟩
  | some w => simp

theorem getParameters_eq_ok_iff {source : Source} {v : Value} :
    source.getParameters = .ok v ↔ source.parameters = some v := by
  unfold getParameters
  cases source.parameters with
  | none => exact ⟨fun h => (by cases h), fun h => (by cases h)⟩
  | some w => simp

/-- A route that is added goes under its path and method; the others stay. -/
theorem mem_addRoute {describe : Describe} {paths after : Paths} {r : Route}
    (hadd : addRoute describe paths r = .ok after) {p : Atom × OrderedMap Atom Route}
    {m : Atom × Route} (hp : p ∈ after) (hm : m ∈ p.2) :
    m.2 = r ∨ ∃ p' ∈ paths, m ∈ p'.2 := by
  obtain ⟨path, _, hrest⟩ := bind_eq_ok_iff.mp hadd
  obtain ⟨method, _, hchecked⟩ := bind_eq_ok_iff.mp hrest
  dsimp only at hchecked
  split at hchecked
  · obtain ⟨_, _, hchecked⟩ := bind_eq_ok_iff.mp hchecked
    obtain ⟨_, _, hchecked⟩ := bind_eq_ok_iff.mp hchecked
    obtain ⟨_, _, hchecked⟩ := bind_eq_ok_iff.mp hchecked
    obtain ⟨_, hthrow, _⟩ := bind_eq_ok_iff.mp hchecked
    cases hthrow
  · cases hchecked
    rcases OrderedMap.mem_insert hp with hold | ⟨hvalue, _⟩
    · exact .inr ⟨p, hold, hm⟩
    · rw [hvalue] at hm
      rcases OrderedMap.mem_insert hm with hold | ⟨hroute, _⟩
      · unfold OrderedMap.getD at hold
        cases hget : OrderedMap.get? paths path with
        | none =>
          rw [hget] at hold
          cases hold
        | some methods =>
          rw [hget] at hold
          obtain ⟨k, hmem, _⟩ := OrderedMap.mem_of_get? hget
          exact .inr ⟨_, hmem, hold⟩
      · exact .inl hroute

/-- The routes by path and method are routes that the source lists. -/
theorem route_of_paths {source : Source} {describe : Describe} {paths : Paths}
    (hpaths : source.paths describe = .ok paths) : ∃ routes, source.getRoutes describe = .ok routes ∧
      ∀ p ∈ paths, ∀ m ∈ p.2, m.2 ∈ routes := by
  obtain ⟨routes, hroutes, hfold⟩ := bind_eq_ok_iff.mp hpaths
  refine ⟨routes, hroutes, ?_⟩
  refine foldlM_keeps (I := fun paths : Paths => ∀ p ∈ paths, ∀ m ∈ p.2, m.2 ∈ routes)
    (fun r hr acc next hadd hacc p hp m hm => ?_) (fun _ hp => by cases hp) hfold
  rcases mem_addRoute hadd hp hm with rfl | ⟨p', hp', hm'⟩
  · exact hr
  · exact hacc p' hp' m hm'

end Source

/-- The media types of all routes, in the order of the document. -/
def Paths.media (paths : Paths) : List (Value × Value) :=
  paths.flatMap fun p => p.2.flatMap fun m => m.2.media

namespace Spec

/-! ## What a document refers to -/

/-- The entries of a mapping; no other value has any. -/
def fieldsOf : Value → Fields
  | .map es _ => es
  | _ => []

/-- What the schemas of a content refer to. -/
def contentTargets (content : Value) : List Value :=
  (fieldsOf content).filterMap fun e => e.2.field? "schema"

/-- What the body or a response refers to. -/
def partTargets (part : Value) : List Value := contentTargets ((part.field? "content").getD .null)

/-- What the body and the responses of an operation refer to. -/
def operationTargets (operation : Value) : List Value :=
  partTargets ((operation.field? "requestBody").getD .null) ++
    (fieldsOf ((operation.field? "responses").getD .null)).flatMap fun e => partTargets e.2

/-- What the bodies and responses of a document refer to, in its order. -/
def targets (document : Fields) : List Value :=
  (fieldsOf (OrderedMap.getD document (.str "paths") .null)).flatMap fun p =>
    (fieldsOf p.2).flatMap fun m => operationTargets m.2

/-! ## Builds -/

/-- Declarations go through the entries of a mapping, or through none if there is no mapping. -/
theorem runs_entries {α : Type} {v : Value} {next : OrderedMap Atom Value → Registering α}
    {reg after : Registry} {a : α} (hrun : Runs (if v.truthy then Registry.lift v.entries >>= next
      else pure [] >>= next) reg a after) :
    ∃ es, (es = [] ∧ v.truthy = false ∨ ∃ identity, v = .map es identity) ∧
      Runs (next es) reg a after := by
  split at hrun
  · obtain ⟨es, hes, hrun⟩ := runs_registryLift_bind_iff.mp hrun
    refine ⟨es, .inr ?_, hrun⟩
    cases v with
    | map es identity =>
      cases hes
      exact ⟨identity, rfl⟩
    | atom a => cases a <;> cases hes
    | _ => cases hes
  · rename_i hnot
    rw [pure_bind] at hrun
    exact ⟨[], .inl ⟨rfl, Bool.eq_false_iff.mpr hnot⟩, hrun⟩

/-- The parts of a document in their order. -/
def documentFields (tags : List Value) (paths : Fields) (components : Components) : Fields :=
  [(.str "tags", .list tags), (.str "paths", .ofEntries paths),
    (.str "components", components.toValue)]

/-- A build declares the schemas and the parameters of the source, and then goes through its
routes. -/
inductive Building (setup : Setup) (source : Source) (start : Registry) : Fields → Registry → Prop
  | run {schemas parameters : Value} {tags : List Value} {names : ParameterNames} {paths : Paths}
      {operations : Fields} {i j : Unit} {declared mid last after : Registry}
      (hschemas : source.getSchemas = .ok schemas)
      (hparameters : source.getParameters = .ok parameters)
      (hdeclare : Runs (declareSchemas setup schemas) start i declared)
      (hdeclare' : Runs (declareParameters setup parameters) declared j mid)
      (hnames : parameterNames mid = .ok names)
      (hpaths : source.paths (describe setup) = .ok paths)
      (hoperations : Runs (pathsOf setup names paths) mid operations last)
      (hafter : after.SameData last) (htags : source.tags = .ok tags) :
      Building setup source start (documentFields tags operations last.components) after

theorem runs_buildWith {setup : Setup} {source : Source} {start after : Registry} {fields : Fields}
    (hrun : Runs (buildWith setup source) start fields after) :
    Building setup source start fields after := by
  obtain ⟨_, hschemas, hrun⟩ := runs_registryLift_bind_iff.mp hrun
  obtain ⟨_, hparameters, hrun⟩ := runs_registryLift_bind_iff.mp hrun
  obtain ⟨_, _, hdeclare, hrun⟩ := runs_bind_iff.mp hrun
  obtain ⟨_, mid, hdeclare', hrun⟩ := runs_bind_iff.mp hrun
  obtain ⟨_, hnames, hrun⟩ := runs_registryLift_bind_iff.mp (runs_get_bind_iff.mp hrun)
  obtain ⟨_, hpaths, hrun⟩ := runs_registryLift_bind_iff.mp hrun
  obtain ⟨_, last, hoperations, hrun⟩ := runs_bind_iff.mp hrun
  obtain ⟨_, _, hlog, hrun⟩ := runs_bind_iff.mp (runs_get_bind_iff.mp hrun)
  obtain ⟨_, htags, hrun⟩ := runs_registryLift_bind_iff.mp hrun
  obtain ⟨rfl, rfl⟩ := runs_pure_iff.mp hrun
  have hafter :=
    Registry.runs_addLogFrom (show Runs (Registry.addLogFrom _ (.ok _)) _ _ _ from hlog)
  exact .run hschemas hparameters hdeclare hdeclare' hnames hpaths hoperations hafter htags

/-- What a build keeps constant. It does not depend on the source. -/
def setupOf (heap : Heap) (env : Environment) (strict headerStart : Value) : Setup where
  heap := heap
  strict := (if strict.isNull then Settings.get (Settings.ofEnvironment env) "STRICT_PARAMETERS"
    else strict).truthy
  headerStart := headerStart.orElse (Settings.get (Settings.ofEnvironment env) "HEADER_PREFIX")

theorem building_of_build {heap : Heap} {env : Environment} {source : Source}
    {strict headerStart : Value} {fields : Fields}
    (hbuild : (build heap env source strict headerStart).1 = .ok fields) :
    ∃ reg, Building (setupOf heap env strict headerStart) source {} fields reg :=
  ⟨_, runs_buildWith (Prod.ext hbuild rfl)⟩

/-- A rule of the build itself about parameters that are not declared goes before the environment. -/
theorem setupOf_strict {heap : Heap} {env : Environment} {strict headerStart : Value}
    (htruthy : strict.truthy = true) : (setupOf heap env strict headerStart).strict = true := by
  have hstrict : strict.isNull = false := by
    cases hnull : strict.isNull with
    | false => rfl
    | true =>
      rw [Value.isNull_iff.mp hnull] at htruthy
      cases htruthy
  unfold setupOf
  rw [hstrict]
  exact htruthy

/-- A document that is built comes from a run that starts with no definitions. -/
theorem runs_of_build {heap : Heap} {env : Environment} {source : Source} {strict headerStart : Value}
    {fields : Fields} {log : Array LogEntry}
    (hbuild : build heap env source strict headerStart = (.ok fields, log)) :
    ∃ setup reg, setup.heap = heap ∧ (strict.truthy = true → setup.strict = true) ∧
      Runs (buildWith setup source) {} fields reg := by
  have houtcome : (build heap env source strict headerStart).1 = .ok fields := by rw [hbuild]
  exact ⟨setupOf heap env strict headerStart, _, rfl, setupOf_strict, Prod.ext houtcome rfl⟩

/-- The field for the body of a route, if it has a body. -/
def bodyFields (setup : Setup) (route : Route) : Registering (List (String × Value)) :=
  match route.body with
  | some body => requestBodyOf setup body >>= fun v => pure [("requestBody", v)]
  | none => pure []

/-- The fields of an operation in their order. -/
def operationFields (route : Route) (parameters : List Value) (body : List (String × Value))
    (responses : Value) : List (String × Value) :=
  [("tags", .list route.tags), ("summary", route.summary), ("parameters", .list parameters)] ++ body ++
    [("responses", responses)]

/-- An operation is put together from its parameters, its body and its responses. -/
theorem operationOf_eq {setup : Setup} {names : ParameterNames} {route : Route} :
    operationOf setup names route = do
      let parameters ← operationParameters setup names route
      let body ← bodyFields setup route
      let responses ← responsesOf setup route.responses
      return .ofFields (operationFields route parameters body responses) := by
  unfold operationOf bodyFields
  cases route.body with
  | none => rfl
  | some body =>
    simp only [bind_assoc, pure_bind]
    rfl

end Spec

/-! ## A small source -/

/-- A pet with a name; pets are a class. -/
def petHeap : Heap where
  nodes := #[{ kind := "string" },
    { kind := "object", children := [(.str "name", .node 0)], flags := [("label", .str "Pet")],
      metadata := [(.str "className", .str "Pet")] }]

/-- A route that takes a pet and a declared parameter. -/
def petSource : Source where
  tag := some (.ofFields [("name", .str "pets")])
  schemas := some (.ofEntries [])
  parameters := some (.ofEntries [(.str "Page", .ofEntries [(.str "page", .node 0)])])
  routes := some [.ofFields [("path", .str "/pets"), ("method", .str "post"),
    ("summary", .str "Add"), ("query", .ofEntries [(.str "page", .node 0)]),
    ("body", .ofFields [("content", .ofEntries [(.str "application/json", .node 1)]),
      ("description", .null), ("required", .null)])]]

/-- The route of the small source. -/
def petRoute : Route where
  path := .str "/pets"
  method := .str "post"
  summary := .str "Add"
  tags := [.str "pets"]
  headers := .null
  query := .ofEntries [(.str "page", .node 0)]
  params := .null
  body := some
    { content := .ofEntries [(.str "application/json", .mediaType (.node 1) .null)]
      description := .str ""
      required := .bool false }
  responses := []

theorem petSource_routes : petSource.getRoutes petHeap.describe = .ok [petRoute] := by rfl

end WireShape
