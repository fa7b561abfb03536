import WireShape.Proofs.Registry.Discipline
import WireShape.Proofs.Registry.Steps
import WireShape.Proofs.Spec.Sources

/-!
# What a build keeps

A build reaches into the registry only by steps of five kinds: it declares the schemas and the
parameters of the source, compiles the parts of path parameters, names the schemas of bodies and
responses, and writes to the log. So a discipline that these steps keep is kept by the whole build,
and what is known of the names, if it lasts, is known of all of them in the end.

* `Source.Starts`: the positions at which walks for a source start.
* `Builds`: a discipline that the steps of a build keep.
* `Builds.operationOf`: the operation of a route.
* `Builds.buildWith`: the whole build, and the names that its document refers to.
-/

namespace WireShape

open Value (Fields)

namespace Source

/-- A schema of a body or of a response. -/
def HasMedia (describe : Describe) (source : Source) (v : Value) : Prop :=
  ∃ routes, source.getRoutes describe = .ok routes ∧ ∃ r ∈ routes, ∃ m ∈ r.media, m.1 = v

/-- The positions at which walks for a source start: declared schemas and parameters, the parts of
path parameters, and the schemas of bodies and responses. -/
inductive Starts (h : Heap) (source : Source) : Schema → Prop
  | schema {es : Fields} {identity : Option Nat} {e : Atom × Value} {s : Schema}
      (hschemas : source.schemas = some (.map es identity)) (he : e ∈ es)
      (hs : rootSchema e.2 = .ok s) : Starts h source s
  | parameter {es : Fields} {identity : Option Nat} {e : Atom × Value} {s : Schema}
      (hparameters : source.parameters = some (.map es identity)) (he : e ∈ es)
      (hs : rootSchema e.2 = .ok s) : Starts h source s
  | path {routes : List Route} {r : Route} {s : Schema} {e : Atom × Schema}
      (hroutes : source.getRoutes h.describe = .ok routes) (hr : r ∈ routes)
      (hs : Schema.ofValue r.params = .ok s) (he : e ∈ (h.view s).children) : Starts h source e.2
  | media {v : Value} {s : Schema} (hv : source.HasMedia h.describe v)
      (hs : rootSchema v = .ok s) : Starts h source s

end Source

namespace Spec

open Registry (lift)

/-- A value refers to the schemas by a name of which something is known. -/
def Names (describe : Describe) (Q : Value → Atom → Registry → Prop) (v target : Value)
    (reg : Registry) : Prop :=
  ∃ name, referenceTo describe (.str "schemas") name = .ok target ∧ Q v name reg

/-- Schemas with references, one for each. -/
abbrev NamesAll (describe : Describe) (Q : Value → Atom → Registry → Prop)
    (media : List (Value × Value)) (found : List Value) (reg : Registry) : Prop :=
  List.Forall₂ (fun m target => Names describe Q m.1 target reg) media found

/-- A discipline that the steps of a build keep, with what is known of the names that it gives. -/
structure Builds (setup : Setup) (source : Source) (D : Discipline)
    (Q : Value → Atom → Registry → Prop) : Prop where
  lasts : ∀ v name, D.Lasts (Q v name)
  schemas : ∀ v, source.schemas = some v →
    D.Keeps (fun reg => reg = {}) (declareSchemas setup v) fun _ _ => True
  parameters : ∀ v, source.parameters = some v →
    D.Keeps (fun _ => True) (declareParameters setup v) fun _ _ => True
  walks : ∀ s, source.Starts setup.heap s →
    D.Keeps (fun _ => True) (Registry.compileSchema setup.heap s) fun _ _ => True
  names : ∀ v, source.HasMedia setup.heap.describe v →
    D.Keeps (fun _ => True) (Registry.nameFor setup.heap v) (Q v)
  logs : ∀ level message, D.Keeps (fun _ => True) (Registry.addLog level message) fun _ _ => True

namespace Builds

variable {setup : Setup} {source : Source} {D : Discipline} {Q : Value → Atom → Registry → Prop}
  {names : ParameterNames} {route : Route} {routes : List Route} {content : Value}

/-- The steps of a build that keep each of two disciplines keep both, and both things are known of
the names. -/
theorem both {E : Discipline} {Q' : Value → Atom → Registry → Prop} (hD : Builds setup source D Q)
    (hE : Builds setup source E Q') :
    Builds setup source (D.both E) fun v name reg => Q v name reg ∧ Q' v name reg where
  lasts v name reg after hgrows hq :=
    ⟨hD.lasts v name reg after hgrows.1 hq.1, hE.lasts v name reg after hgrows.2 hq.2⟩
  schemas v hv := ((hD.schemas v hv).both (hE.schemas v hv)).conseq (fun _ hp => hp) fun _ _ hq => hq.1
  parameters v hv :=
    ((hD.parameters v hv).both (hE.parameters v hv)).conseq (fun _ hp => hp) fun _ _ hq => hq.1
  walks s hs := ((hD.walks s hs).both (hE.walks s hs)).conseq (fun _ hp => hp) fun _ _ hq => hq.1
  names v hv := (hD.names v hv).both (hE.names v hv)
  logs level message :=
    ((hD.logs level message).both (hE.logs level message)).conseq (fun _ hp => hp) fun _ _ hq => hq.1

/-- A loop of steps that keep a discipline keeps it. -/
theorem loop {α β : Type} {xs : List α} {f : α → Registering β}
    (hf : ∀ a ∈ xs, D.Keeps (fun _ => True) (f a) fun _ _ => True) :
    D.Keeps (fun _ => True) (xs.mapM f) fun _ _ => True :=
  (Discipline.Keeps.mapM (T := fun _ _ _ => True) (fun _ _ _ _ => trivial) hf
    fun _ _ _ _ _ _ => trivial).conseq (fun _ hp => hp) fun _ _ _ => trivial

theorem lasts_names (hb : Builds setup source D Q) {v target : Value} :
    D.Lasts (Names setup.heap.describe Q v target) := by
  rintro reg after hgrows ⟨name, htarget, hname⟩
  exact ⟨name, htarget, hb.lasts v name reg after hgrows hname⟩

theorem lasts_namesAll (hb : Builds setup source D Q) {media : List (Value × Value)}
    {found : List Value} : D.Lasts (NamesAll setup.heap.describe Q media found) :=
  fun reg after hgrows hall => hall.imp fun _ _ hname => hb.lasts_names reg after hgrows hname

/-! ## Parameters of an operation -/

theorem parameterName (hb : Builds setup source D Q) {key : Atom} :
    D.Keeps (fun _ => True) (Spec.parameterName setup names route key) fun _ _ => True := by
  have hundeclared : D.Keeps (fun _ => True) (parameterName.undeclared setup route key)
      fun _ _ => True := by
    unfold parameterName.undeclared
    refine .liftBind fun _ _ => ?_
    split
    · exact .liftBind fun _ _ => .throwBind
    · refine .liftBind fun _ _ => .liftBind fun _ _ => .liftBind fun _ _ => ?_
      exact (hb.logs _ _).bind fun _ => .pure fun _ _ => trivial
  unfold Spec.parameterName
  split
  · split
    · exact hundeclared
    · exact .pure fun _ _ => trivial
  · exact hundeclared

theorem referenceParameters (hb : Builds setup source D Q) {container : Value} :
    D.Keeps (fun _ => True) (Spec.referenceParameters setup names route container)
      fun _ _ => True := by
  unfold Spec.referenceParameters
  split
  · exact .pure fun _ _ => trivial
  · refine .liftBind fun s _ => loop fun e _ => ?_
    exact hb.parameterName.bind fun _ => .lift fun _ _ _ _ => trivial

theorem pathParameters (hb : Builds setup source D Q)
    (hroutes : source.getRoutes setup.heap.describe = .ok routes) (hroute : route ∈ routes) :
    D.Keeps (fun _ => True) (Spec.pathParameters setup route.params) fun _ _ => True := by
  unfold Spec.pathParameters
  split
  · exact .pure fun _ _ => trivial
  · refine .liftBind fun s hs => ?_
    refine Discipline.Keeps.bind (Q := fun _ _ => True) (loop fun e he => ?_) fun _ =>
      .pure fun _ _ => trivial
    refine (hb.walks e.2 (.path hroutes hroute hs he)).bind fun r => ?_
    cases r with
    | none => exact .pure fun _ _ => trivial
    | some schema => exact .liftBind fun _ _ => .pure fun _ _ => trivial

theorem operationParameters (hb : Builds setup source D Q)
    (hroutes : source.getRoutes setup.heap.describe = .ok routes) (hroute : route ∈ routes) :
    D.Keeps (fun _ => True) (Spec.operationParameters setup names route) fun _ _ => True := by
  unfold Spec.operationParameters
  refine hb.referenceParameters.bind fun _ => hb.referenceParameters.bind fun _ => ?_
  exact (hb.pathParameters hroutes hroute).bind fun _ => .pure fun _ _ => trivial

/-! ## Content -/

theorem contentOf (hb : Builds setup source D Q)
    (hmedia : ∀ m ∈ contentMedia content, source.HasMedia setup.heap.describe m.1) :
    D.Keeps (fun _ => True) (Spec.contentOf setup content) fun v =>
      NamesAll setup.heap.describe Q (contentMedia content) (contentTargets v) := by
  unfold Spec.contentOf
  refine .liftBind fun entries hentries => ?_
  let T (e b : Atom × Value) (reg : Registry) : Prop := ∃ schema examples target,
    e.2 = .mediaType schema examples ∧ b.2.field? "schema" = some target ∧
      Names setup.heap.describe Q schema target reg
  have hcontent : ∃ identity, content = .map entries identity := by
    cases content with
    | map es identity => exact ⟨identity, by rw [Except.ok.inj hentries]⟩
    | atom a => cases a <;> cases hentries
    | _ => cases hentries
  obtain ⟨identity, rfl⟩ := hcontent
  refine Discipline.Keeps.bind (Q := fun built reg => List.Forall₂ (T · · reg) entries built) ?_
    fun built => .pure fun reg hall => ?_
  · refine .mapM (fun _ _ _ _ => trivial) ?_ ?_
    · intro e he
      obtain ⟨mime, media⟩ := e
      cases media with
      | mediaType schema examples =>
        refine (hb.names schema (hmedia _ (contentMedia_mem he))).bind fun name => ?_
        refine .liftBind fun target htarget => .pure fun reg hname => ?_
        refine ⟨schema, examples, target, rfl, ?_, name, htarget, hname⟩
        split <;> rfl
      | _ => exact .throw
    · rintro _ _ reg after hgrows ⟨schema, examples, target, hmedia, hfield, hnames⟩
      exact ⟨schema, examples, target, hmedia, hfield, hb.lasts_names reg after hgrows hnames⟩
  · refine List.rel_filterMap (fun e b hT => ?_) hall
    obtain ⟨schema, examples, target, hmedia, hfield, hnames⟩ := hT
    rw [hmedia, hfield]
    exact .some hnames

theorem bodyFields (hb : Builds setup source D Q)
    (hmedia : ∀ m ∈ route.media, source.HasMedia setup.heap.describe m.1) :
    D.Keeps (fun _ => True) (Spec.bodyFields setup route) fun fields reg =>
      (fields = [] ∨ ∃ v, fields = [("requestBody", v)]) ∧
        NamesAll setup.heap.describe Q
          ((route.body.map (·.content)).toList.flatMap contentMedia)
          (partTargets (((Value.ofFields fields).field? "requestBody").getD .null)) reg := by
  unfold Spec.bodyFields
  split
  · rename_i body hbody
    unfold requestBodyOf
    rw [bind_assoc]
    refine (hb.contentOf fun m hm => hmedia m (Route.body_media hbody hm)).bind fun content => ?_
    rw [pure_bind]
    refine .pure fun reg hall => ⟨.inr ⟨_, rfl⟩, ?_⟩
    rw [hbody]
    show NamesAll setup.heap.describe Q (contentMedia body.content ++ []) (contentTargets content)
      reg
    rw [List.append_nil]
    exact hall
  · rename_i hbody
    refine .pure fun reg _ => ⟨.inl rfl, ?_⟩
    rw [hbody]
    exact .nil

theorem responsesOf (hb : Builds setup source D Q)
    (hmedia : ∀ m ∈ route.media, source.HasMedia setup.heap.describe m.1) :
    D.Keeps (fun _ => True) (Spec.responsesOf setup route.responses) fun v =>
      NamesAll setup.heap.describe Q (route.responses.flatMap fun e => contentMedia e.2.content)
        ((fieldsOf v).flatMap fun e => partTargets e.2) := by
  unfold Spec.responsesOf
  let T (e : String × Response) (b : String × Value) : Registry → Prop :=
    NamesAll setup.heap.describe Q (contentMedia e.2.content) (partTargets b.2)
  refine Discipline.Keeps.bind
    (Q := fun built reg => List.Forall₂ (T · · reg) route.responses built)
    (.mapM (fun _ _ _ _ => trivial) ?_ fun _ _ => hb.lasts_namesAll) fun built =>
      .pure fun reg hall => ?_
  · intro e he
    refine (hb.contentOf fun m hm => hmedia m (Route.response_media he hm)).bind
      fun content => .pure fun reg hcontent => ?_
    exact hcontent
  · show NamesAll setup.heap.describe Q _ ((built.map fun e => (Atom.str e.1, e.2)).flatMap fun e =>
      partTargets e.2) reg
    rw [List.flatMap_map]
    exact List.rel_flatMap hall fun _ _ hT => hT

/-! ## Operations -/

/-- The operation of a route refers to the schemas of the route, in their order, by names of which
what is known lasts. -/
theorem operationOf (hb : Builds setup source D Q)
    (hroutes : source.getRoutes setup.heap.describe = .ok routes) (hroute : route ∈ routes) :
    D.Keeps (fun _ => True) (Spec.operationOf setup names route) fun operation =>
      NamesAll setup.heap.describe Q route.media (operationTargets operation) := by
  have hmedia : ∀ m ∈ route.media, source.HasMedia setup.heap.describe m.1 :=
    fun m hm => ⟨routes, hroutes, route, hroute, m, hm, rfl⟩
  rw [operationOf_eq]
  refine (hb.operationParameters hroutes hroute).bind fun parameters => ?_
  refine (hb.bodyFields hmedia).bind fun body => ?_
  have hlasts : D.Lasts fun reg => (body = [] ∨ ∃ v, body = [("requestBody", v)]) ∧
      NamesAll setup.heap.describe Q ((route.body.map (·.content)).toList.flatMap contentMedia)
        (partTargets (((Value.ofFields body).field? "requestBody").getD .null)) reg :=
    fun reg after hgrows hall => ⟨hall.1, hb.lasts_namesAll reg after hgrows hall.2⟩
  have hresponses := (hb.responsesOf hmedia).carry hlasts
  refine (hresponses.conseq (fun _ hp => ⟨hp, trivial⟩) fun _ _ hq => hq).bind fun responses =>
    .pure ?_
  rintro reg ⟨⟨hbody, hcontent⟩, hresponses⟩
  have hmediaOf : route.media = (route.body.map (·.content)).toList.flatMap contentMedia ++
      route.responses.flatMap fun e => contentMedia e.2.content := by
    rw [Route.media, Route.contents, List.flatMap_append, List.flatMap_map]
  have htargets : operationTargets (.ofFields (operationFields route parameters body responses)) =
      partTargets (((Value.ofFields body).field? "requestBody").getD .null) ++
        (fieldsOf responses).flatMap fun e => partTargets e.2 := by
    rcases hbody with rfl | ⟨v, rfl⟩ <;> rfl
  rw [hmediaOf, htargets]
  exact List.rel_append hcontent hresponses

/-! ## The whole document -/

theorem pathsOf (hb : Builds setup source D Q) {paths : Paths}
    (hroutes : source.getRoutes setup.heap.describe = .ok routes)
    (hpaths : ∀ p ∈ paths, ∀ m ∈ p.2, m.2 ∈ routes) :
    D.Keeps (fun _ => True) (Spec.pathsOf setup names paths) fun fields =>
      NamesAll setup.heap.describe Q paths.media
        (fields.flatMap fun p => (fieldsOf p.2).flatMap fun m => operationTargets m.2) := by
  unfold Spec.pathsOf
  let T (p : Atom × OrderedMap Atom Route) (b : Atom × Value) : Registry → Prop :=
    NamesAll setup.heap.describe Q (p.2.flatMap fun m => m.2.media)
      ((fieldsOf b.2).flatMap fun m => operationTargets m.2)
  refine Discipline.Keeps.conseq (.mapM (T := T) (fun _ _ _ _ => trivial) (fun p hp => ?_)
    fun _ _ => hb.lasts_namesAll) (fun _ hp => hp)
    fun fields reg hall => List.rel_flatMap hall fun _ _ hT => hT
  let S (m : Atom × Route) (b : Atom × Value) : Registry → Prop :=
    NamesAll setup.heap.describe Q m.2.media (operationTargets b.2)
  refine Discipline.Keeps.bind (Q := fun built reg => List.Forall₂ (S · · reg) p.2 built) ?_
    fun operations => .pure fun reg hall => List.rel_flatMap hall fun _ _ hS => hS
  refine .mapM (fun _ _ _ _ => trivial) (fun m hm => ?_) fun _ _ => hb.lasts_namesAll
  exact (hb.operationOf hroutes (hpaths p hp m hm)).bind fun operation => .pure fun _ hS => hS

theorem exists_names {media : List (Value × Value)} {found : List Value} {reg : Registry}
    {describe : Describe} (hall : NamesAll describe Q media found reg) : ∃ names : List Atom,
      List.Forall₂ (fun name target => referenceTo describe (.str "schemas") name = .ok target)
        names found ∧ List.Forall₂ (fun m name => Q m.1 name reg) media names := by
  induction hall with
  | nil => exact ⟨[], .nil, .nil⟩
  | cons hhead _ ih =>
    obtain ⟨name, htarget, hname⟩ := hhead
    obtain ⟨names, htargets, hnames⟩ := ih
    exact ⟨name :: names, .cons htarget htargets, .cons hname hnames⟩

/-- The document has the definitions of the registry, and it refers to the schemas of all bodies and
responses, in their order, by names of which what is known lasts to the end. -/
theorem buildWith (hb : Builds setup source D Q) :
    D.Keeps (fun reg => reg = {}) (Spec.buildWith setup source) fun fields reg =>
      ∃ paths names, source.paths setup.heap.describe = .ok paths ∧
        OrderedMap.get? fields (.str "components") = some reg.components.toValue ∧
          List.Forall₂ (fun name target =>
            referenceTo setup.heap.describe (.str "schemas") name = .ok target) names
              (targets fields) ∧
            List.Forall₂ (fun m name => Q m.1 name reg) paths.media names := by
  unfold Spec.buildWith
  refine .liftBind fun schemas hschemas => .liftBind fun parameters hparameters => ?_
  refine (hb.schemas schemas (Source.getSchemas_eq_ok_iff.mp hschemas)).bind fun _ => ?_
  refine (hb.parameters parameters (Source.getParameters_eq_ok_iff.mp hparameters)).bind fun _ => ?_
  refine .getBind fun reg => .liftBind fun names _ => .liftBind fun paths hpaths => ?_
  obtain ⟨routes, hroutes, hmem⟩ := Source.route_of_paths hpaths
  refine ((hb.pathsOf hroutes hmem).conseq (fun _ _ => trivial) fun _ _ hq => hq).bind
    fun built => .getBind fun last => ?_
  rintro later fields after hrun hlater ⟨rfl, hall⟩
  obtain ⟨_, mid, hlog, hrun⟩ := runs_bind_iff.mp hrun
  obtain ⟨tags, _, hrun⟩ := runs_registryLift_bind_iff.mp hrun
  obtain ⟨rfl, rfl⟩ := runs_pure_iff.mp hrun
  obtain ⟨hmid, hgrows, _⟩ := hb.logs _ _ _ _ _ hlog hlater trivial
  have hsame : after.SameData later :=
    Registry.runs_addLogFrom (show Runs (Registry.addLogFrom _ (.ok _)) _ _ _ from hlog)
  obtain ⟨found, htargets, hnames⟩ := exists_names (hb.lasts_namesAll _ _ hgrows hall)
  refine ⟨hmid, hgrows, paths, found, hpaths, ?_, htargets, hnames⟩
  show some later.components.toValue = _
  rw [hsame.components]

end Builds

end Spec

end WireShape
