import WireShape.Proofs.Spec.Routes
import WireShape.Proofs.Spec.Sources

/-!
# One operation for each route

The routes of a source go through three regroupings on their way into the document: their arguments
are made into routes, the routes are grouped by path and method, and each of them is shown as an
operation. Nothing is lost on the way and nothing doubled: the operations are those of the arguments
by path and method, and each of them shows the body, the responses and the media types that its
arguments declare, in their order.

* `Route.Made`: the route that is made of arguments.
* `Route.Shows`: operations that show what arguments declare.
* `Spec.operations_of_routes`: the operations of a document.
-/

namespace WireShape

open Value (Fields)

namespace Route

/-! ## What arguments declare -/

/-- The path that arguments give, as a key. -/
def pathOf (arguments : Fields) : Atom := (argument arguments "path").key

/-- The method that arguments give, in lower case and as a key. -/
def methodOf (arguments : Fields) : Atom :=
  match lowerValue (argument arguments "method") with
  | .ok v => v.key
  | .error _ => .null

/-- The content that is declared for a body or a response, by media type. -/
def declaredContent : Value → Fields
  | .requestBody content _ _ => Spec.fieldsOf content
  | .response _ content => Spec.fieldsOf content
  | v => Spec.fieldsOf ((v.field? "content").getD .null)

/-- The examples that are declared for a media type; a schema that stands by itself has none. -/
def declaredExamples : Value → Value
  | .mediaType _ examples => examples
  | _ => .null

/-- The responses that arguments declare, by status. -/
def declaredResponses (arguments : Fields) : Fields := Spec.fieldsOf (argument arguments "responses")

/-- Arguments whose mappings have each key once, and whose statuses are different texts. -/
structure Distinct (describe : Describe) (arguments : Fields) : Prop where
  body : OrderedMap.Separate (declaredContent (argument arguments "body"))
  responses : ∀ e ∈ declaredResponses arguments, OrderedMap.Separate (declaredContent e.2)
  statuses : ((declaredResponses arguments).map fun e => e.1.display describe).Nodup

/-- Arguments with the same path and, in lower case, the same method. -/
def SameOperation (arguments arguments' : Fields) : Prop :=
  (argument arguments "path").same (argument arguments' "path") = true ∧
    (methodOf arguments == methodOf arguments') = true

/-- The path that arguments give can be a key and can be shown, as every text can. -/
def HasPath (describe : Describe) (arguments : Fields) : Prop :=
  ∃ path text, argument arguments "path" = .atom path ∧ path.display describe = .ok text

/-! ## Routes made of arguments -/

/-- The route that is made of arguments. -/
structure Made (describe : Describe) (arguments : Fields) (r : Route) : Prop where
  path : r.path = argument arguments "path"
  method : lowerValue (argument arguments "method") = .ok r.method
  body : bodyOf (argument arguments "body") = .ok r.body
  responses : responsesOf describe (argument arguments "responses") = .ok r.responses

section Creation

variable {describe : Describe} {tags : Except Fault (List Value)} {arguments : Fields} {r : Route}

theorem made_of_create (h : create describe tags arguments = .ok r) :
    r.Made describe arguments := by
  obtain ⟨_, _, h⟩ := bind_eq_ok_iff.mp h
  dsimp only at h
  split at h
  · cases h
  · obtain ⟨method, hmethod, h⟩ := bind_eq_ok_iff.mp h
    obtain ⟨_, _, h⟩ := bind_eq_ok_iff.mp h
    obtain ⟨_, _, h⟩ := bind_eq_ok_iff.mp h
    obtain ⟨body, hbody, h⟩ := bind_eq_ok_iff.mp h
    obtain ⟨responses, hresponses, h⟩ := bind_eq_ok_iff.mp h
    cases h
    exact ⟨rfl, hmethod, hbody, hresponses⟩

namespace Made

variable (h : r.Made describe arguments)

include h

theorem pathKey_eq : r.pathKey = pathOf arguments := congrArg Value.key h.path

theorem methodKey_eq : r.methodKey = methodOf arguments := by
  unfold methodOf
  rw [h.method]
  rfl

theorem texted : r.Texted := by
  have hmethod := h.method
  unfold lowerValue at hmethod
  split at hmethod
  · exact .inl ⟨_, (Except.ok.inj hmethod).symm⟩
  · exact .inr ⟨_, (Except.ok.inj hmethod).symm⟩
  · cases hmethod

theorem shown (hpath : HasPath describe arguments) : r.Shown describe := by
  obtain ⟨path, text, harg, htext⟩ := hpath
  have hatom : r.path = .atom path := h.path.trans harg
  refine ⟨?_, text, ?_⟩
  · unfold Keyed pathKey
    rw [hatom]
    rfl
  · rw [hatom]
    exact htext

end Made

end Creation

/-! ## Content -/

/-- The content of a route has one media type for each that is declared, with its examples. -/
def Carries (declared : Fields) (content : Value) : Prop :=
  List.Forall₂ (fun d e => d.1 = e.1 ∧ declaredExamples e.2 = declaredExamples d.2) declared
    (Spec.fieldsOf content)

theorem Carries.refl {content : Value} : Carries (Spec.fieldsOf content) content :=
  List.forall₂_same.mpr fun _ _ => ⟨rfl, rfl⟩

/-- A mapping that may be left out is gone through entry by entry. -/
theorem of_entries {α : Type} {v : Value} {next : OrderedMap Atom Value → Except Fault α} {a : α}
    (h : (if v.truthy then v.entries >>= next else pure [] >>= next) = .ok a) :
    next (Spec.fieldsOf v) = .ok a := by
  cases v with
  | map es _ => cases es <;> exact h
  | list xs => cases xs with
    | nil => exact h
    | cons => cases h
  | atom a =>
    split at h
    · cases a <;> cases h
    · exact h
  | _ => cases h

theorem carries_mediaTypes {v content : Value} (h : mediaTypes v = .ok content)
    (hkeys : OrderedMap.Separate (Spec.fieldsOf v)) : Carries (Spec.fieldsOf v) content := by
  cases of_entries h
  unfold Carries
  rw [OrderedMap.ofEntries, OrderedMap.update_eq_append]
  · refine List.forall₂_map_right_iff.mpr (List.forall₂_same.mpr fun e _ => ⟨rfl, ?_⟩)
    dsimp only
    split
    · rename_i hmedia
      rw [hmedia]
    · rename_i hother
      cases hcase : e.2 with
      | mediaType schema examples => exact absurd hcase (hother schema examples)
      | _ => rfl
  · exact List.pairwise_map.mpr hkeys

/-- The body of a route carries the content that is declared for it. -/
theorem carries_body {v : Value} {body : RequestBody} (h : bodyOf v = .ok (some body))
    (hkeys : OrderedMap.Separate (declaredContent v)) : Carries (declaredContent v) body.content := by
  cases v with
  | requestBody content description required =>
    cases h
    exact .refl
  | map es identity =>
    obtain ⟨declared, hdeclared, hrest⟩ := bind_eq_ok_iff.mp h
    obtain ⟨content, hcontent, hrest⟩ := bind_eq_ok_iff.mp hrest
    cases hrest
    cases hdeclared
    exact carries_mediaTypes hcontent hkeys
  | atom a => cases a <;> cases h
  | _ => cases h

/-- A route has a body if one is declared. -/
theorem body_eq_none_iff {v : Value} {body : Option RequestBody} (h : bodyOf v = .ok body) :
    body = none ↔ v = .null := by
  cases v with
  | requestBody content description required =>
    cases h
    exact ⟨nofun, nofun⟩
  | map es identity =>
    obtain ⟨_, _, hrest⟩ := bind_eq_ok_iff.mp h
    obtain ⟨_, _, hrest⟩ := bind_eq_ok_iff.mp hrest
    cases hrest
    exact ⟨nofun, nofun⟩
  | atom a =>
    cases a <;> cases h
    exact ⟨fun _ => rfl, fun _ => rfl⟩
  | _ => cases h

/-- A response of a route carries the content that is declared for it. -/
theorem carries_response {v : Value} {response : Response} (h : responseOf v = .ok response)
    (hkeys : OrderedMap.Separate (declaredContent v)) :
    Carries (declaredContent v) response.content := by
  cases v with
  | response description content =>
    cases h
    exact .refl
  | map es identity =>
    obtain ⟨_, _, hrest⟩ := bind_eq_ok_iff.mp h
    obtain ⟨declared, hdeclared, hrest⟩ := bind_eq_ok_iff.mp hrest
    obtain ⟨content, hcontent, hrest⟩ := bind_eq_ok_iff.mp hrest
    cases hrest
    cases hdeclared
    exact carries_mediaTypes hcontent hkeys
  | _ => cases h

/-- A loop that writes one entry after the other writes all of them. -/
theorem writes_of_foldlM {α β κ : Type} [BEq κ] {entry : α → Except Fault (κ × β)} {xs : List α}
    {m final : OrderedMap κ β}
    (h : xs.foldlM (fun m x => entry x >>= fun e => pure (OrderedMap.insert m e.1 e.2)) m =
      .ok final) :
    ∃ es, List.Forall₂ (fun x e => entry x = .ok e) xs es ∧ final = m.update es := by
  induction xs generalizing m with
  | nil =>
    cases h
    exact ⟨[], .nil, rfl⟩
  | cons x xs ih =>
    rw [List.foldlM_cons] at h
    obtain ⟨_, hstep, hrest⟩ := bind_eq_ok_iff.mp h
    obtain ⟨e, he, hstep⟩ := bind_eq_ok_iff.mp hstep
    cases hstep
    obtain ⟨es, hes, hfinal⟩ := ih hrest
    exact ⟨e :: es, .cons he hes, hfinal⟩

/-- The entry of a response under the text of its status. -/
def responseEntry (describe : Describe) (d : Atom × Value) : Except Fault (String × Response) := do
  let response ← responseOf d.2
  return (← d.1.display describe, response)

/-- The responses of a route are those that are declared, by the texts of their statuses. -/
theorem forall₂_responsesOf {describe : Describe} {v : Value} {responses : OrderedMap String Response}
    (h : responsesOf describe v = .ok responses)
    (hstatuses : ((Spec.fieldsOf v).map fun d => d.1.display describe).Nodup) :
    List.Forall₂ (fun d e => d.1.display describe = .ok e.1 ∧ responseOf d.2 = .ok e.2)
      (Spec.fieldsOf v) responses := by
  have hloop : (Spec.fieldsOf v).foldlM (fun m d => responseEntry describe d >>= fun e =>
      pure (OrderedMap.insert m e.1 e.2)) [] = .ok responses := by
    rw [← of_entries h]
    congr 1
    funext m ⟨status, value⟩
    have hwrite : ∀ response, ((status.display describe >>= fun text => pure (text, response)) >>=
        fun e => pure (OrderedMap.insert m e.1 e.2)) = status.display describe >>= fun text =>
          (pure (OrderedMap.insert m text response) : Except Fault _) := fun response => by
      rw [bind_assoc]
      exact bind_congr fun _ => pure_bind _ _
    unfold responseEntry
    rw [bind_assoc]
    cases value with
    | response => exact hwrite _
    | _ => exact bind_congr hwrite
  obtain ⟨es, hes, hfinal⟩ := writes_of_foldlM hloop
  have hentries : List.Forall₂ (fun d e => d.1.display describe = .ok e.1 ∧
      responseOf d.2 = .ok e.2) (Spec.fieldsOf v) es := by
    refine hes.imp fun d e he => ?_
    obtain ⟨response, hresponse, he⟩ := bind_eq_ok_iff.mp he
    obtain ⟨status, hstatus, he⟩ := bind_eq_ok_iff.mp he
    cases he
    exact ⟨hstatus, hresponse⟩
  have hkeys : (es.map fun e => Except.ok (ε := Fault) e.1).Nodup := by
    have heq : (Spec.fieldsOf v).map (fun d => d.1.display describe) =
        es.map fun e => Except.ok e.1 := by
      rw [← List.forall₂_eq_eq_eq, List.forall₂_map_left_iff, List.forall₂_map_right_iff]
      exact hentries.imp fun _ _ he => he.1
    rwa [← heq]
  have hseparate : OrderedMap.Separate es := by
    refine (List.pairwise_map.mp hkeys).imp fun hne => ?_
    exact beq_eq_false_iff_ne.mpr fun heq => hne (congrArg Except.ok heq)
  rw [hfinal, OrderedMap.update_eq_append]
  · exact hentries
  · exact hseparate

/-! ## What an operation shows -/

/-- The examples that are shown with a media type; those that hold nothing are left out. -/
def shownExamples (media : Value) : Option Value :=
  if (declaredExamples media).truthy then some (declaredExamples media) else none

/-- A body or a response shows one media type for each that is declared, in their order. -/
def ShowsContent (declared : Fields) (part : Value) : Prop :=
  ∃ content, part.field? "content" = some (.ofEntries content) ∧
    List.Forall₂ (fun d c => d.1 = c.1 ∧ c.2.field? "examples" = shownExamples d.2) declared content

/-- An operation shows a body if one is declared, and one response for each that is declared, in
their order. -/
structure Shows (describe : Describe) (arguments : Fields) (operation : Value) : Prop where
  noBody : operation.field? "requestBody" = none ↔ argument arguments "body" = .null
  body : ∀ part, operation.field? "requestBody" = some part →
    ShowsContent (declaredContent (argument arguments "body")) part
  responses : ∃ shown : List (String × Value),
    operation.field? "responses" = some (.ofFields shown) ∧
      List.Forall₂ (fun d e => d.1.display describe = .ok e.1 ∧
        ShowsContent (declaredContent d.2) e.2) (declaredResponses arguments) shown

end Route

namespace Spec

/-! ## Operations -/

section Runs

variable {setup : Setup} {reg after : Registry}

/-- The document shows the content of a body or of a response. -/
theorem shows_contentOf {declared : Fields} {content v : Value}
    (hcarries : Route.Carries declared content) (hrun : Runs (contentOf setup content) reg v after) :
    ∃ shown, v = .ofEntries shown ∧ List.Forall₂ (fun d c => d.1 = c.1 ∧
      c.2.field? "examples" = Route.shownExamples d.2) declared shown := by
  obtain ⟨entries, hentries, hrun⟩ := runs_registryLift_bind_iff.mp hrun
  obtain ⟨shown, _, hloop, hrun⟩ := runs_bind_iff.mp hrun
  obtain ⟨rfl, rfl⟩ := runs_pure_iff.mp hrun
  have heq : entries = fieldsOf content := by
    cases content with
    | map es identity => exact (Except.ok.inj hentries).symm
    | atom a => cases a <;> cases hentries
    | _ => cases hentries
  unfold Route.Carries at hcarries
  rw [← heq] at hcarries
  refine ⟨shown, rfl, ?_⟩
  have hshown : List.Forall₂ (fun e c => e.1 = c.1 ∧
      c.2.field? "examples" = Route.shownExamples e.2) entries shown := by
    refine (runs_mapM_iff.mp hloop).answers fun e _ s c t hstep => ?_
    obtain ⟨mime, media⟩ := e
    cases media with
    | mediaType schema examples =>
      obtain ⟨name, _, _, hstep⟩ := runs_bind_iff.mp hstep
      obtain ⟨target, _, hstep⟩ := runs_registryLift_bind_iff.mp hstep
      obtain ⟨rfl, rfl⟩ := runs_pure_iff.mp hstep
      refine ⟨rfl, ?_⟩
      unfold Route.shownExamples Route.declaredExamples
      split <;> rfl
    | _ => exact absurd hstep not_runs_throw
  refine forall₂_transfer hcarries.flip hshown fun e _ d _ c hd hc => ⟨hd.1.trans hc.1, ?_⟩
  rw [hc.2, Route.shownExamples, Route.shownExamples, hd.2]

theorem shows_requestBodyOf {declared : Fields} {body : RequestBody} {v : Value}
    (hcarries : Route.Carries declared body.content)
    (hrun : Runs (requestBodyOf setup body) reg v after) : Route.ShowsContent declared v := by
  obtain ⟨content, _, hcontent, hrun⟩ := runs_bind_iff.mp hrun
  obtain ⟨rfl, rfl⟩ := runs_pure_iff.mp hrun
  obtain ⟨shown, rfl, hshown⟩ := shows_contentOf hcarries hcontent
  exact ⟨shown, rfl, hshown⟩

theorem shows_responsesOf {describe : Describe} {declared : Fields}
    {responses : OrderedMap String Response} {v : Value}
    (hresponses : List.Forall₂ (fun d e => d.1.display describe = .ok e.1 ∧
      Route.responseOf d.2 = .ok e.2) declared responses)
    (hkeys : ∀ d ∈ declared, OrderedMap.Separate (Route.declaredContent d.2))
    (hrun : Runs (responsesOf setup responses) reg v after) :
    ∃ shown : List (String × Value), v = .ofFields shown ∧
      List.Forall₂ (fun d e => d.1.display describe = .ok e.1 ∧
        Route.ShowsContent (Route.declaredContent d.2) e.2) declared shown := by
  obtain ⟨shown, _, hloop, hrun⟩ := runs_bind_iff.mp hrun
  obtain ⟨rfl, rfl⟩ := runs_pure_iff.mp hrun
  refine ⟨shown, rfl, ?_⟩
  have hshown : List.Forall₂ (fun e b => e.1 = b.1 ∧ ∀ fields, Route.Carries fields e.2.content →
      Route.ShowsContent fields b.2) responses shown := by
    refine (runs_mapM_iff.mp hloop).answers fun e _ s b t hstep => ?_
    obtain ⟨content, _, hcontent, hstep⟩ := runs_bind_iff.mp hstep
    obtain ⟨rfl, rfl⟩ := runs_pure_iff.mp hstep
    refine ⟨rfl, fun fields hcarries => ?_⟩
    obtain ⟨built, rfl, hbuilt⟩ := shows_contentOf hcarries hcontent
    exact ⟨built, rfl, hbuilt⟩
  refine forall₂_transfer hresponses.flip hshown fun e _ d hd b hde heb => ⟨?_, ?_⟩
  · rw [hde.1, heb.1]
  · exact heb.2 _ (Route.carries_response hde.2 (hkeys d hd))

/-- The operation of a route shows what the arguments of the route declare. -/
theorem shows_operationOf {describe : Describe} {arguments : Fields} {names : ParameterNames}
    {route : Route} {v : Value} (hmade : route.Made describe arguments)
    (hdistinct : Route.Distinct describe arguments)
    (hrun : Runs (operationOf setup names route) reg v after) :
    Route.Shows describe arguments v := by
  rw [operationOf_eq] at hrun
  obtain ⟨parameters, _, _, hrun⟩ := runs_bind_iff.mp hrun
  obtain ⟨body, _, hbody, hrun⟩ := runs_bind_iff.mp hrun
  obtain ⟨responses, _, hresponses, hrun⟩ := runs_bind_iff.mp hrun
  obtain ⟨rfl, rfl⟩ := runs_pure_iff.mp hrun
  obtain ⟨shown, rfl, hshown⟩ := shows_responsesOf
    (Route.forall₂_responsesOf hmade.responses hdistinct.statuses) hdistinct.responses hresponses
  have hnone := Route.body_eq_none_iff hmade.body
  unfold bodyFields at hbody
  split at hbody
  · rename_i requestBody hsome
    obtain ⟨part, _, hpart, hbody⟩ := runs_bind_iff.mp hbody
    obtain ⟨rfl, rfl⟩ := runs_pure_iff.mp hbody
    refine ⟨⟨nofun, fun hnull => ?_⟩, fun part' hpart' => ?_, shown, rfl, hshown⟩
    · rw [hnone.mpr hnull] at hsome
      cases hsome
    · obtain rfl : part = part' := Option.some.inj hpart'
      have hmadeBody := hmade.body
      rw [hsome] at hmadeBody
      exact shows_requestBodyOf (Route.carries_body hmadeBody hdistinct.body) hpart
  · rename_i hempty
    obtain ⟨rfl, rfl⟩ := runs_pure_iff.mp hbody
    exact ⟨⟨fun _ => hnone.mp hempty, fun _ => rfl⟩, nofun, shown, rfl, hshown⟩

/-- The operations of a document are built one after the other, path by path. -/
theorem chain_pathsOf {names : ParameterNames} {paths : Paths} {fields : Fields}
    (hrun : Runs (pathsOf setup names paths) reg fields after) :
    Chain (fun p s b t => p.1 = b.1 ∧ ∃ operations, b.2 = .ofEntries operations ∧
      Chain (fun m s o t => m.1 = o.1 ∧ Runs (operationOf setup names m.2) s o.2 t) p.2 s operations t)
      paths reg fields after := by
  refine (runs_mapM_iff.mp hrun).mono fun p _ s b t hstep => ?_
  obtain ⟨operations, _, hloop, hstep⟩ := runs_bind_iff.mp hstep
  obtain ⟨rfl, rfl⟩ := runs_pure_iff.mp hstep
  refine ⟨rfl, operations, rfl, (runs_mapM_iff.mp hloop).mono fun m _ s o t hstep => ?_⟩
  obtain ⟨operation, _, hoperation, hstep⟩ := runs_bind_iff.mp hstep
  obtain ⟨rfl, rfl⟩ := runs_pure_iff.mp hstep
  exact ⟨rfl, hoperation⟩

/-- The paths of a document hold one operation for each method of each path, in their order. -/
theorem forall₂_pathsOf {names : ParameterNames} {paths : Paths} {fields : Fields}
    (hrun : Runs (pathsOf setup names paths) reg fields after) :
    List.Forall₂ (fun p b => p.1 = b.1 ∧ ∃ operations, b.2 = .ofEntries operations ∧
      List.Forall₂ (fun m o => m.1 = o.1 ∧ ∃ s t, Runs (operationOf setup names m.2) s o.2 t) p.2
        operations) paths fields :=
  (chain_pathsOf hrun).answers fun _ _ _ _ _ ⟨hpath, operations, hitem, hchain⟩ =>
    ⟨hpath, operations, hitem, hchain.answers fun _ _ s _ t ⟨hmethod, hrun⟩ => ⟨hmethod, s, t, hrun⟩⟩

end Runs

/-! ## The whole document -/

/-- A path of the document holds one operation for each of the given arguments, under its method. -/
def ShowsAll (describe : Describe) (declarations : List Fields) (item : Value) : Prop :=
  ∃ operations, item = .ofEntries operations ∧ OrderedMap.Separate operations ∧
    List.Forall₂ (fun d o => Route.methodOf d = o.1 ∧ Route.Shows describe d o.2) declarations
      operations

section Document

variable {heap : Heap} {source : Source} {descriptions : List Value} {declarations : List Fields}
  {routes : List Route}

/-- The routes of a source are made of its arguments one by one. -/
theorem forall₂_made (hsource : source.routes = some descriptions)
    (harguments : List.Forall₂ (fun v d => v.spread = .ok d) descriptions declarations)
    (hroutes : source.getRoutes heap.describe = .ok routes) :
    List.Forall₂ (fun d r => r.Made heap.describe d) declarations routes := by
  unfold Source.getRoutes at hroutes
  rw [hsource] at hroutes
  refine forall₂_transfer harguments (mapM_eq_ok_iff.mp hroutes) fun v _ d _ r hspread hcreate => ?_
  rw [hspread] at hcreate
  exact Route.made_of_create hcreate

theorem pairwise_clash_iff (hmade : List.Forall₂ (fun d r => r.Made heap.describe d) declarations
    routes) : routes.Pairwise (fun r r' => ¬ r.Clash r') ↔
      declarations.Pairwise fun d d' => ¬ Route.SameOperation d d' := by
  have hkeys : routes.map (fun r => (r.path, r.methodKey)) =
      declarations.map fun d => (Route.argument d "path", Route.methodOf d) := by
    rw [← List.forall₂_eq_eq_eq, List.forall₂_map_left_iff, List.forall₂_map_right_iff]
    exact hmade.flip.imp fun _ _ h => Prod.ext h.path h.methodKey_eq
  have hmap := congrArg (List.Pairwise fun k l : Value × Atom =>
    ¬ (k.1.same l.1 = true ∧ (k.2 == l.2) = true)) hkeys
  rw [List.pairwise_map, List.pairwise_map] at hmap
  exact iff_of_eq hmap

/-- The methods of a path are apart from each other where no two routes have the same path and the
same method. -/
theorem separate_methods {g : Atom × List Fields}
    (hkeyed : ∀ d ∈ declarations, Route.argument d "path" = .atom (Route.pathOf d))
    (hapart : declarations.Pairwise fun d d' => ¬ Route.SameOperation d d')
    (hg : g ∈ grouped Route.pathOf declarations) :
    OrderedMap.Separate (g.2.map fun d => (Route.methodOf d, d)) := by
  refine List.pairwise_map.mpr (pairwise_group (hapart.imp_of_mem fun hd hd' hne hpath =>
    Bool.eq_false_iff.mpr fun hmethod => hne ⟨?_, hmethod⟩) hg)
  rw [hkeyed _ hd, hkeyed _ hd', Value.same]
  exact hpath

/-- The groups of a document hold an operation for each of the arguments. -/
theorem length_operations {groups : OrderedMap Atom (List Fields)} {paths : Fields}
    (h : List.Forall₂ (fun g p => g.1 = p.1 ∧ ShowsAll heap.describe g.2 p.2) groups paths) :
    (paths.flatMap fun p => fieldsOf p.2).length = (groups.flatMap (·.2)).length := by
  induction h with
  | nil => rfl
  | cons hgroup _ ih =>
    obtain ⟨_, operations, hitem, _, hall⟩ := hgroup
    rw [List.flatMap_cons, List.flatMap_cons, List.length_append, List.length_append, ih, hitem,
      hall.length_eq]
    rfl

/-- A document that is built shows the routes by path and method. -/
theorem shows_of_build {env : Environment} {strict headerStart : Value} {document : Fields}
    (hmade : List.Forall₂ (fun d r => r.Made heap.describe d) declarations routes)
    (hdistinct : ∀ d ∈ declarations, Route.Distinct heap.describe d)
    (hkeyed : ∀ d ∈ declarations, Route.argument d "path" = .atom (Route.pathOf d))
    (hapart : declarations.Pairwise fun d d' => ¬ Route.SameOperation d d')
    (hpaths : source.paths heap.describe = .ok (Source.byPath routes))
    (hbuild : (build heap env source strict headerStart).1 = .ok document) :
    ∃ paths, OrderedMap.get? document (.str "paths") = some (.ofEntries paths) ∧
      List.Forall₂ (fun g p => g.1 = p.1 ∧ ShowsAll heap.describe g.2 p.2)
        (grouped Route.pathOf declarations) paths := by
  obtain ⟨_, hbuilding⟩ := building_of_build hbuild
  cases hbuilding with
  | @run _ _ _ _ built operations _ _ _ _ _ _ _ _ _ _ _ hbuilt hoperations _ _ =>
    obtain rfl := Except.ok.inj (hbuilt.symm.trans hpaths)
    have hgroups : List.Forall₂ (fun g g' => g.1 = g'.1 ∧ List.Forall₂ (fun d r =>
        r.Made heap.describe d) g.2 g'.2) (grouped Route.pathOf declarations)
          (grouped Route.pathKey routes) :=
      grouped_forall₂ (hmade.imp fun _ _ h => ⟨h.pathKey_eq.symm, h⟩)
    refine ⟨operations, rfl, ?_⟩
    refine forall₂_transfer hgroups.flip (List.forall₂_map_left_iff.mp (forall₂_pathsOf hoperations))
      fun g' _ g hg p hgg' hp => ⟨hgg'.1.trans hp.1, ?_⟩
    obtain ⟨_, items, hitem, hitems⟩ := hp
    have hshown : List.Forall₂ (fun d o => Route.methodOf d = o.1 ∧
        Route.Shows heap.describe d o.2) g.2 items := by
      refine forall₂_transfer hgg'.2.flip (List.forall₂_map_left_iff.mp hitems)
        fun r _ d hd o h ho => ?_
      obtain ⟨hmethod, _, _, hrun⟩ := ho
      have hmem : d ∈ declarations :=
        grouped_perm.mem_iff.mp (List.mem_flatMap.mpr ⟨g, hg, hd⟩)
      exact ⟨h.methodKey_eq.symm.trans hmethod, shows_operationOf h (hdistinct d hmem) hrun⟩
    refine ⟨items, hitem, (separate_methods hkeyed hapart hg).of_keys ?_, hshown⟩
    exact List.forall₂_map_left_iff.mpr (hshown.imp fun _ _ h => h.1)

/-- **Nothing is lost and nothing doubled.** The routes of a source are refused as duplicates only if
two of them have the same path and, in lower case, the same method; and then they always are, if all
paths can be keys and can be shown. If a document is built, all paths are keys, and it holds as many
operations as the source has routes. The paths stand in the order in which they occur first, and under
each of them, by their methods, the operations of its routes, each of which shows what the arguments of
its route declare. -/
theorem operations_of_routes (hsource : source.routes = some descriptions)
    (harguments : List.Forall₂ (fun v d => v.spread = .ok d) descriptions declarations)
    (hroutes : source.getRoutes heap.describe = .ok routes)
    (hdistinct : ∀ d ∈ declarations, Route.Distinct heap.describe d) :
    ((∃ method path, source.paths heap.describe = .error (.duplicateRoute method path)) →
      ∃ d d', [d, d'].Sublist declarations ∧ Route.SameOperation d d') ∧
    ((∀ d ∈ declarations, Route.HasPath heap.describe d) →
      (∃ d d', [d, d'].Sublist declarations ∧ Route.SameOperation d d') →
      ∃ method path, source.paths heap.describe = .error (.duplicateRoute method path)) ∧
    ∀ env strict headerStart document, (build heap env source strict headerStart).1 = .ok document →
      (∀ d ∈ declarations, Route.argument d "path" = .atom (Route.pathOf d)) ∧
      ∃ paths, OrderedMap.get? document (.str "paths") = some (.ofEntries paths) ∧
        OrderedMap.Separate paths ∧
        (paths.flatMap fun p => fieldsOf p.2).length = declarations.length ∧
        List.Forall₂ (fun g p => g.1 = p.1 ∧ ShowsAll heap.describe g.2 p.2)
          (grouped Route.pathOf declarations) paths := by
  have hmade := forall₂_made hsource harguments hroutes
  have hpaths : source.paths heap.describe =
      routes.foldlM (Source.addRoute heap.describe) [] := by
    unfold Source.paths
    rw [hroutes]
    rfl
  have hclash : (∃ d d', [d, d'].Sublist declarations ∧ Route.SameOperation d d') ↔
      ¬ routes.Pairwise fun r r' => ¬ r.Clash r' := by
    rw [pairwise_clash_iff hmade, List.pairwise_iff_forall_sublist]
    push Not
    rfl
  have htexted : ∀ r ∈ routes, r.Texted := fun r hr => by
    obtain ⟨d, _, h⟩ := forall₂_right hmade hr
    exact h.texted
  rw [hclash, hpaths]
  rcases Source.foldlM_addRoute heap.describe htexted with
    ⟨hkeyed, hapart, hfold⟩ | ⟨fault, hfold, hrefusal⟩
  · refine ⟨fun ⟨_, _, hrefused⟩ => ?_, fun _ hnot => absurd hapart hnot, ?_⟩
    · rw [hfold] at hrefused
      cases hrefused
    intro env strict headerStart document hbuild
    have hkeys : ∀ d ∈ declarations, Route.argument d "path" = .atom (Route.pathOf d) :=
      fun d hd => by
        obtain ⟨r, hr, h⟩ := forall₂_left hmade hd
        rw [← h.path, ← h.pathKey_eq]
        exact hkeyed r hr
    obtain ⟨paths, hdocument, hall⟩ := shows_of_build hmade hdistinct hkeys
      ((pairwise_clash_iff hmade).mp hapart) (hpaths.trans hfold) hbuild
    refine ⟨hkeys, paths, hdocument, grouped_separate.of_keys (hall.imp fun _ _ h => h.1), ?_, hall⟩
    rw [length_operations hall, grouped_perm.length_eq]
  · refine ⟨fun ⟨method, path, hrefused⟩ => ?_, fun hshown _ => ?_, ?_⟩
    · exact hrefusal.clash ⟨method, path, Except.error.inj (hfold.symm.trans hrefused)⟩
    · obtain ⟨method, path, rfl⟩ := hrefusal.named fun r hr => by
        obtain ⟨d, hd, h⟩ := forall₂_right hmade hr
        exact h.shown (hshown d hd)
      exact ⟨method, path, hfold⟩
    · intro env strict headerStart document hbuild
      obtain ⟨_, hbuilding⟩ := building_of_build hbuild
      cases hbuilding with
      | run _ _ _ _ _ hbuilt _ _ _ =>
        rw [show source.paths (describe (setupOf heap env strict headerStart)) = .error fault from
          hpaths.trans hfold] at hbuilt
        cases hbuilt

end Document

/-- Two routes of one path with a route of another path between them. -/
def shopDeclarations : List Fields :=
  [[(.str "path", .str "/pets"), (.str "method", .str "GET"), (.str "summary", .str "List"),
      (.str "responses", .ofEntries [
        (.int 200, .ofFields [("content", .ofEntries [
          (.str "application/json", .mediaType (.node 1) (.list [.str "Rex"]))])]),
        (.str "404", .ofFields [])])],
    [(.str "path", .str "/toys"), (.str "method", .str "get"), (.str "summary", .str "List")],
    [(.str "path", .str "/pets"), (.str "method", .str "post"), (.str "summary", .str "Add"),
      (.str "body", .ofFields [("content", .ofEntries [(.str "application/json", .node 1)])])]]

def shopSource : Source :=
  { petSource with routes := some (shopDeclarations.map .ofEntries) }

theorem operations_of_routes_shop : ∃ document,
    (build petHeap [] shopSource .null .null).1 = .ok document ∧
      ∃ paths, OrderedMap.get? document (.str "paths") = some (.ofEntries paths) ∧
        (paths.flatMap fun p => fieldsOf p.2).length = 3 ∧
        List.Forall₂ (fun g p => g.1 = p.1 ∧ ShowsAll petHeap.describe g.2 p.2)
          (grouped Route.pathOf shopDeclarations) paths := by
  have hok : (build petHeap [] shopSource .null .null).1.isOk = true := by rfl
  obtain ⟨document, hbuild⟩ := exists_of_isOk hok
  have hroutes : (shopSource.getRoutes petHeap.describe).isOk = true := by rfl
  obtain ⟨routes, hroutes⟩ := exists_of_isOk hroutes
  have hdistinct : ∀ d ∈ shopDeclarations, Route.Distinct petHeap.describe d := by
    simp only [shopDeclarations, List.forall_mem_cons, List.not_mem_nil, false_implies, implies_true,
      and_true]
    refine ⟨⟨.nil, ?_, ?_⟩, ⟨.nil, nofun, .nil⟩, ⟨List.pairwise_singleton _ _, nofun, .nil⟩⟩
    · exact List.forall_mem_cons.mpr ⟨List.pairwise_singleton _ _,
        List.forall_mem_cons.mpr ⟨.nil, nofun⟩⟩
    · show [Except.ok (ε := Fault) "200", Except.ok "404"].Nodup
      simp
  have harguments : List.Forall₂ (fun v d => Value.spread v = .ok d)
      (shopDeclarations.map Value.ofEntries) shopDeclarations :=
    List.forall₂_map_left_iff.mpr (List.forall₂_same.mpr fun _ _ => rfl)
  obtain ⟨_, paths, hdocument, _, hlength, hall⟩ :=
    (operations_of_routes rfl harguments hroutes hdistinct).2.2 [] .null .null document hbuild
  exact ⟨document, hbuild, paths, hdocument, hlength, hall⟩

/-- Two routes with the same list as their path and the same method. -/
def listDeclarations : List Fields :=
  let declaration : Fields := [(.str "path", .list [.str "/a"]), (.str "method", .str "get"),
    (.str "summary", .str "List")]
  [declaration, declaration]

/-- A path that is no key is not refused by name. -/
theorem paths_of_lists :
    let source : Source :=
      { tag := some (.ofFields [("name", .str "lists")])
        routes := some (listDeclarations.map .ofEntries) }
    (source.getRoutes petHeap.describe).isOk = true ∧
      (∀ d ∈ listDeclarations, Route.declaredResponses d = []) ∧
      (∃ d d', [d, d'].Sublist listDeclarations ∧ Route.SameOperation d d') ∧
      ¬ ∃ method path, source.paths petHeap.describe = .error (.duplicateRoute method path) := by
  intro source
  refine ⟨rfl, ?_, ⟨_, _, .refl _, by decide, by decide⟩, ?_⟩
  · simp only [listDeclarations, List.forall_mem_cons]
    exact ⟨rfl, rfl, nofun⟩
  · rintro ⟨method, path, hrefused⟩
    have hpaths : source.paths petHeap.describe = .error (.unhashable "list") := rfl
    rw [hpaths] at hrefused
    cases hrefused

end Spec

end WireShape
