import WireShape.Proofs.Logs
import WireShape.Proofs.Spec.Rules

/-!
# Strict and lenient builds

A lenient build warns about parameters that are not declared and refers to them by their keys; a
strict one refuses them. Up to the first warning both do the same, and where the lenient build
warns, the strict one fails with the same key and path. So a lenient build without such a warning is
the strict one, whether it succeeds or not.

* `Source.Mentions`: the keys of headers and queries that must be declared.
* `Spec.Follows`: a strict computation that does what a lenient one does up to its first warning.
* `Spec.build_strict`: the strict build follows the lenient one.
-/

namespace WireShape

open Value (Fields)

/-- A key of the headers or the query of a route that is not forbidden, as it is shown in a note
with the method and the path of the route. -/
inductive Source.Mentions (h : Heap) (source : Source) (key method path : String) : Prop
  | intro {routes : List Route} {route : Route} {container upper : Value} {s child : Schema}
      {k : Atom}
      (hroutes : source.getRoutes h.describe = .ok routes) (hroute : route ∈ routes)
      (hcontainer : container = route.headers ∨ container = route.query)
      (hs : Schema.ofValue container = .ok s) (hchild : (k, child) ∈ (h.view s).children)
      (hallowed : (h.view child).isForbidden = false) (hkey : k.display h.describe = .ok key)
      (hupper : Route.upperValue route.method = .ok upper)
      (hmethod : upper.display h.describe = .ok method)
      (hpath : route.path.display h.describe = .ok path)

/-- The method of a route is a text or bytes, so it can be shown in upper case. -/
theorem Route.exists_upperValue {describe : Describe} {tags : Except Fault (List Value)}
    {arguments : Fields} {r : Route} (hcreate : create describe tags arguments = .ok r) :
    ∃ upper method, upperValue r.method = .ok upper ∧ upper.display describe = .ok method := by
  have hshown : ∀ {v method : Value}, lowerValue v = .ok method →
      ∃ upper shown, upperValue method = .ok upper ∧ upper.display describe = .ok shown := by
    intro v method hlower
    unfold lowerValue at hlower
    split at hlower
    · cases hlower
      exact ⟨_, _, rfl, rfl⟩
    · cases hlower
      exact ⟨_, _, rfl, rfl⟩
    · cases hlower
  obtain ⟨_, _, hcreate⟩ := bind_eq_ok_iff.mp hcreate
  dsimp only at hcreate
  split at hcreate
  · cases hcreate
  · obtain ⟨method, hmethod, hcreate⟩ := bind_eq_ok_iff.mp hcreate
    obtain ⟨_, _, hcreate⟩ := bind_eq_ok_iff.mp hcreate
    obtain ⟨_, _, hcreate⟩ := bind_eq_ok_iff.mp hcreate
    obtain ⟨_, _, hcreate⟩ := bind_eq_ok_iff.mp hcreate
    obtain ⟨_, _, hcreate⟩ := bind_eq_ok_iff.mp hcreate
    cases hcreate
    exact hshown hmethod

theorem Source.exists_upperValue {source : Source} {describe : Describe} {routes : List Route}
    {r : Route} (hroutes : source.getRoutes describe = .ok routes) (hr : r ∈ routes) :
    ∃ upper method, Route.upperValue r.method = .ok upper ∧ upper.display describe = .ok method := by
  unfold getRoutes at hroutes
  split at hroutes
  · obtain ⟨v, _, hv⟩ := forall₂_right (mapM_eq_ok_iff.mp hroutes) hr
    obtain ⟨_, _, hcreate⟩ := bind_eq_ok_iff.mp hv
    exact Route.exists_upperValue hcreate
  · cases hroutes

namespace Spec

open Registry (lift Quiet quiet_rules)

/-! ## Following -/

/-- Among the added entries is a note that a parameter is not declared, and for the first such note
a strict computation fails. -/
def Refused {α : Type} (Note : String → String → String → Prop) (more : List LogEntry)
    (outcome : Except Fault α) : Prop :=
  ∃ before key method path after, more = before ++ undeclaredNote key method path :: after ∧
    (∀ e ∈ before, e.isUndeclared = false) ∧ Note key method path ∧
      outcome = .error (.undeclaredParameter key path)

/-- A strict computation that does what a lenient one does, or fails where that one first notes that
a parameter is not declared. -/
def Follows {α : Type} (Note : String → String → String → Prop)
    (strict lenient : Registering α) : Prop :=
  ∀ reg, ∃ more, (lenient reg).2.log.toList = reg.log.toList ++ more ∧
    (((∀ e ∈ more, e.isUndeclared = false) ∧ strict reg = lenient reg) ∨
      Refused Note more (strict reg).1)

section Following

variable {α β : Type} {Note : String → String → String → Prop} {x y : Registering α}
  {f g : α → Registering β} {more later : List LogEntry} {reg : Registry}

/-- What was refused stays refused by what follows. -/
theorem Refused.bind (h : Refused Note more (x reg).1) (later : List LogEntry) :
    Refused Note (more ++ later) ((x >>= f) reg).1 := by
  obtain ⟨before, key, method, path, after, rfl, hbefore, hnote, hfails⟩ := h
  refine ⟨before, key, method, path, after ++ later, by simp, hbefore, hnote, ?_⟩
  rw [bind_run]
  cases hrun : x reg with
  | mk outcome t =>
    rw [hrun] at hfails
    cases hfails
    rfl

theorem Refused.after {outcome : Except Fault α} (h : Refused Note later outcome)
    (hmore : ∀ e ∈ more, e.isUndeclared = false) : Refused Note (more ++ later) outcome := by
  obtain ⟨before, key, method, path, after, rfl, hbefore, hnote, hfails⟩ := h
  refine ⟨more ++ before, key, method, path, after, by simp, fun e he => ?_, hnote, hfails⟩
  exact (List.mem_append.mp he).elim (hmore e) (hbefore e)

namespace Follows

/-- What notes nothing of this kind follows itself. -/
theorem of_quiet (hx : Quiet x) : Follows Note x x := by
  intro reg
  obtain ⟨more, hlog, hmore⟩ := hx reg
  exact ⟨more, hlog, .inl ⟨hmore, rfl⟩⟩

theorem pure {a : α} : Follows Note (Pure.pure a) (Pure.pure a) := of_quiet .pure

theorem lift {r : Except Fault α} : Follows Note (Registry.lift r) (Registry.lift r) :=
  of_quiet Adds.compositional.lift

theorem bind (hx : Follows Note x y) (hf : ∀ a, Follows Note (f a) (g a)) :
    Follows Note (x >>= f) (y >>= g) := by
  intro reg
  obtain ⟨first, hfirst, hcases⟩ := hx reg
  rw [show (y >>= g) reg = _ from bind_run]
  cases hlenient : y reg with
  | mk outcome t =>
    rw [hlenient] at hfirst hcases
    cases outcome with
    | error fault =>
      refine ⟨first, hfirst, ?_⟩
      rcases hcases with ⟨hquiet, hsame⟩ | hrefused
      · refine .inl ⟨hquiet, ?_⟩
        rw [bind_run, hsame]
      · exact .inr (List.append_nil first ▸ hrefused.bind [])
    | ok a =>
      obtain ⟨later, hlater, hcases'⟩ := hf a t
      refine ⟨first ++ later, by rw [hlater, hfirst, List.append_assoc], ?_⟩
      rcases hcases with ⟨hquiet, hsame⟩ | hrefused
      · rw [Runs.bind_eq (f := f) hsame]
        rcases hcases' with ⟨hquiet', hsame'⟩ | hrefused
        · refine .inl ⟨fun e he => ?_, hsame'⟩
          exact (List.mem_append.mp he).elim (hquiet e) (hquiet' e)
        · exact .inr (hrefused.after hquiet)
      · exact .inr (hrefused.bind later)

theorem liftBind {r : Except Fault α} (h : ∀ a, r = .ok a → Follows Note (f a) (g a)) :
    Follows Note (Registry.lift r >>= f) (Registry.lift r >>= g) := by
  cases r with
  | error fault => exact fun _ => ⟨[], (List.append_nil _).symm, .inl ⟨fun _ he => (by cases he), rfl⟩⟩
  | ok a => exact h a rfl

theorem ite {p : Prop} [Decidable p] {x' y' : Registering α} (hx : Follows Note x y)
    (hx' : Follows Note x' y') : Follows Note (if p then x else x') (if p then y else y') := by
  split
  · exact hx
  · exact hx'

theorem mapM {u v : α → Registering β} {xs : List α} (h : ∀ a ∈ xs, Follows Note (u a) (v a)) :
    Follows Note (xs.mapM u) (xs.mapM v) := by
  induction xs with
  | nil => exact .pure
  | cons a xs ih =>
    rw [List.mapM_cons, List.mapM_cons]
    refine .bind (h a List.mem_cons_self) fun _ => .bind ?_ fun _ => .pure
    exact ih fun b hb => h b (List.mem_cons_of_mem _ hb)

end Follows

end Following

/-! ## Parameters by key -/

section Parameters

variable {setup : Setup} {source : Source} {names : ParameterNames} {routes : List Route}
  {route : Route} {key : Atom} {Note : String → String → String → Prop}

/-- The same build with another rule about parameters that are not declared. -/
def Setup.withStrict (setup : Setup) (strict : Bool) : Setup := { setup with strict }

/-- The method of a route can be shown, so a lenient build notes every parameter that a strict one
refuses. -/
theorem follows_undeclared {upper : Value} {method : String}
    (hupper : Route.upperValue route.method = .ok upper)
    (hmethod : upper.display setup.heap.describe = .ok method)
    (hnote : ∀ shown path, key.display setup.heap.describe = .ok shown →
      route.path.display setup.heap.describe = .ok path → Note shown method path) :
    Follows Note (parameterName.undeclared (setup.withStrict true) route key)
      (parameterName.undeclared (setup.withStrict false) route key) := by
  have hlenient (shown : String) : (do
      let upper ← lift (Route.upperValue route.method)
      let method ← lift (upper.display setup.heap.describe)
      let path ← lift (route.path.display setup.heap.describe)
      Registry.addLog .warning
        ("Parameter " ++ shown ++ " on " ++ method ++ " " ++ path ++ undeclaredEnding)
      return key) = lift (route.path.display setup.heap.describe) >>= fun path => (do
        Registry.addLog .warning
          ("Parameter " ++ shown ++ " on " ++ method ++ " " ++ path ++ undeclaredEnding)
        return key : Registering Atom) := by
    rw [hupper]
    change lift (upper.display setup.heap.describe) >>= _ = _
    rw [hmethod]
    rfl
  refine .liftBind fun shown hshown => ?_
  change Follows Note (lift (route.path.display setup.heap.describe) >>= fun path =>
    throw (.undeclaredParameter shown path)) (lift (Route.upperValue route.method) >>= _)
  refine (hlenient shown).symm ▸ .liftBind fun path hpath reg => ?_
  refine ⟨[undeclaredNote shown method path], Array.toList_push, .inr ?_⟩
  exact ⟨[], shown, method, path, [], rfl, fun _ he => (by cases he), hnote shown path hshown hpath,
    rfl⟩

section Routes

variable (hroutes : source.getRoutes setup.heap.describe = .ok routes) (hroute : route ∈ routes)
include hroutes hroute

theorem follows_parameterName {container : Value} {s child : Schema}
    (hcontainer : container = route.headers ∨ container = route.query)
    (hs : Schema.ofValue container = .ok s) (hchild : (key, child) ∈ (setup.heap.view s).children)
    (hallowed : (setup.heap.view child).isForbidden = false) :
    Follows (source.Mentions setup.heap) (parameterName (setup.withStrict true) names route key)
      (parameterName (setup.withStrict false) names route key) := by
  obtain ⟨upper, method, hupper, hmethod⟩ := Source.exists_upperValue hroutes hroute
  have hundeclared : Follows (source.Mentions setup.heap)
      (parameterName.undeclared (setup.withStrict true) route key)
      (parameterName.undeclared (setup.withStrict false) route key) :=
    follows_undeclared hupper hmethod fun shown path hshown hpath =>
      ⟨hroutes, hroute, hcontainer, hs, hchild, hallowed, hshown, hupper, hmethod, hpath⟩
  unfold parameterName
  split
  · exact .ite hundeclared .pure
  · exact hundeclared

theorem follows_referenceParameters {container : Value}
    (hcontainer : container = route.headers ∨ container = route.query) :
    Follows (source.Mentions setup.heap)
      (referenceParameters (setup.withStrict true) names route container)
      (referenceParameters (setup.withStrict false) names route container) := by
  refine .ite .pure (.liftBind fun s hs => .mapM fun e he => ?_)
  obtain ⟨hchild, hallowed⟩ := List.mem_filter.mp he
  rw [Bool.not_eq_true'] at hallowed
  refine .bind ?_ fun _ => .lift
  exact follows_parameterName hroutes hroute hcontainer hs hchild hallowed

theorem follows_operationOf :
    Follows (source.Mentions setup.heap) (operationOf (setup.withStrict true) names route)
      (operationOf (setup.withStrict false) names route) := by
  have hparameters : Follows (source.Mentions setup.heap)
      (operationParameters (setup.withStrict true) names route)
      (operationParameters (setup.withStrict false) names route) :=
    .bind (follows_referenceParameters hroutes hroute (.inl rfl)) fun _ =>
      .bind (follows_referenceParameters hroutes hroute (.inr rfl)) fun _ =>
        .of_quiet (.bind quiet_rules.routeRules.pathParameters fun _ => .pure)
  rw [operationOf_eq, operationOf_eq]
  refine .bind hparameters fun _ => .of_quiet ?_
  exact .bind quiet_rules.routeRules.bodyFields fun _ =>
    .bind quiet_rules.routeRules.responsesOf fun _ => .pure

end Routes

end Parameters

/-! ## The whole build -/

section Build

variable {setup : Setup} {source : Source}

theorem follows_pathsOf {names : ParameterNames} {routes : List Route} {paths : Paths}
    (hroutes : source.getRoutes setup.heap.describe = .ok routes)
    (hpaths : ∀ p ∈ paths, ∀ m ∈ p.2, m.2 ∈ routes) :
    Follows (source.Mentions setup.heap) (pathsOf (setup.withStrict true) names paths)
      (pathsOf (setup.withStrict false) names paths) :=
  .mapM fun p hp => .bind (.mapM fun m hm => .bind
    (follows_operationOf hroutes (hpaths p hp m hm)) fun _ => .pure) fun _ => .pure

theorem follows_buildWith :
    Follows (source.Mentions setup.heap) (buildWith (setup.withStrict true) source)
      (buildWith (setup.withStrict false) source) := by
  refine .bind .lift fun schemas => .bind .lift fun parameters => ?_
  refine .bind (.of_quiet quiet_rules.declareSchemas) fun _ => ?_
  refine .bind (.of_quiet quiet_rules.declareParameters) fun _ => ?_
  refine .bind (.of_quiet .get) fun reg => .bind .lift fun names => .liftBind fun paths hpaths => ?_
  obtain ⟨routes, hroutes, hmem⟩ := Source.route_of_paths hpaths
  refine .bind (follows_pathsOf hroutes hmem) fun built => .of_quiet (.bind .get fun last => ?_)
  refine .bind (Registry.quiet_addLog (LogEntry.IsDebug.not_isUndeclared rfl)) fun _ => ?_
  exact .bind Adds.compositional.lift fun _ => .pure

/-- Where the first entry is that is such a note. -/
theorem first_unique {α : Type} {p : α → Bool} {before before' after after' : List α} {e e' : α}
    (h : before ++ e :: after = before' ++ e' :: after') (hbefore : ∀ a ∈ before, p a = false)
    (he : p e = true) (hbefore' : ∀ a ∈ before', p a = false) (he' : p e' = true) : e = e' := by
  have hfind := congrArg (List.find? p) h
  have hfirst : ∀ {before after : List α} {e : α}, (∀ a ∈ before, p a = false) → p e = true →
      (before ++ e :: after).find? p = some e := by
    intro before after e hbefore he
    rw [List.find?_append, List.find?_eq_none.mpr fun a ha => by simp [hbefore a ha],
      List.find?_cons_of_pos he]
    rfl
  rw [hfirst hbefore he, hfirst hbefore' he'] at hfind
  exact Option.some.inj hfind

/-- A lenient build without a note that a parameter is not declared is the strict build. Where it
writes the first such note, the strict build fails for the key and the path of that note. -/
theorem build_strict {heap : Heap} {env : Environment} {source : Source} {headerStart : Value} :
    let lenient := build heap env source (.bool false) headerStart
    let strict := build heap env source (.bool true) headerStart
    ((∀ e ∈ lenient.2.toList, e.isUndeclared = false) → strict = lenient) ∧
      ∀ before e after, lenient.2.toList = before ++ e :: after →
        (∀ e' ∈ before, e'.isUndeclared = false) → e.isUndeclared = true →
        ∃ key method path, source.Mentions heap key method path ∧
          e = undeclaredNote key method path ∧
            strict.1 = .error (.undeclaredParameter key path) := by
  intro lenient strict
  let setup (strict : Bool) : Setup := Setup.withStrict
    { heap, strict, headerStart := headerStart.orElse
        (Settings.get (Settings.ofEnvironment env) "HEADER_PREFIX") } strict
  have houtcome : ∀ b, build heap env source (.bool b) headerStart =
      ((buildWith (setup b) source {}).1, (buildWith (setup b) source {}).2.log) := fun _ => rfl
  have hfollows : Follows (source.Mentions heap) (buildWith (setup true) source)
    (buildWith (setup false) source) := follows_buildWith
  obtain ⟨more, hlog, hcases⟩ := hfollows {}
  have hmore : lenient.2.toList = more := hlog
  rcases hcases with ⟨hquiet, hsame⟩ |
    ⟨first, key, method, path, rest, hfirst, hquiet, hnote, hfails⟩
  · refine ⟨fun _ => ?_, fun before e after hsplit _ he => ?_⟩
    · show build heap env source (.bool true) headerStart = _
      rw [houtcome]
      exact congrArg (fun r => (r.1, r.2.log)) hsame
    · have hmem : e ∈ more := by
        rw [← hmore, hsplit]
        exact List.mem_append_right _ List.mem_cons_self
      rw [hquiet e hmem] at he
      cases he
  · have hmem : undeclaredNote key method path ∈ lenient.2.toList := by
      rw [hmore, hfirst]
      exact List.mem_append_right _ List.mem_cons_self
    refine ⟨fun hnone => ?_, fun before e after hsplit hbefore he => ?_⟩
    · have := hnone _ hmem
      rw [isUndeclared_undeclaredNote] at this
      cases this
    · refine ⟨key, method, path, hnote, ?_, hfails⟩
      rw [hmore, hfirst] at hsplit
      exact (first_unique hsplit hquiet isUndeclared_undeclaredNote hbefore he).symm

/-- The small source without its declared parameter. -/
def openSource : Source := { petSource with parameters := some (.ofEntries []) }

theorem build_strict_pets :
    (build petHeap [] openSource (.bool false) .null).2.toList.head? =
      some (undeclaredNote "page" "POST" "/pets") ∧
    ∃ key method path, openSource.Mentions petHeap key method path ∧
      undeclaredNote "page" "POST" "/pets" = undeclaredNote key method path ∧
        (build petHeap [] openSource (.bool true) .null).1 =
          .error (.undeclaredParameter key path) :=
  ⟨rfl, build_strict.2 [] _ _ rfl (fun _ he => by cases he) isUndeclared_undeclaredNote⟩

end Build

end Spec

end WireShape
