import WireShape.Guard
import WireShape.Proofs.Keys
import WireShape.Proofs.Runs
import WireShape.Proofs.Validation.Messages

/-!
# A guarded view runs on checked data only

A guard is made of the containers that its route describes. Of a request it checks the described
parts one after another; the first part that does not pass decides the answer, and only if all pass
does the view run, with the data of just these parts beside the request.

* `Route.Passes`, `Route.Refuses`, `Route.Breaks`: what can become of a described part.
* `Guard.checkPart_cases`: one part, and `Guard.checkParts_cases`: one part after another.
* `Guard.protect_checked`: a view behind a guard.
-/

namespace WireShape

open Value (Fields)

/-! ## What a route says about a request -/

/-- Whether a route describes a part of its requests. A body without content is not described. -/
def Route.describes (route : Route) : RequestPart → Bool
  | .body =>
    match route.body with
    | some body => !(body.content.entries.toOption.getD []).isEmpty
    | none => false
  | part => !(route.container part.name).isNull

/-- The container that a part of a request is held against: that of the part, or for the body the
one of its media type. -/
inductive Route.Checks (h : Heap) (route : Route) (r : Request) : RequestPart → Container → Prop
  | part {part : RequestPart} {c : Container} (hpart : part ≠ .body)
      (hdescribed : route.container part.name ≠ .null)
      (hcompile : (Container.compile h (route.container part.name) part.allowsUnknown).1 = .ok c) :
      Checks h route r part c
  | body {body : RequestBody} {entries : Fields} {schema examples : Value} {c : Container}
      (hbody : route.body = some body) (hentries : body.content.entries = .ok entries)
      (hmedia : OrderedMap.get? entries (.str r.mediaType) = some (.mediaType schema examples))
      (hcompile : (Container.compile h schema RequestPart.body.allowsUnknown).1 = .ok c) :
      Checks h route r .body c

/-- The data of a part are taken and found valid. -/
inductive Route.Passes (h : Heap) (route : Route) (r : Request) (part : RequestPart)
    (data : Value) : Prop
  | intro {c : Container} (hchecks : route.Checks h r part c)
      (htaken : Guard.takenData c r part = .ok data) (hvalid : c.error data = .ok none)

/-- A part is refused: a body for its media type, any part for what its container says. -/
inductive Route.Refuses (h : Heap) (route : Route) (r : Request) :
    RequestPart → Nat → String → Prop
  | unsupported {body : RequestBody} {entries : Fields} (hbody : route.body = some body)
      (hentries : body.content.entries = .ok entries) (hsome : entries ≠ [])
      (hmedia : OrderedMap.get? entries (.str r.mediaType) = none) :
      Refuses h route r .body 415 (Guard.unsupportedMessage r.mediaType)
  | unfit {part : RequestPart} {c : Container} {data : Value} {message : String}
      (hchecks : route.Checks h r part c) (htaken : Guard.takenData c r part = .ok data)
      (herror : c.error data = .ok (some message)) : Refuses h route r part 422 message

/-- A fault ends the check of a part: its data cannot be taken or cannot be checked. -/
inductive Route.Breaks (h : Heap) (route : Route) (r : Request) (part : RequestPart)
    (fault : Fault) : Prop
  | taking {c : Container} (hchecks : route.Checks h r part c)
      (htaken : Guard.takenData c r part = .error fault)
  | checking {c : Container} {data : Value} (hchecks : route.Checks h r part c)
      (htaken : Guard.takenData c r part = .ok data) (herror : c.error data = .error fault)

namespace Guard

variable {h : Heap} {route : Route} {g : Guard} {r : Request} {part : RequestPart}

/-! ## The containers of a guard -/

/-- The container of a part that is not the body. -/
def container? (g : Guard) : RequestPart → Option Container
  | .query => g.query
  | .headers => g.headers
  | .params => g.params
  | .body => none

/-- A media type whose schema is that of a container. -/
def Describes (h : Heap) (media : Value) (c : Container) : Prop :=
  ∃ schema examples, media = .mediaType schema examples ∧
    (Container.compile h schema RequestPart.body.allowsUnknown).1 = .ok c

/-- A guard with the containers that a route describes. -/
structure Of (h : Heap) (route : Route) (g : Guard) : Prop where
  undescribed : ∀ part, part ≠ .body → route.container part.name = .null →
    g.container? part = none
  described : ∀ part, part ≠ .body → route.container part.name ≠ .null → ∃ c,
    (Container.compile h (route.container part.name) part.allowsUnknown).1 = .ok c ∧
      g.container? part = some c
  bodiless : route.body = none → g.bodies = []
  bodies : ∀ body, route.body = some body → ∃ entries, body.content.entries = .ok entries ∧
    List.Forall₂ (fun e b => e.1 = b.1 ∧ Describes h e.2 b.2) entries g.bodies

theorem runs_lift {α : Type} {step : Except Fault α} {log after : Array LogEntry} {a : α}
    (hrun : Runs (lift step) log a after) : step = .ok a := by
  cases hrun
  rfl

theorem runs_compile {v : Value} {log after : Array LogEntry} {c : Container}
    (hrun : Runs (compile h v part) log c after) :
    (Container.compile h v part.allowsUnknown).1 = .ok c :=
  congrArg Prod.fst hrun

theorem runs_compilePart {log after : Array LogEntry} {o : Option Container}
    (hrun : Runs (compilePart h route part) log o after) :
    (route.container part.name = .null → o = none) ∧
    (route.container part.name ≠ .null → ∃ c,
      (Container.compile h (route.container part.name) part.allowsUnknown).1 = .ok c ∧
        o = some c) := by
  unfold compilePart at hrun
  split at hrun
  · rename_i hnull
    obtain ⟨rfl, _⟩ := runs_pure_iff.mp hrun
    exact ⟨fun _ => rfl, fun hsome => absurd hnull hsome⟩
  · rename_i hsome
    obtain ⟨c, _, hcompile, hpure⟩ := runs_bind_iff.mp hrun
    obtain ⟨rfl, _⟩ := runs_pure_iff.mp hpure
    exact ⟨fun hnull => absurd hnull hsome, fun _ => ⟨c, runs_compile hcompile, rfl⟩⟩

theorem runs_compileBodies {body : RequestBody} {log after : Array LogEntry}
    {bodies : OrderedMap Atom Container} (hrun : Runs (compileBodies h body) log bodies after) :
    ∃ entries, body.content.entries = .ok entries ∧
      List.Forall₂ (fun e b => e.1 = b.1 ∧ Describes h e.2 b.2) entries bodies := by
  obtain ⟨entries, _, hlift, hmap⟩ := runs_bind_iff.mp hrun
  refine ⟨entries, runs_lift hlift, ?_⟩
  refine (runs_mapM_iff.mp hmap).answers ?_
  rintro ⟨type, media⟩ _ log b after hstep
  cases media with
  | mediaType schema examples =>
    obtain ⟨c, _, hcompile, hpure⟩ := runs_bind_iff.mp hstep
    obtain ⟨rfl, _⟩ := runs_pure_iff.mp hpure
    exact ⟨rfl, schema, examples, rfl, runs_compile hcompile⟩
  | _ => exact absurd hstep not_runs_throw

/-- The containers of the body, if the route has one. -/
def routeBodies (h : Heap) (route : Route) : Making (OrderedMap Atom Container) :=
  match route.body with
  | some body => compileBodies h body
  | none => pure []

/-- A guard is made by compiling its containers one after another. -/
theorem makeWith_eq : makeWith h route =
    compilePart h route .query >>= fun query => compilePart h route .headers >>= fun headers =>
      compilePart h route .params >>= fun params => routeBodies h route >>= fun bodies =>
        pure { query, headers, params, bodies } := by
  unfold makeWith routeBodies
  cases route.body <;> rfl

/-- A guard that is made of a route has its containers. -/
theorem of_make (hmake : (make h route).1 = .ok g) : g.Of h route := by
  cases hrun : makeWith h route #[] with
  | mk outcome log =>
    unfold make at hmake
    rw [hrun] at hmake
    cases hmake
    have hrun : Runs (makeWith h route) #[] g log := hrun
    rw [makeWith_eq] at hrun
    obtain ⟨query, _, hquery, hrun⟩ := runs_bind_iff.mp hrun
    obtain ⟨headers, _, hheaders, hrun⟩ := runs_bind_iff.mp hrun
    obtain ⟨params, _, hparams, hrun⟩ := runs_bind_iff.mp hrun
    obtain ⟨bodies, _, hbodies, hpure⟩ := runs_bind_iff.mp hrun
    obtain ⟨rfl, _⟩ := runs_pure_iff.mp hpure
    unfold routeBodies at hbodies
    refine ⟨fun part hpart => ?_, fun part hpart => ?_, fun hnone => ?_, fun body hsome => ?_⟩
    · cases part with
      | query => exact (runs_compilePart hquery).1
      | headers => exact (runs_compilePart hheaders).1
      | params => exact (runs_compilePart hparams).1
      | body => exact absurd rfl hpart
    · cases part with
      | query => exact (runs_compilePart hquery).2
      | headers => exact (runs_compilePart hheaders).2
      | params => exact (runs_compilePart hparams).2
      | body => exact absurd rfl hpart
    · rw [hnone] at hbodies
      exact (runs_pure_iff.mp hbodies).1
    · rw [hsome] at hbodies
      exact runs_compileBodies hbodies

/-! ## One part -/

/-- A part of no body that has a container is examined, one without is passed over. -/
theorem checkPart_of_ne_body (hpart : part ≠ .body) : g.checkPart r part =
    match g.container? part with
    | some c => examine c r part
    | none => .ok .undescribed := by
  cases part with
  | body => exact absurd rfl hpart
  | query => rfl
  | headers => rfl
  | params => rfl

/-- A body is examined with the container of its media type. -/
theorem checkPart_body : g.checkPart r .body =
    if g.bodies.isEmpty then .ok .undescribed
    else
      match OrderedMap.get? g.bodies (.str r.mediaType) with
      | some c => examine c r .body
      | none => .ok (.refused unsupported (unsupportedMessage r.mediaType)) := rfl

/-- What the examination of a part with its container leads to. -/
theorem examine_cases {c : Container} (hchecks : route.Checks h r part c) :
    (∃ data, route.Passes h r part data ∧ examine c r part = .ok (.valid data)) ∨
    (∃ status message, route.Refuses h r part status message ∧
      examine c r part = .ok (.refused status message)) ∨
    ∃ fault, route.Breaks h r part fault ∧ examine c r part = .error fault := by
  unfold examine
  cases htaken : takenData c r part with
  | error fault => exact .inr (.inr ⟨fault, .taking hchecks htaken, rfl⟩)
  | ok data =>
    simp only [bind, Except.bind]
    cases herror : c.error data with
    | error fault => exact .inr (.inr ⟨fault, .checking hchecks htaken herror, rfl⟩)
    | ok found =>
      cases found with
      | none => exact .inl ⟨data, ⟨hchecks, htaken, herror⟩, rfl⟩
      | some message =>
        -- The message is not empty, so the branch for an empty one is not taken.
        have hnot : ¬ message.isEmpty = true :=
          fun hempty => Validator.error_ne_empty herror (String.isEmpty_iff.mp hempty)
        refine .inr (.inl ⟨unfit, message, .unfit hchecks htaken herror, ?_⟩)
        dsimp only
        rw [if_neg hnot]
        rfl

/-- A part that is not described is passed over; any other one passes, is refused, or a fault ends
its check. -/
theorem checkPart_cases (hg : g.Of h route) (r : Request) (part : RequestPart) :
    (route.describes part = false ∧ g.checkPart r part = .ok .undescribed) ∨
    route.describes part = true ∧
      ((∃ data, route.Passes h r part data ∧ g.checkPart r part = .ok (.valid data)) ∨
      (∃ status message, route.Refuses h r part status message ∧
        g.checkPart r part = .ok (.refused status message)) ∨
      ∃ fault, route.Breaks h r part fault ∧ g.checkPart r part = .error fault) := by
  by_cases hpart : part = .body
  · subst hpart
    cases hbody : route.body with
    | none =>
      refine .inl ⟨by rw [Route.describes, hbody], ?_⟩
      rw [checkPart_body, hg.bodiless hbody]
      rfl
    | some body =>
      obtain ⟨entries, hentries, hall⟩ := hg.bodies body hbody
      have hdescribes : route.describes .body = !entries.isEmpty := by
        rw [Route.describes, hbody]
        dsimp only
        rw [hentries]
        rfl
      have hempty : g.bodies.isEmpty = entries.isEmpty := by
        rw [Bool.eq_iff_iff, List.isEmpty_iff_length_eq_zero, List.isEmpty_iff_length_eq_zero,
          hall.length_eq]
      rw [hdescribes, checkPart_body, hempty]
      cases hsome : entries.isEmpty with
      | true => exact .inl ⟨rfl, rfl⟩
      | false =>
        refine .inr ⟨rfl, ?_⟩
        rw [if_neg Bool.false_ne_true]
        rcases OrderedMap.get?_forall₂ (R := fun _ => Describes h) hall (Atom.str r.mediaType) with
          ⟨hmissing, hnone⟩ | ⟨_, _, c, _, hmedia, hc, schema, examples, rfl, hcompile⟩
        · have hne : entries ≠ [] := by
            rintro rfl
            cases hsome
          rw [hnone]
          exact .inr (.inl ⟨_, _, .unsupported hbody hentries hne hmissing, rfl⟩)
        · rw [hc]
          exact examine_cases (.body hbody hentries hmedia hcompile)
  · have hdescribes : route.describes part = !(route.container part.name).isNull := by
      cases part with
      | body => exact absurd rfl hpart
      | query => rfl
      | headers => rfl
      | params => rfl
    rw [hdescribes, checkPart_of_ne_body hpart]
    cases hnull : (route.container part.name).isNull with
    | true =>
      have hnull := Value.isNull_iff.mp hnull
      rw [hg.undescribed part hpart hnull]
      exact .inl ⟨rfl, rfl⟩
    | false =>
      have hsome : route.container part.name ≠ .null := by
        intro heq
        rw [heq] at hnull
        cases hnull
      obtain ⟨c, hcompile, hc⟩ := hg.described part hpart hsome
      rw [hc]
      exact .inr ⟨rfl, examine_cases (.part hpart hsome hcompile)⟩

/-! ## One part after another -/

/-- Parts with their data, under the names of the parts. -/
def named (found : List (RequestPart × Value)) : Fields := found.map fun e => (.str e.1.name, e.2)

theorem name_ne {p q : RequestPart} (hne : p ≠ q) :
    ((.str p.name : Atom) == .str q.name) = false := by
  cases p <;> cases q <;> first | exact absurd rfl hne | rfl

/-- The data of a part that has none so far go to the end. -/
theorem set_named {found : List (RequestPart × Value)} {data : Value}
    (hnew : part ∉ found.map Prod.fst) :
    (named found).set part.name data = named (found ++ [(part, data)]) := by
  rw [named, named, List.map_append]
  refine OrderedMap.insert_eq_append fun e he => ?_
  obtain ⟨p, hp, rfl⟩ := List.mem_map.mp he
  refine name_ne ?_
  rintro rfl
  exact hnew (List.mem_map.mpr ⟨p, hp, rfl⟩)

/-- Described parts all pass, or one that does not decides, those before it having passed. -/
theorem checkParts_cases (hg : g.Of h route) (r : Request) (parts : List RequestPart)
    (done : List (RequestPart × Value)) (hnodup : (done.map Prod.fst ++ parts).Nodup) :
    (∃ found, found.map Prod.fst = parts.filter route.describes ∧
      (∀ e ∈ found, route.Passes h r e.1 e.2) ∧
        g.checkParts r (named done) parts = .ok (.accepted (named (done ++ found)))) ∨
    ∃ before part after, parts = before ++ part :: after ∧
      (∀ p ∈ before, route.describes p = true → ∃ data, route.Passes h r p data) ∧
        ((∃ status message, route.Refuses h r part status message ∧
          g.checkParts r (named done) parts = .ok (.rejected status r.identifier message)) ∨
        ∃ fault, route.Breaks h r part fault ∧
          g.checkParts r (named done) parts = .error fault) := by
  induction parts generalizing done with
  | nil =>
    refine .inl ⟨[], rfl, fun _ he => (by cases he), ?_⟩
    rw [List.append_nil]
    rfl
  | cons part rest ih =>
    rw [checkParts]
    rcases checkPart_cases hg r part with ⟨hdescribes, hcheck⟩ |
      ⟨hdescribes, ⟨data, hpasses, hcheck⟩ | ⟨status, message, hrefuses, hcheck⟩ |
        ⟨fault, hbreaks, hcheck⟩⟩
    · -- The part is not described and leaves no trace.
      simp only [hcheck, bind, Except.bind]
      have hrest : (done.map Prod.fst ++ rest).Nodup :=
        hnodup.sublist ((List.sublist_cons_self _ _).append_left _)
      rcases ih done hrest with ⟨found, hfound, hall, heq⟩ |
        ⟨before, p, after, rfl, hbefore, hend⟩
      · refine .inl ⟨found, ?_, hall, heq⟩
        rw [hfound, List.filter_cons_of_neg (by rw [hdescribes]; exact Bool.false_ne_true)]
      · refine .inr ⟨part :: before, p, after, rfl, fun q hq hdescribed => ?_, hend⟩
        rcases List.mem_cons.mp hq with rfl | hq
        · exact absurd (hdescribes.symm.trans hdescribed) Bool.false_ne_true
        · exact hbefore q hq hdescribed
    · -- The part passes, and its data go on with the others.
      simp only [hcheck, bind, Except.bind]
      have hnew : part ∉ done.map Prod.fst := fun hmem =>
        (List.nodup_append.mp hnodup).2.2 part hmem part List.mem_cons_self rfl
      have hrest : ((done ++ [(part, data)]).map Prod.fst ++ rest).Nodup := by
        rw [List.map_append, List.append_assoc]
        exact hnodup
      rw [set_named hnew]
      rcases ih (done ++ [(part, data)]) hrest with ⟨found, hfound, hall, heq⟩ |
        ⟨before, p, after, rfl, hbefore, hend⟩
      · refine .inl ⟨(part, data) :: found, ?_, ?_, ?_⟩
        · rw [List.map_cons, hfound, List.filter_cons_of_pos hdescribes]
        · intro e he
          rcases List.mem_cons.mp he with rfl | he
          · exact hpasses
          · exact hall e he
        · rw [heq, List.append_assoc]
          rfl
      · refine .inr ⟨part :: before, p, after, rfl, fun q hq hdescribed => ?_, hend⟩
        rcases List.mem_cons.mp hq with rfl | hq
        · exact ⟨data, hpasses⟩
        · exact hbefore q hq hdescribed
    · refine .inr ⟨[], part, rest, rfl, fun _ hq => (by cases hq),
        .inl ⟨status, message, hrefuses, ?_⟩⟩
      rw [hcheck]
      rfl
    · refine .inr ⟨[], part, rest, rfl, fun _ hq => (by cases hq), .inr ⟨fault, hbreaks, ?_⟩⟩
      rw [hcheck]
      rfl

/-! ## Views -/

/-- What a guard lets through are the data of parts that pass. -/
theorem accepted_passes {validated : Fields} (hmake : (make h route).1 = .ok g)
    (hcheck : (g.check r).1 = .ok (.accepted validated)) :
    ∃ found, validated = named found ∧ ∀ e ∈ found, route.Passes h r e.1 e.2 := by
  have hverdict : g.checkParts r [] RequestPart.all = .ok (.accepted validated) := by
    unfold check at hcheck
    dsimp only at hcheck
    split at hcheck <;> exact hcheck
  have hnodup : (([] : List (RequestPart × Value)).map Prod.fst ++ RequestPart.all).Nodup := by
    decide
  rcases checkParts_cases (of_make hmake) r RequestPart.all [] hnodup with
    ⟨found, _, hall, heq⟩ | ⟨_, _, _, _, _, ⟨_, _, _, heq⟩ | ⟨_, _, heq⟩⟩
  · cases heq.symm.trans hverdict
    exact ⟨found, rfl, hall⟩
  · cases heq.symm.trans hverdict
  · cases heq.symm.trans hverdict

/-- What is let through under the name of a part are the data of that part. -/
theorem mem_of_named {found : List (RequestPart × Value)} {data : Value}
    (hdata : OrderedMap.get? (named found) (.str part.name) = some data) : (part, data) ∈ found := by
  obtain ⟨key, hmem, hkey⟩ := OrderedMap.mem_of_get? hdata
  obtain ⟨⟨p, d⟩, hp, heq⟩ := List.mem_map.mp hmem
  cases heq
  by_cases hpart : p = part
  · rwa [hpart] at hp
  · exact absurd ((name_ne hpart).symm.trans hkey) Bool.false_ne_true

section Views

variable {α : Type} {view : View α} {scope : RequestScope}

theorem protect_accepted {validated : Fields}
    (hcheck : g.checkParts r [] RequestPart.all = .ok (.accepted validated)) :
    g.protect view r scope = ((view { scope with validated := some validated }).1.map .handled,
      (view { scope with validated := some validated }).2) := by
  unfold protect check
  rw [hcheck]
  simp only [Array.append_empty]
  rfl

theorem protect_rejected {status : Nat} {identifier : Value} {message : String}
    (hcheck : g.checkParts r [] RequestPart.all = .ok (.rejected status identifier message)) :
    g.protect view r scope = (.ok (.rejected status identifier message),
      { scope with log := scope.log.push (rejection r status message) }) := by
  unfold protect check
  rw [hcheck]
  rfl

theorem protect_error {fault : Fault}
    (hcheck : g.checkParts r [] RequestPart.all = .error fault) :
    g.protect view r scope = (.error fault, scope) := by
  unfold protect check
  rw [hcheck]
  simp only [Array.append_empty]

end Views

end Guard

/-! ## Visitors -/

/-- A text, and an object with an identifier. -/
def visitorHeap : Heap where
  nodes := #[{ kind := "string" }, { kind := "object", children := [(.str "id", .node 0)] }]

/-- A route that takes an identifier in its path and in its body. -/
def visitorRoute : Route where
  path := .str "/visitors/\x7bid\x7d"
  method := .str "post"
  summary := .str "Move"
  tags := []
  headers := .null
  query := .null
  params := .node 1
  body := some ⟨.ofEntries [(.str "application/json", .mediaType (.node 1) .null)], .null, .null⟩
  responses := []

/-- The visitor 7 becomes the visitor 8. -/
def visitorRequest : Request where
  method := "POST"
  headers := [("content-type", "application/json")]
  body := .text "\x7b\"id\":\"8\"\x7d"
  pathArguments := .ofFields [("id", .str "7")]

/-- Whether the view was called. -/
def Guard.handles {α : Type} : Except Fault (Handling α) → Bool
  | .ok (.handled _) => true
  | _ => false

end WireShape
