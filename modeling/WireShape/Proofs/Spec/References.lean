import WireShape.Proofs.Registry.Discipline
import WireShape.Proofs.Registry.References
import WireShape.Proofs.Spec.Sources
import WireShape.Spec

/-!
# References in a document

A document refers to definitions in its operations and in the definitions themselves. If parameters
must be declared and neither nodes nor values bring references of their own, each of these references
leads to a definition of the document: what is written into the document while it is built refers to
definitions made so far, and those are never lost.

* `Source.OwnsNoRefs`: sources that bring no reference of their own.
* `Spec.operationOf_keeps`: the operation of a route refers to definitions only.
* `Spec.references_resolve`: so does the whole document.
-/

namespace WireShape

open Value (Fields)

/-- A route whose schemas and values bring no reference. -/
structure Route.OwnsNoRefs (h : Heap) (r : Route) : Prop where
  params : h.OwnsNoRefs r.params
  media : ∀ m ∈ r.media, h.OwnsNoRefs m.1 ∧ m.2.RefFree
  texts : ∀ v ∈ r.texts, v.RefFree

/-- A source whose schemas and values bring no reference. -/
structure Source.OwnsNoRefs (h : Heap) (source : Source) : Prop where
  schemas : ∀ es identity, source.schemas = some (.map es identity) → ∀ e ∈ es, h.OwnsNoRefs e.2
  parameters : ∀ es identity, source.parameters = some (.map es identity) →
    ∀ e ∈ es, h.OwnsNoRefs e.2
  tag : ∀ v, source.tag = some v → v.RefFree
  routes : ∀ routes, source.getRoutes h.describe = .ok routes → ∀ r ∈ routes, r.OwnsNoRefs h

namespace Registry

/-- Registries that are closed and lose no name. -/
def closedness (describe : Describe) : Discipline where
  Inv := Registry.Closed describe
  Grows := Registry.Grows
  refl _ := .refl
  trans := .trans

/-- All references in a value are to definitions. -/
def Grounds (describe : Describe) (v : Value) (reg : Registry) : Prop :=
  v.RefersWithin (reg.components.Resolves describe)

variable {describe : Describe} {h : Heap} {P : Registry → Prop}

theorem lasts_grounds {v : Value} : (closedness describe).Lasts (Grounds describe v) :=
  fun _ _ hgrows hv => hv.mono fun _ => hgrows.resolves

theorem nameFor_keeps {v : Value} (hv : h.OwnsNoRefs v) :
    (closedness h.describe).Keeps P (nameFor h v) fun name reg => reg.Offers h.describe name :=
  fun _ _ _ hrun hreg _ => (runs_nameFor hrun).closed hv hreg

theorem declare_keeps {name : Atom} {v : Value} (hv : h.OwnsNoRefs v) :
    (closedness h.describe).Keeps P (declare h name v) fun _ _ => True := by
  intro reg a after hrun hreg _
  obtain ⟨hafter, hgrows⟩ := (runs_declare hrun).closed hv hreg
  exact ⟨hafter, hgrows, trivial⟩

theorem compile_keeps {v : Value} (hv : h.OwnsNoRefs v) :
    (closedness h.describe).Keeps P (compile h v) fun r reg => ∀ schema, r = some schema →
      SchemaWithin (reg.components.Resolves h.describe) schema :=
  fun _ _ _ hrun hreg _ => compiling_value_closed (runs_runWalk hrun) hv hreg

theorem compileSchema_keeps {s : Schema} (hs : ∀ t, h.Reaches s t → (h.view t).OwnsNoRefs) :
    (closedness h.describe).Keeps P (compileSchema h s) fun r reg => ∀ schema, r = some schema →
      SchemaWithin (reg.components.Resolves h.describe) schema := by
  intro reg r after hrun hreg _
  exact (runs_runWalk hrun).closed (fun _ _ _ hrun => runs_compileSchema_closed hrun hs) hreg

theorem addLog_keeps {level : LogLevel} {message : String} :
    (closedness describe).Keeps P (addLog level message) fun _ _ => True := by
  intro reg i after hrun hreg _
  have hrun' : Runs (addLogFrom level (.ok message)) reg i after := hrun
  have hsame := runs_addLogFrom hrun'
  exact ⟨hsame.closed hreg, .of_components hsame.components, trivial⟩

theorem addLogFrom_keeps {level : LogLevel} {message : Except Fault String}
    (hP : (closedness describe).Lasts P) :
    (closedness describe).Keeps P (addLogFrom level message) fun _ => P := by
  intro reg _ after hrun hreg hp
  have hsame := runs_addLogFrom hrun
  have hgrows : reg.Grows after := .of_components hsame.components
  exact ⟨hsame.closed hreg, hgrows, hP _ _ hgrows hp⟩

/-! ## Parameters -/

theorem registerParameter_keeps {name : Atom} {parameter : Value} :
    (closedness describe).Keeps (fun reg => parameter.isMap = true ∧ Grounds describe parameter reg)
      (registerParameter name parameter) fun _ _ => True := by
  rintro reg _ after hrun hreg ⟨hmap, hgrounds⟩
  obtain rfl := runs_define_iff.mp hrun
  refine ⟨?_, .of_define rfl, trivial⟩
  exact hreg.transfer (.of_define rfl) (hreg.define rfl hmap hgrounds) rfl rfl

/-- The definition of a parameter from the fields of its schema. -/
theorem parameter_within {R : String → Prop} {definition : Fields} {name : Value} {place : String}
    {required : Bool} (hname : ∃ a, name = .atom a)
    (hdefinition : (Value.ofEntries definition).RefersWithin R) :
    (Value.ofFields [("name", name), ("in", .str place), ("required", .bool required),
      ("schema", .ofEntries (definition.remove "description")),
      ("description", OrderedMap.getD definition (.str "description") (.str ""))]).RefersWithin R := by
  obtain ⟨a, rfl⟩ := hname
  refine Value.refersWithin_ofFields ?_
  simp only [List.forall_mem_cons, List.not_mem_nil, false_implies, implies_true, and_true]
  exact ⟨⟨by decide, Value.refersWithin_atom⟩, ⟨by decide, Value.refersWithin_atom⟩,
    ⟨by decide, Value.refersWithin_atom⟩, ⟨by decide, Value.refersWithin_remove hdefinition⟩,
    ⟨by decide, Value.refersWithin_getD hdefinition Value.refersWithin_atom⟩⟩

/-- The name of a parameter is a key of the schema, and its fields are those under the key. -/
theorem parameter_parts {describe : Describe} {R : String → Prop} {schema found : Value}
    {names : List Value} {definition : Fields} (hschema : SchemaWithin R schema)
    (htruthy : ((schema.field? "properties").getD .null).truthy = true)
    (hnames : ((schema.field? "properties").getD .null).elements = .ok names)
    (hfound : ((schema.field? "properties").getD .null).item describe (names.headD .null) = .ok found)
    (hdefinition : found.toEntries = .ok definition) :
    (∃ a, names.headD .null = .atom a) ∧ (Value.ofEntries definition).RefersWithin R := by
  cases hfield : schema.field? "properties" with
  | none =>
    rw [hfield] at htruthy
    cases htruthy
  | some p =>
    obtain ⟨entries, rfl, hentries⟩ := hschema.properties p hfield
    rw [hfield] at hnames hfound
    cases hnames
    have hname : ∃ a, (entries.map fun e => Value.atom e.1).headD .null = .atom a := by
      cases entries with
      | nil => exact ⟨_, rfl⟩
      | cons e entries => exact ⟨e.1, rfl⟩
    refine ⟨hname, ?_⟩
    obtain ⟨a, ha⟩ := hname
    rw [ha] at hfound
    have hget : OrderedMap.get? entries a = some found := by
      unfold Value.item at hfound
      obtain ⟨key, hkey, hmatch⟩ := bind_eq_ok_iff.mp hfound
      cases hkey
      cases hget : OrderedMap.get? entries a with
      | some other =>
        rw [hget] at hmatch
        cases hmatch
        rfl
      | none =>
        rw [hget] at hmatch
        obtain ⟨_, _, hthrow⟩ := bind_eq_ok_iff.mp hmatch
        cases hthrow
    obtain ⟨k, hmem, _⟩ := OrderedMap.mem_of_get? hget
    have hmap := hentries _ hmem
    have hwithin := Value.refersWithin_map_iff.mp (Value.refersWithin_field hschema.within hfield)
    cases found with
    | map es identity =>
      obtain rfl : es = definition := Except.ok.inj hdefinition
      have hfields : (Value.map es identity).RefersWithin R := (hwithin _ hmem).1
      exact Value.refersWithin_map_iff.mpr (Value.refersWithin_map_iff.mp hfields)
    | _ => cases hmap

theorem buildParameter_keeps {v headerStart : Value} (hv : h.OwnsNoRefs v) :
    (closedness h.describe).Keeps P (buildParameter h v headerStart) fun r reg =>
      ∀ parameter, r = some parameter →
        parameter.isMap = true ∧ Grounds h.describe parameter reg := by
  unfold buildParameter
  refine (compile_keeps hv).bind ?_
  intro r
  split
  · rename_i es identity
    dsimp only
    split
    · refine .pure ?_
      intro _ _ _ hr
      cases hr
    · rename_i htruthy
      refine .liftBind fun names hnames => ?_
      have hlasts : (closedness h.describe).Lasts fun reg =>
          SchemaWithin (reg.components.Resolves h.describe) (.map es identity) :=
        fun _ _ hgrows hschema => hschema.mono fun _ => hgrows.resolves
      refine Discipline.Keeps.conseq ?_ (fun _ hschema => hschema _ rfl) (fun _ _ hq => hq)
      split
      on_goal 1 => refine (addLogFrom_keeps hlasts).bind fun _ => ?_
      all_goals
        refine .liftBind fun found hfound => ?_
        refine .liftBind fun definition hdefinition => ?_
        refine .liftBind fun inHeader _ => ?_
        refine .liftBind fun isRequired _ => ?_
        refine .pure ?_
        rintro reg hschema _ hparameter
        cases hparameter
        obtain ⟨hname, hwithin⟩ :=
          parameter_parts hschema (by simpa using htruthy) hnames hfound hdefinition
        exact ⟨rfl, parameter_within hname hwithin⟩
  · refine .pure ?_
    intro _ _ _ hr
    cases hr

end Registry

namespace Spec

open Registry (closedness Grounds)

variable {setup : Setup} {P : Registry → Prop}

/-! ## Declarations -/

/-- The entries of a mapping that may be left out. -/
theorem keeps_entries {D : Discipline} {α : Type} {v : Value} {Q : α → Registry → Prop}
    {next : OrderedMap Atom Value → Registering α}
    (hnext : ∀ es, (es = [] ∨ ∃ identity, v = .map es identity) → D.Keeps P (next es) Q) :
    D.Keeps P (if v.truthy then Registry.lift v.entries >>= next else pure [] >>= next) Q := by
  intro reg a after hrun
  obtain ⟨es, hes, hrun⟩ := runs_entries hrun
  exact hnext es (hes.imp_left And.left) reg a after hrun

theorem declareSchemas_keeps {schemas : Value}
    (hschemas : ∀ es identity, schemas = .map es identity → ∀ e ∈ es, setup.heap.OwnsNoRefs e.2) :
    (closedness setup.heap.describe).Keeps (fun _ => True) (declareSchemas setup schemas)
      fun _ _ => True := by
  refine keeps_entries fun es hes => .forM (fun _ _ _ _ => trivial) fun e he => ?_
  refine (Registry.declare_keeps ?_).bind fun _ => .pure fun _ _ => trivial
  rcases hes with rfl | ⟨identity, rfl⟩
  · cases he
  · exact hschemas es identity rfl e he

theorem declareParameters_keeps {parameters : Value}
    (hparameters : ∀ es identity, parameters = .map es identity →
      ∀ e ∈ es, setup.heap.OwnsNoRefs e.2) :
    (closedness setup.heap.describe).Keeps (fun _ => True) (declareParameters setup parameters)
      fun _ _ => True := by
  refine keeps_entries fun es hes => .forM (fun _ _ _ _ => trivial) fun e he => ?_
  have hnodes : setup.heap.OwnsNoRefs e.2 := by
    rcases hes with rfl | ⟨identity, rfl⟩
    · cases he
    · exact hparameters es identity rfl e he
  refine (Registry.buildParameter_keeps hnodes).bind fun r => ?_
  cases r with
  | none => exact .pure fun _ _ => trivial
  | some parameter =>
    exact Registry.registerParameter_keeps.conseq (fun _ hp => hp parameter rfl) fun _ _ hq => hq

/-! ## Operations -/

/-- All names of declared parameters are names of definitions. -/
def NamesParameters (names : ParameterNames) (reg : Registry) : Prop :=
  ∀ e ∈ names, reg.components.Names (.str "parameters") e.2

theorem lasts_namesParameters {describe : Describe} {names : ParameterNames} :
    (closedness describe).Lasts (NamesParameters names) :=
  fun _ _ hgrows hnames e he => hgrows _ _ (hnames e he)

/-- The names with that of one more parameter. -/
def addParameterName (names : ParameterNames) (e : Atom × Value) : Except Fault ParameterNames := do
  match e.2.field? "name" with
  | some key => return OrderedMap.insert names (← key.asKey) e.1
  | none => return names

/-- Only atoms can be keys. -/
theorem eq_atom_of_asKey {v : Value} {k : Atom} (hkey : v.asKey = .ok k) : v = .atom k := by
  cases v with
  | atom a => exact congrArg Value.atom (Except.ok.inj hkey)
  | _ => cases hkey

/-- A name that is found belongs to a definition with the key as its name, or has been there before:
each definition goes under its own key, whichever names the key had. -/
theorem mem_foldlM_addParameterName {entries : OrderedMap Atom Value} {start final : ParameterNames}
    (hfinal : entries.foldlM addParameterName start = .ok final) {e : Atom × Atom} (he : e ∈ final) :
    e ∈ start ∨ ∃ d k, (e.2, d) ∈ entries ∧ d.field? "name" = some (.atom k) ∧
      Components.Matches k e.1 := by
  induction entries generalizing start with
  | nil =>
    cases hfinal
    exact .inl he
  | cons entry entries ih =>
    rw [List.foldlM_cons] at hfinal
    obtain ⟨next, hnext, hrest⟩ := bind_eq_ok_iff.mp hfinal
    rcases ih hrest with hold | ⟨d, k, hmem, hname⟩
    · unfold addParameterName at hnext
      split at hnext
      · rename_i key hfield
        obtain ⟨k, hkey, hinsert⟩ := bind_eq_ok_iff.mp hnext
        cases hinsert
        obtain rfl := eq_atom_of_asKey hkey
        rcases OrderedMap.mem_insert hold with hstart | ⟨hvalue, hsame⟩
        · exact .inl hstart
        · refine .inr ⟨entry.2, k, hvalue ▸ List.mem_cons_self, hfield, ?_⟩
          exact hsame.imp Eq.symm fun hkeys => BEq.symm hkeys.2
      · cases hnext
        exact .inl hold
    · exact .inr ⟨d, k, List.mem_cons_of_mem _ hmem, hname⟩

theorem mem_parameterNames {reg : Registry} {names : ParameterNames}
    (hnames : parameterNames reg = .ok names) {e : Atom × Atom} (he : e ∈ names) :
    ∃ d k, (e.2, d) ∈ reg.parameters ∧ d.field? "name" = some (.atom k) ∧
      Components.Matches k e.1 :=
  (mem_foldlM_addParameterName hnames he).resolve_left nofun

theorem parameterNames_names {reg : Registry} {names : ParameterNames}
    (hnames : parameterNames reg = .ok names) : NamesParameters names reg := by
  intro e he
  obtain ⟨d, _, hmem, _⟩ := mem_parameterNames hnames he
  unfold Registry.parameters Components.bucket OrderedMap.getD at hmem
  cases hget : OrderedMap.get? reg.components (.str "parameters") with
  | none =>
    rw [hget] at hmem
    cases hmem
  | some entries =>
    rw [hget] at hmem
    obtain ⟨k, hbucket, hk⟩ := OrderedMap.mem_of_get? hget
    exact ⟨_, hbucket, .inr hk, _, hmem, .inl rfl⟩

/-- If parameters must be declared, the name of a parameter is that of a definition. -/
theorem parameterName_keeps (hstrict : setup.strict = true) {names : ParameterNames} {route : Route}
    {key : Atom} : (closedness setup.heap.describe).Keeps (NamesParameters names)
      (parameterName setup names route key) fun name reg =>
        reg.components.Names (.str "parameters") name := by
  have hundeclared : (closedness setup.heap.describe).Keeps (NamesParameters names)
      (parameterName.undeclared setup route key) fun name reg =>
        reg.components.Names (.str "parameters") name := by
    unfold parameterName.undeclared
    refine .liftBind fun _ _ => ?_
    rw [hstrict]
    simp only [↓reduceIte]
    exact .liftBind fun _ _ => .throwBind
  unfold parameterName
  cases hget : OrderedMap.get? names key with
  | none => exact hundeclared
  | some name =>
    dsimp only
    split
    · exact hundeclared
    · refine .pure fun reg hnames => ?_
      obtain ⟨_, hmem, _⟩ := OrderedMap.mem_of_get? hget
      exact hnames _ hmem

theorem referenceParameters_keeps (hstrict : setup.strict = true) {names : ParameterNames}
    {route : Route} {container : Value} :
    (closedness setup.heap.describe).Keeps (NamesParameters names)
      (referenceParameters setup names route container)
      fun parameters reg => ∀ v ∈ parameters, Grounds setup.heap.describe v reg := by
  unfold referenceParameters
  split
  · refine .pure fun _ _ v hv => ?_
    cases hv
  · refine .liftBind fun s _ => ?_
    refine Discipline.Keeps.conseq (.mapM (T := fun _ v => Grounds setup.heap.describe v)
      lasts_namesParameters ?_ fun _ _ => Registry.lasts_grounds) (fun _ hp => hp) ?_
    · intro e _
      refine (parameterName_keeps hstrict).bind fun name => .lift fun v reg hv hname => ?_
      obtain ⟨place, what, hplace, hwhat, rfl⟩ := referenceTo_eq_ok_iff.mp hv
      exact Value.refersWithin_reference ⟨_, name, place, what, hname, hplace, hwhat, rfl⟩
    · intro vs reg hall v hv
      obtain ⟨_, _, hgrounds⟩ := forall₂_right hall hv
      exact hgrounds

theorem pathParameters_keeps {params : Value} (hparams : setup.heap.OwnsNoRefs params) :
    (closedness setup.heap.describe).Keeps (fun _ => True) (pathParameters setup params)
      fun parameters reg => ∀ v ∈ parameters, Grounds setup.heap.describe v reg := by
  unfold pathParameters
  split
  · refine .pure fun _ _ v hv => ?_
    cases hv
  · refine .liftBind fun s hs => ?_
    refine (Discipline.Keeps.mapM (T := fun _ o reg => ∀ v, o = some v →
      Grounds setup.heap.describe v reg) (fun _ _ _ _ => trivial) ?_ ?_).bind fun outcomes =>
        .pure fun reg hall v hv => ?_
    · intro e he
      have hnodes : ∀ t, setup.heap.Reaches e.2 t → (setup.heap.view t).OwnsNoRefs := by
        intro t ht
        refine hparams s t hs (.head (.inl ?_) ht)
        simp only [Node.parts, List.mem_append]
        exact .inl (.inl (.inl (.inl (List.mem_map_of_mem he))))
      refine (Registry.compileSchema_keeps hnodes).bind fun r => ?_
      cases r with
      | none =>
        refine .pure fun _ _ _ hv => ?_
        cases hv
      | some schema =>
        refine .liftBind fun definition hdefinition => .pure fun reg hschema v hv => ?_
        cases hv
        have hwithin := (hschema schema rfl).within
        cases schema with
        | map es identity =>
          obtain rfl : es = definition := Except.ok.inj hdefinition
          refine Value.refersWithin_set ?_ (by decide) (Value.refersWithin_remove hwithin)
          have hstart : (Value.ofFields [("name", .atom e.1), ("in", .str "path"),
              ("required", .bool true)]).RefersWithin
                (reg.components.Resolves setup.heap.describe) := by
            refine Value.refersWithin_ofFields ?_
            simp only [List.forall_mem_cons, List.not_mem_nil, false_implies, implies_true, and_true]
            exact ⟨⟨by decide, Value.refersWithin_atom⟩, ⟨by decide, Value.refersWithin_atom⟩,
              ⟨by decide, Value.refersWithin_atom⟩⟩
          split
          · exact Value.refersWithin_set hstart (by decide)
              (Value.refersWithin_getD hwithin Value.refersWithin_atom)
          · exact hstart
        | _ => cases (hschema _ rfl).isMap
    · exact fun _ _ _ _ hgrows hall v hv => (hall v hv).mono fun _ => hgrows.resolves
    · obtain ⟨o, ho, hv⟩ := List.mem_filterMap.mp hv
      obtain ⟨_, _, hgrounds⟩ := forall₂_right hall ho
      exact hgrounds v hv

theorem operationParameters_keeps (hstrict : setup.strict = true) {names : ParameterNames}
    {route : Route} (hparams : setup.heap.OwnsNoRefs route.params) :
    (closedness setup.heap.describe).Keeps (NamesParameters names)
      (operationParameters setup names route)
      fun parameters reg => ∀ v ∈ parameters, Grounds setup.heap.describe v reg := by
  have hlasts : ∀ vs : List Value, (closedness setup.heap.describe).Lasts
      fun reg => ∀ v ∈ vs, Grounds setup.heap.describe v reg :=
    fun vs reg after hgrows hall v hv => Registry.lasts_grounds reg after hgrows (hall v hv)
  unfold operationParameters
  refine ((referenceParameters_keeps hstrict).frame lasts_namesParameters).bind fun headers => ?_
  refine Discipline.Keeps.bind (((referenceParameters_keeps hstrict).carry (hlasts headers)).conseq
    (fun _ hp => hp.symm) fun _ _ hq => hq) fun query => ?_
  have hboth := (pathParameters_keeps hparams).carry (K := fun reg =>
    (∀ v ∈ headers, Grounds setup.heap.describe v reg) ∧
      ∀ v ∈ query, Grounds setup.heap.describe v reg)
    fun reg after hgrows hall =>
      ⟨hlasts headers reg after hgrows hall.1, hlasts query reg after hgrows hall.2⟩
  refine (hboth.conseq (fun _ hp => ⟨hp, trivial⟩) fun _ _ hq => hq).bind fun path => ?_
  refine .pure fun reg hall v hv => ?_
  rcases List.mem_append.mp hv with hv | hv
  · rcases List.mem_append.mp hv with hv | hv
    · exact hall.1.1 v hv
    · exact hall.1.2 v hv
  · exact hall.2 v hv

/-- A mapping all of whose references are to definitions. -/
def GroundsMap (describe : Describe) (v : Value) (reg : Registry) : Prop :=
  v.isMap = true ∧ Grounds describe v reg

theorem lasts_groundsMap {describe : Describe} {v : Value} :
    (closedness describe).Lasts (GroundsMap describe v) :=
  fun reg after hgrows hv => ⟨hv.1, Registry.lasts_grounds reg after hgrows hv.2⟩

/-- Content refers to definitions of its schemas. -/
theorem contentOf_keeps {content : Value} (hP : (closedness setup.heap.describe).Lasts P)
    (hmedia : ∀ m ∈ contentMedia content, setup.heap.OwnsNoRefs m.1 ∧ m.2.RefFree) :
    (closedness setup.heap.describe).Keeps P (contentOf setup content)
      (GroundsMap setup.heap.describe) := by
  unfold contentOf
  refine .liftBind fun entries hentries => ?_
  refine (Discipline.Keeps.mapM (T := fun _ e => GroundsMap setup.heap.describe e.2) hP ?_
    fun _ _ => lasts_groundsMap).bind fun built => .pure fun reg hall => ?_
  · intro e he
    obtain ⟨mime, media⟩ := e
    cases media with
    | mediaType schema examples =>
      have hmem : (schema, examples) ∈ contentMedia content := by
        cases content with
        | map es identity =>
          obtain rfl : es = entries := Except.ok.inj hentries
          exact contentMedia_mem he
        | atom a => cases a <;> cases hentries
        | _ => cases hentries
      obtain ⟨hnodes, hexamples⟩ := hmedia _ hmem
      refine (Registry.nameFor_keeps hnodes).bind fun name => ?_
      refine .liftBind fun target htarget => .pure fun reg hoffers => ⟨rfl, ?_⟩
      obtain ⟨place, what, hplace, hwhat, rfl⟩ := referenceTo_eq_ok_iff.mp htarget
      cases hplace
      have htarget := Value.refersWithin_reference (hoffers what hwhat)
      have hstart : (Value.ofFields [("schema", reference "schemas" what)]).RefersWithin
          (reg.components.Resolves setup.heap.describe) := by
        refine Value.refersWithin_ofFields ?_
        simp only [List.forall_mem_singleton]
        exact ⟨by decide, htarget⟩
      split
      · exact Value.refersWithin_set hstart (by decide) hexamples.within
      · exact hstart
    | _ => exact .throw
  · refine ⟨rfl, Value.refersWithin_maps fun e he => ?_⟩
    obtain ⟨_, _, hgrounds⟩ := forall₂_right hall he
    exact hgrounds

theorem requestBodyOf_keeps {route : Route} {body : RequestBody}
    (hroute : route.OwnsNoRefs setup.heap) (hbody : route.body = some body)
    (hP : (closedness setup.heap.describe).Lasts P) :
    (closedness setup.heap.describe).Keeps P (requestBodyOf setup body)
      (GroundsMap setup.heap.describe) := by
  have htext : ∀ v ∈ [body.description, body.required], v.RefFree := by
    intro v hv
    refine hroute.texts v (List.mem_append_left _ (List.mem_append_right _ ?_))
    rw [hbody]
    exact hv
  refine (contentOf_keeps hP fun m hm => hroute.media m (Route.body_media hbody hm)).bind
    fun content => .pure fun reg hcontent => ⟨rfl, Value.refersWithin_ofFields ?_⟩
  simp only [List.forall_mem_cons, List.not_mem_nil, false_implies, implies_true, and_true] at htext ⊢
  exact ⟨⟨by decide, htext.1.within⟩, ⟨by decide, htext.2.within⟩, by decide, hcontent.2⟩

theorem responsesOf_keeps {route : Route} (hroute : route.OwnsNoRefs setup.heap)
    (hP : (closedness setup.heap.describe).Lasts P) :
    (closedness setup.heap.describe).Keeps P (responsesOf setup route.responses)
      (GroundsMap setup.heap.describe) := by
  unfold responsesOf
  refine (Discipline.Keeps.mapM (T := fun _ e => GroundsMap setup.heap.describe e.2) hP ?_
    fun _ _ => lasts_groundsMap).bind fun built => .pure fun reg hall => ⟨rfl, ?_⟩
  · intro e he
    have htext : e.2.description.RefFree :=
      hroute.texts _ (List.mem_append_right _ (List.mem_map_of_mem he))
    refine (contentOf_keeps hP fun m hm => hroute.media m (Route.response_media he hm)).bind
      fun content => .pure fun reg hcontent => ⟨rfl, Value.refersWithin_ofFields ?_⟩
    simp only [List.forall_mem_cons, List.not_mem_nil, false_implies, implies_true, and_true]
    exact ⟨⟨by decide, htext.within⟩, by decide, hcontent.2⟩
  · refine Value.refersWithin_maps fun e he => ?_
    obtain ⟨e', he', rfl⟩ := List.mem_map.mp he
    obtain ⟨_, _, hgrounds⟩ := forall₂_right hall he'
    exact hgrounds

theorem bodyFields_keeps {route : Route} (hroute : route.OwnsNoRefs setup.heap)
    (hP : (closedness setup.heap.describe).Lasts P) :
    (closedness setup.heap.describe).Keeps P (bodyFields setup route) fun fields reg =>
      ∀ e ∈ fields, e.1 ≠ "$ref" ∧ Grounds setup.heap.describe e.2 reg := by
  unfold bodyFields
  split
  · rename_i body hbody
    refine (requestBodyOf_keeps hroute hbody hP).bind fun v => .pure fun reg hv e he => ?_
    obtain rfl := List.mem_singleton.mp he
    exact ⟨(by decide : "requestBody" ≠ "$ref"), hv.2⟩
  · refine .pure fun _ _ _ he => ?_
    cases he

/-- The operation of a route refers to definitions only. -/
theorem operationOf_keeps (hstrict : setup.strict = true) {names : ParameterNames} {route : Route}
    (hroute : route.OwnsNoRefs setup.heap) :
    (closedness setup.heap.describe).Keeps (NamesParameters names) (operationOf setup names route)
      (GroundsMap setup.heap.describe) := by
  have hparameters : ∀ vs : List Value, (closedness setup.heap.describe).Lasts
      fun reg => ∀ v ∈ vs, Grounds setup.heap.describe v reg :=
    fun vs reg after hgrows hall v hv => Registry.lasts_grounds reg after hgrows (hall v hv)
  have hfields : ∀ fields : List (String × Value), (closedness setup.heap.describe).Lasts
      fun reg => ∀ e ∈ fields, e.1 ≠ "$ref" ∧ Grounds setup.heap.describe e.2 reg :=
    fun fields reg after hgrows hall e he =>
      ⟨(hall e he).1, Registry.lasts_grounds reg after hgrows (hall e he).2⟩
  rw [operationOf_eq]
  refine (operationParameters_keeps hstrict hroute.params).bind fun parameters => ?_
  refine ((bodyFields_keeps hroute (hparameters parameters)).frame (hparameters parameters)).bind
    fun body => ?_
  have hboth : (closedness setup.heap.describe).Lasts fun reg =>
      (∀ v ∈ parameters, Grounds setup.heap.describe v reg) ∧
        ∀ e ∈ body, e.1 ≠ "$ref" ∧ Grounds setup.heap.describe e.2 reg :=
    fun reg after hgrows hall =>
      ⟨hparameters _ reg after hgrows hall.1, hfields _ reg after hgrows hall.2⟩
  refine ((responsesOf_keeps hroute hboth).frame hboth).bind fun responses => .pure ?_
  rintro reg ⟨⟨hparameters, hbody⟩, hresponses⟩
  have htags : (Value.list route.tags).RefFree :=
    Value.refersWithin_list fun v hv =>
      hroute.texts v (List.mem_append_left _ (List.mem_append_left _ (List.mem_cons_of_mem _ hv)))
  have hsummary : route.summary.RefFree :=
    hroute.texts _ (List.mem_append_left _ (List.mem_append_left _ List.mem_cons_self))
  refine ⟨rfl, Value.refersWithin_ofFields fun e he => ?_⟩
  simp only [operationFields, List.mem_append, List.mem_cons, List.not_mem_nil, or_false] at he
  rcases he with ((rfl | rfl | rfl) | he) | rfl
  · exact ⟨(by decide : "tags" ≠ "$ref"), htags.within⟩
  · exact ⟨(by decide : "summary" ≠ "$ref"), hsummary.within⟩
  · exact ⟨(by decide : "parameters" ≠ "$ref"), Value.refersWithin_list hparameters⟩
  · exact hbody e he
  · exact ⟨(by decide : "responses" ≠ "$ref"), hresponses.2⟩

/-! ## The whole document -/

theorem pathsOf_keeps (hstrict : setup.strict = true) {names : ParameterNames} {paths : Paths}
    (hroutes : ∀ p ∈ paths, ∀ m ∈ p.2, m.2.OwnsNoRefs setup.heap) :
    (closedness setup.heap.describe).Keeps (NamesParameters names) (pathsOf setup names paths)
      fun fields reg => ∀ e ∈ fields, GroundsMap setup.heap.describe e.2 reg := by
  unfold pathsOf
  refine Discipline.Keeps.conseq (.mapM (T := fun _ e => GroundsMap setup.heap.describe e.2)
    lasts_namesParameters (fun p hp => ?_) fun _ _ => lasts_groundsMap) (fun _ hn => hn) ?_
  · refine (Discipline.Keeps.mapM (T := fun _ e => GroundsMap setup.heap.describe e.2)
      lasts_namesParameters (fun m hm => ?_) fun _ _ => lasts_groundsMap).bind fun operations =>
        .pure fun reg hall => ⟨rfl, Value.refersWithin_maps fun e he => ?_⟩
    · refine (operationOf_keeps hstrict (hroutes p hp m hm)).bind fun operation => .pure ?_
      exact fun _ hoperation => hoperation
    · obtain ⟨_, _, hgrounds⟩ := forall₂_right hall he
      exact hgrounds
  · intro fields reg hall e he
    obtain ⟨_, _, hgrounds⟩ := forall₂_right hall he
    exact hgrounds

theorem closed_start {describe : Describe} : Registry.Closed describe {} := by
  refine ⟨?_, (fun e he => by cases he), (fun e he => by cases he)⟩
  intro bucket hbucket entry hentry
  simp only [List.mem_cons, List.not_mem_nil, or_false] at hbucket
  rcases hbucket with rfl | rfl <;> cases hentry

/-- The fields of a document with its definitions: none refers to anything else. -/
def DocumentClosed (describe : Describe) (fields : Fields) : Prop :=
  ∃ components : Components,
    OrderedMap.get? fields (.str "components") = some components.toValue ∧
      (Value.ofEntries fields).RefersWithin (components.Resolves describe)

/-- The tag of a source is a list of one mapping. -/
theorem tags_refFree {source : Source} (htag : ∀ v, source.tag = some v → v.RefFree)
    {tags : List Value} (htags : source.tags = .ok tags) : (Value.list tags).RefFree := by
  unfold Source.tags Source.getTag at htags
  cases hsource : source.tag with
  | none =>
    rw [hsource] at htags
    cases htags
  | some v =>
    rw [hsource] at htags
    have hfree := htag v hsource
    cases v with
    | map es identity =>
      dsimp only [bind, Except.bind] at htags
      split at htags
      · cases htags
        refine Value.refersWithin_list fun v hv => ?_
        obtain rfl := List.mem_singleton.mp hv
        exact Value.refersWithin_map_iff.mpr (Value.refersWithin_map_iff.mp hfree)
      · cases htags
    | _ => cases htags

theorem buildWith_keeps (hstrict : setup.strict = true) {source : Source}
    (hsource : source.OwnsNoRefs setup.heap) :
    (closedness setup.heap.describe).Keeps (fun _ => True) (buildWith setup source)
      fun fields _ => DocumentClosed setup.heap.describe fields := by
  unfold buildWith
  refine .liftBind fun schemas hschemas => .liftBind fun parameters hparameters => ?_
  refine (declareSchemas_keeps ?_).bind fun _ => (declareParameters_keeps ?_).bind fun _ => ?_
  · rintro es identity rfl
    exact hsource.schemas es identity (Source.getSchemas_eq_ok_iff.mp hschemas)
  · rintro es identity rfl
    exact hsource.parameters es identity (Source.getParameters_eq_ok_iff.mp hparameters)
  refine .getBind fun reg => .liftBind fun names hnames => .liftBind fun paths hpaths => ?_
  obtain ⟨routes, hroutes, hmem⟩ := Source.route_of_paths hpaths
  have howns : ∀ p ∈ paths, ∀ m ∈ p.2, m.2.OwnsNoRefs setup.heap :=
    fun p hp m hm => hsource.routes routes hroutes m.2 (hmem p hp m hm)
  have hkeeps : (closedness setup.heap.describe).Keeps (NamesParameters names)
      (pathsOf setup names paths) fun fields reg =>
        ∀ e ∈ fields, GroundsMap setup.heap.describe e.2 reg := pathsOf_keeps hstrict howns
  refine Discipline.Keeps.conseq (hkeeps.bind fun built => .getBind fun last => ?_)
    (fun later hlater => ?_) fun _ _ hq => hq
  · rintro later fields after hrun hlater ⟨rfl, hpaths⟩
    obtain ⟨_, mid, hlog, hrun⟩ := runs_bind_iff.mp hrun
    obtain ⟨tags, htags, hrun⟩ := runs_registryLift_bind_iff.mp hrun
    obtain ⟨rfl, rfl⟩ := runs_pure_iff.mp hrun
    obtain ⟨hmid, hgrows, _⟩ := Registry.addLog_keeps (P := fun _ => True) _ _ _ hlog hlater trivial
    refine ⟨hmid, hgrows, later.components, rfl, Value.refersWithin_map_iff.mpr ?_⟩
    simp only [List.forall_mem_cons, List.not_mem_nil, false_implies, implies_true, and_true]
    refine ⟨⟨(tags_refFree hsource.tag htags).within, ?_⟩,
      ⟨Value.refersWithin_maps hpaths, ?_⟩,
      ⟨hlater.components.toValue, ?_⟩⟩
    all_goals
      intro _ t ht
      cases ht
  · rw [hlater.1]
    exact parameterNames_names hnames

/-- Every reference in a document is to a definition of the document, if parameters must be declared
and the source brings no reference of its own. -/
theorem references_resolve {heap : Heap} {env : Environment} {source : Source}
    {strict headerStart : Value} {fields : Fields} {log : Array LogEntry}
    (hstrict : strict.truthy = true) (hsource : source.OwnsNoRefs heap)
    (hbuild : build heap env source strict headerStart = (.ok fields, log)) :
    ∃ components : Components,
      OrderedMap.get? fields (.str "components") = some components.toValue ∧
        ∀ target, (Value.ofEntries fields).Refers target →
          components.Resolves heap.describe target := by
  obtain ⟨setup, reg, rfl, hsetup, hrun⟩ := runs_of_build hbuild
  obtain ⟨_, _, components, hcomponents, hwithin⟩ :=
    buildWith_keeps (hsetup hstrict) hsource _ _ _ hrun closed_start trivial
  exact ⟨components, hcomponents, hwithin⟩

theorem petSource_ownsNoRefs : petSource.OwnsNoRefs petHeap := by
  have hnodes : ∀ v, petHeap.OwnsNoRefs v := by
    refine Heap.ownsNoRefs_of_nodes ?_
    simp only [petHeap, List.mem_toArray, List.forall_mem_cons, List.not_mem_nil, false_implies,
      implies_true, and_true]
    refine ⟨⟨rfl, fun _ hv => by cases hv⟩, ⟨rfl, ?_⟩⟩
    intro v hv
    obtain rfl : v = .str "Pet" := List.mem_singleton.mp hv
    exact Value.refersWithin_atom
  refine ⟨fun _ _ _ _ _ => hnodes _, fun _ _ _ _ _ => hnodes _, ?_, ?_⟩
  · intro v hv
    cases hv
    exact Value.refersWithin_ofFields (by simpa using Value.refersWithin_atom)
  · intro routes hroutes r hr
    rw [petSource_routes] at hroutes
    cases hroutes
    obtain rfl := List.mem_singleton.mp hr
    refine ⟨hnodes _, ?_, ?_⟩
    · intro m hm
      obtain rfl : m = (.node 1, .null) := List.mem_singleton.mp hm
      exact ⟨hnodes _, Value.refersWithin_atom⟩
    · intro v hv
      have hatom : ∃ a, v = .atom a := by
        simp only [Route.texts, petRoute, List.mem_append, List.mem_cons, Option.map_some,
          Option.getD_some, List.map_nil, List.not_mem_nil, or_false] at hv
        rcases hv with (rfl | rfl) | rfl | rfl <;> exact ⟨_, rfl⟩
      obtain ⟨a, rfl⟩ := hatom
      exact Value.refersWithin_atom

theorem references_resolve_pets : (Value.bool true).truthy = true ∧ petSource.OwnsNoRefs petHeap ∧
    ∃ fields log, build petHeap [] petSource (.bool true) .null = (.ok fields, log) ∧
      ∃ components : Components,
        OrderedMap.get? fields (.str "components") = some components.toValue ∧
          ∀ target, (Value.ofEntries fields).Refers target →
            components.Resolves petHeap.describe target := by
  have hok : (build petHeap [] petSource (.bool true) .null).1.isOk = true := by rfl
  cases hbuild : build petHeap [] petSource (.bool true) .null with
  | mk outcome log =>
    rw [hbuild] at hok
    cases outcome with
    | error fault => cases hok
    | ok fields =>
      refine ⟨rfl, petSource_ownsNoRefs, fields, log, rfl, ?_⟩
      exact references_resolve rfl petSource_ownsNoRefs hbuild

end Spec

end WireShape
