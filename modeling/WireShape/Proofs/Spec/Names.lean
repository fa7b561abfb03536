import WireShape.Proofs.Registry.Shapes
import WireShape.Proofs.Spec.Build
import WireShape.Proofs.Spec.References

/-!
# The names of bodies and responses

A body or a response refers to its schema by a name, which was found by identity, read off a
reference, found by shape or taken from a label. Against the definitions of the finished document
the schema compiles to the reference of that name, or to a schema of the shape of its definition.

* `Source.Regular`: sources none of whose schemas is both a class and forbidden.
* `Components.Answers`: a name is right for a schema.
* `Spec.media_names_sound`: all names in a document are right, and a name stands for one shape.
-/

namespace WireShape

open Value (Fields)

/-! ## Sources and names -/

namespace Source

/-- The values of a source that get a name: declared schemas, and those of bodies and responses. -/
inductive Supplies (describe : Describe) (source : Source) : Value → Prop
  | schema {es : Fields} {identity : Option Nat} {e : Atom × Value}
      (hschemas : source.schemas = some (.map es identity)) (he : e ∈ es) :
      Supplies describe source e.2
  | media {routes : List Route} {r : Route} {m : Value × Value}
      (hroutes : source.getRoutes describe = .ok routes) (hr : r ∈ routes) (hm : m ∈ r.media) :
      Supplies describe source m.1

/-- A source none of whose schemas is both a class and forbidden. That a mapping has no key twice
and that an identity is that of one value is part of what mappings and identities are. -/
structure Regular (h : Heap) (source : Source) : Prop where
  keys : ∀ es identity, source.schemas = some (.map es identity) → OrderedMap.Separate es
  one : ∀ v w, source.Supplies h.describe v → source.Supplies h.describe w →
    v.identity?.isSome = true → v.identity? = w.identity? → v = w
  classes : ∀ v, source.Supplies h.describe v → h.NoForbiddenClassIn v

end Source

/-- A name is right for a value: against these definitions the value compiles to the reference of
that name, or to a schema of the shape of the definition under that name. -/
def Components.Answers (h : Heap) (components : Components) (v : Value) (name : Atom) : Prop :=
  ∃ compiled, (h.compileAgainst components v).1 = .ok (some compiled) ∧
    ((∃ what, name = .str what ∧ compiled.schema.same (reference "schemas" what) = true) ∨
      ∃ k d shape, (k, d) ∈ components.bucket (.str "schemas") ∧ Components.Matches k name ∧
        Json.canonical h.describe compiled.schema = .ok shape ∧
        Json.canonical h.describe d = .ok shape)

namespace Registry

/-- Registries whose names are right and that lose no definition. -/
def soundness (h : Heap) (V : Value → Prop) : Discipline where
  Inv := Registry.Sound h V
  Grows := Registry.Sustains
  refl _ := .refl
  trans := .trans

variable {h : Heap} {V : Value → Prop} {P : Registry → Prop}

theorem Answers.components {reg : Registry} {v : Value} {name : Atom}
    (hanswers : reg.Answers h v name) : reg.components.Answers h v name := by
  obtain ⟨schema, hyields, hright⟩ := hanswers
  obtain ⟨ctx, hrun⟩ := hyields reg.components fun _ _ hn => hn
  refine ⟨⟨schema, ctx.created⟩, ?_, hright.imp_right ?_⟩
  · have heq : h.compile v { known := reg.components } = (.ok (some schema), ctx) := hrun
    unfold Heap.compileAgainst
    rw [heq]
    rfl
  · rintro ⟨shape, hcanonical, d, ⟨_, k, hmem, hk⟩, hd⟩
    exact ⟨k, d, shape, hmem, hk, hcanonical, hd⟩

theorem nameFor_sound {v : Value} (hv : V v) (hclass : h.NoForbiddenClassIn v)
    (hone : ∀ w, V w → w.identity?.isSome = true → w.identity? = v.identity? → w = v) :
    (soundness h V).Keeps P (nameFor h v) fun name reg => reg.Answers h v name :=
  fun _ _ _ hrun hreg _ => (runs_nameFor hrun).sound hreg hv hclass hone

theorem runWalk_sound {walk : Walk Compiled} :
    (soundness h V).Keeps P (runWalk h walk) fun _ _ => True := by
  intro reg r after hrun hreg _
  obtain ⟨hafter, hgrows, _⟩ := (runs_runWalk hrun).sound hreg
  exact ⟨hafter, hgrows, trivial⟩

theorem addLogFrom_sound {level : LogLevel} {message : Except Fault String} :
    (soundness h V).Keeps P (addLogFrom level message) fun _ _ => True := by
  intro reg _ after hrun hreg _
  have hsame := runs_addLogFrom hrun
  exact ⟨hsame.sound hreg, .of_components hsame.components, trivial⟩

theorem addLog_sound {level : LogLevel} {message : String} :
    (soundness h V).Keeps P (addLog level message) fun _ _ => True :=
  @addLogFrom_sound _ _ _ level (.ok message)

/-- Parameters stand in a bucket of their own. -/
theorem registerParameter_sound {name : Atom} {parameter : Value} :
    (soundness h V).Keeps P (registerParameter name parameter) fun _ _ => True := by
  intro reg _ after hrun hreg _
  obtain rfl := runs_define_iff.mp hrun
  have hschemas : Registry.schemas { reg with
      components := reg.components.define (.str "parameters") name parameter } = reg.schemas := by
    rw [schemas_define rfl]
    rfl
  have hgrows : reg.Sustains { reg with
      components := reg.components.define (.str "parameters") name parameter } := by
    refine ⟨contains_of_define rfl, fun n d hd => ?_⟩
    rw [Stands, hschemas]
    exact hd
  exact ⟨hgrows.sound hreg (hschemas ▸ hreg.separate) rfl rfl, hgrows, trivial⟩

theorem buildParameter_sound {v headerStart : Value} :
    (soundness h V).Keeps P (buildParameter h v headerStart) fun _ _ => True :=
  (Discipline.Keeps.compositional.buildParameter runWalk_sound fun _ _ => addLogFrom_sound).conseq
    (fun _ _ => trivial) fun _ _ hq => hq

end Registry

namespace Spec

open Registry (soundness)

variable {setup : Setup} {V : Value → Prop} {P : Registry → Prop}

/-! ## Declarations -/

/-- Schemas are declared under names that are all different. -/
theorem declareEntries_sound {es : Fields} {reg after : Registry} {i : Unit}
    (hrun : Runs (es.forM fun e => do discard <| Registry.declare setup.heap e.1 e.2) reg i after)
    (hseparate : OrderedMap.Separate es)
    (hV : ∀ e ∈ es, V e.2 ∧ setup.heap.NoForbiddenClassIn e.2) (hreg : reg.Sound setup.heap V)
    (hnew : ∀ n, reg.Given n → ∀ e ∈ es, (n == e.1) = false) : after.Sound setup.heap V := by
  induction es generalizing reg with
  | nil =>
    obtain ⟨_, rfl⟩ := runs_pure_iff.mp hrun
    exact hreg
  | cons e es ih =>
    rw [List.forM_eq_forM, List.forM_cons, ← List.forM_eq_forM] at hrun
    obtain ⟨_, mid, hdeclare, hrest⟩ := runs_bind_iff.mp hrun
    obtain ⟨_, mid', hdeclare, hlast⟩ := runs_bind_iff.mp hdeclare
    obtain ⟨_, rfl⟩ := runs_pure_iff.mp hlast
    obtain ⟨hhead, htail⟩ := List.pairwise_cons.mp hseparate
    obtain ⟨hv, hclass⟩ := hV e List.mem_cons_self
    obtain ⟨hmid, hgiven⟩ := (Registry.runs_declare hdeclare).sound hreg hv hclass
      fun n hn => hnew n hn e List.mem_cons_self
    refine ih hrest htail (fun e' he' => hV e' (List.mem_cons_of_mem _ he')) hmid ?_
    intro n hn e' he'
    rcases hgiven n hn with hold | rfl
    · exact hnew n hold e' (List.mem_cons_of_mem _ he')
    · exact hhead e' he'

theorem sound_start : Registry.Sound setup.heap V {} := by
  refine ⟨List.Pairwise.nil, (fun e he => by cases he), (fun e he => by cases he)⟩

theorem sustains_start {reg : Registry} : Registry.Sustains {} reg := by
  have hempty : ∀ b, Components.bucket [(.str "schemas", []), (.str "parameters", [])] b = [] := by
    intro b
    rw [Components.bucket, OrderedMap.getD, OrderedMap.get?_cons, OrderedMap.get?_cons]
    split
    · rfl
    · split <;> rfl
  refine ⟨fun b n hn => ?_, ?_⟩
  · have hnone : OrderedMap.contains
        (Components.bucket [(.str "schemas", []), (.str "parameters", [])] b) n = true := hn
    rw [hempty] at hnone
    cases hnone
  · rintro n d ⟨_, k, hmem, _⟩
    cases hmem

theorem declareSchemas_sound {schemas : Value}
    (hkeys : ∀ es identity, schemas = .map es identity → OrderedMap.Separate es)
    (hV : ∀ es identity, schemas = .map es identity →
      ∀ e ∈ es, V e.2 ∧ setup.heap.NoForbiddenClassIn e.2) :
    (soundness setup.heap V).Keeps (fun reg => reg = {}) (declareSchemas setup schemas)
      fun _ _ => True := by
  refine keeps_entries fun es hes => ?_
  rintro reg i after hrun hreg rfl
  refine ⟨declareEntries_sound hrun ?_ ?_ hreg ?_, sustains_start, trivial⟩
  · rcases hes with rfl | ⟨identity, rfl⟩
    · exact List.Pairwise.nil
    · exact hkeys es identity rfl
  · rcases hes with rfl | ⟨identity, rfl⟩
    · exact fun e he => by cases he
    · exact hV es identity rfl
  · rintro n (⟨e, he, _⟩ | ⟨e, he, _⟩) <;> cases he

theorem declareParameters_sound {parameters : Value} :
    (soundness setup.heap V).Keeps P (declareParameters setup parameters) fun _ _ => True := by
  refine Discipline.Keeps.conseq (P := fun _ => True) (keeps_entries fun es _ => ?_)
    (fun _ _ => trivial) fun _ _ hq => hq
  refine .forM (fun _ _ _ _ => trivial) fun e _ => ?_
  refine Registry.buildParameter_sound.bind fun r => ?_
  cases r with
  | none => exact .pure fun _ _ => trivial
  | some parameter => exact Registry.registerParameter_sound

/-! ## The whole document -/

/-- Names for the schemas of all bodies and responses, as the fields of a document have them. -/
def RightNames (h : Heap) (source : Source) (fields : Fields) (paths : Paths)
    (components : Components) (names : List Atom) : Prop :=
  source.paths h.describe = .ok paths ∧
    OrderedMap.get? fields (.str "components") = some components.toValue ∧
    List.Forall₂ (fun name target => referenceTo h.describe (.str "schemas") name = .ok target) names
      (targets fields) ∧
    List.Forall₂ (fun m name => components.Answers h m.1 name) paths.media names

/-- The steps of a build keep names right, and the names that they give are right. -/
theorem builds_sound {source : Source} (hsource : source.Regular setup.heap) :
    Builds setup source (soundness setup.heap (source.Supplies setup.heap.describe))
      fun v name reg => reg.Answers setup.heap v name where
  lasts _ _ _ _ hgrows hanswers := Registry.Sustains.answers hgrows hanswers
  schemas v hv := by
    refine declareSchemas_sound ?_ ?_
    · rintro es identity rfl
      exact hsource.keys es identity hv
    · rintro es identity rfl e he
      exact ⟨.schema hv he, hsource.classes _ (.schema hv he)⟩
  parameters _ _ := declareParameters_sound
  walks _ _ := Registry.runWalk_sound
  names v := by
    rintro ⟨routes, hroutes, r, hr, m, hm, rfl⟩
    have hsupplied : source.Supplies setup.heap.describe m.1 := .media hroutes hr hm
    exact Registry.nameFor_sound hsupplied (hsource.classes _ hsupplied) fun w hw hid heq =>
      hsource.one w m.1 hw hsupplied hid heq
  logs _ _ := Registry.addLog_sound

theorem buildWith_sound {source : Source} (hsource : source.Regular setup.heap) :
    (soundness setup.heap (source.Supplies setup.heap.describe)).Keeps (fun reg => reg = {})
      (buildWith setup source) fun fields _ => ∃ paths components names,
        RightNames setup.heap source fields paths components names ∧
          OrderedMap.Separate (components.bucket (.str "schemas")) := by
  intro reg fields after hrun hreg hstart
  obtain ⟨hafter, hgrows, paths, names, hpaths, hcomponents, htargets, hnames⟩ :=
    (builds_sound hsource).buildWith _ _ _ hrun hreg hstart
  refine ⟨hafter, hgrows, paths, after.components, names, ⟨hpaths, hcomponents, htargets, ?_⟩,
    hafter.separate⟩
  exact hnames.imp fun _ _ hanswers => hanswers.components

/-- Two schemas under one name that are no references have one shape, whatever they are compiled
to. -/
theorem Answers.one_shape {h : Heap} {components : Components} {v w : Value} {name other : Atom}
    {c c' : CompiledSchema} (hseparate : OrderedMap.Separate (components.bucket (.str "schemas")))
    (hname : (name == other) = true) (hv : components.Answers h v name)
    (hw : components.Answers h w other) (hc : (h.compileAgainst components v).1 = .ok (some c))
    (hc' : (h.compileAgainst components w).1 = .ok (some c'))
    (hplain : ∀ what, c.schema.same (reference "schemas" what) = false)
    (hplain' : ∀ what, c'.schema.same (reference "schemas" what) = false) :
    Json.canonical h.describe c.schema = Json.canonical h.describe c'.schema := by
  obtain ⟨found, hfound, hright⟩ := hv
  obtain ⟨found', hfound', hright'⟩ := hw
  rw [hfound] at hc
  rw [hfound'] at hc'
  cases hc
  cases hc'
  rcases hright with ⟨what, _, href⟩ | ⟨k, d, shape, hmem, hk, hshape, hd⟩
  · exact absurd href (by rw [hplain what]; exact Bool.false_ne_true)
  rcases hright' with ⟨what, _, href⟩ | ⟨k', d', shape', hmem', hk', hshape', hd'⟩
  · exact absurd href (by rw [hplain' what]; exact Bool.false_ne_true)
  -- The keys of both definitions are the same, so it is one definition.
  have hkey : (k == other) = true := by
    rcases hk with rfl | hk
    · exact hname
    · exact BEq.trans hk hname
  have hkey' : (k' == other) = true := by
    rcases hk' with rfl | hk'
    · exact BEq.trans (BEq.symm hname) hname
    · exact hk'
  have hget : some d = some d' := (hseparate.get? hmem hkey).symm.trans (hseparate.get? hmem' hkey')
  cases hget
  rw [hshape, hshape', ← hd, ← hd']

/-- Every body and every response refers to its schema by a name that is right for it: against the
definitions of the document the schema compiles to the reference of that name, or to a schema of the
shape of its definition. So schemas of two shapes never get one name. -/
theorem media_names_sound {heap : Heap} {env : Environment} {source : Source}
    {strict headerStart : Value} {fields : Fields} {log : Array LogEntry}
    (hsource : source.Regular heap)
    (hbuild : build heap env source strict headerStart = (.ok fields, log)) :
    ∃ paths components names, RightNames heap source fields paths components names ∧
      ∀ p ∈ paths.media.zip names, ∀ q ∈ paths.media.zip names, (p.2 == q.2) = true →
        ∀ c c', (heap.compileAgainst components p.1.1).1 = .ok (some c) →
          (heap.compileAgainst components q.1.1).1 = .ok (some c') →
          (∀ what, c.schema.same (reference "schemas" what) = false) →
          (∀ what, c'.schema.same (reference "schemas" what) = false) →
          Json.canonical heap.describe c.schema = Json.canonical heap.describe c'.schema := by
  obtain ⟨setup, reg, rfl, _, hrun⟩ := runs_of_build hbuild
  obtain ⟨_, _, paths, components, names, hright, hseparate⟩ :=
    buildWith_sound hsource _ _ _ hrun sound_start rfl
  refine ⟨paths, components, names, hright, ?_⟩
  have hanswers : ∀ p ∈ paths.media.zip names, components.Answers setup.heap p.1.1 p.2 :=
    fun p hp => (List.forall₂_zip hright.2.2.2 hp)
  intro p hp q hq hname c c' hc hc' hplain hplain'
  exact Answers.one_shape hseparate hname (hanswers p hp) (hanswers q hq) hc hc' hplain hplain'

theorem petSource_regular : petSource.Regular petHeap := by
  have hone : ∀ v, petSource.Supplies petHeap.describe v → v = .node 1 := by
    rintro v (⟨hschemas, he⟩ | ⟨hroutes, hr, hm⟩)
    · cases hschemas
      cases he
    · rw [petSource_routes] at hroutes
      cases hroutes
      obtain rfl := List.mem_singleton.mp hr
      obtain rfl := List.mem_singleton.mp hm
      rfl
  refine ⟨?_, fun v w hv hw _ _ => (hone v hv).trans (hone w hw).symm, fun v _ => ?_⟩
  · rintro es identity hschemas
    cases hschemas
    exact List.Pairwise.nil
  · refine Heap.noForbiddenClass_of_nodes ?_ v
    simp only [petHeap, List.mem_toArray, List.forall_mem_cons, List.not_mem_nil, false_implies,
      implies_true, and_true]
    exact ⟨fun _ => rfl, fun _ => rfl⟩

theorem media_names_sound_pets : petSource.Regular petHeap ∧
    ∃ fields log, build petHeap [] petSource .null .null = (.ok fields, log) ∧
      ∃ paths components names, RightNames petHeap petSource fields paths components names ∧
        ∀ p ∈ paths.media.zip names, ∀ q ∈ paths.media.zip names, (p.2 == q.2) = true →
          ∀ c c', (petHeap.compileAgainst components p.1.1).1 = .ok (some c) →
            (petHeap.compileAgainst components q.1.1).1 = .ok (some c') →
            (∀ what, c.schema.same (reference "schemas" what) = false) →
            (∀ what, c'.schema.same (reference "schemas" what) = false) →
            Json.canonical petHeap.describe c.schema = Json.canonical petHeap.describe c'.schema := by
  have hok : (build petHeap [] petSource .null .null).1.isOk = true := by rfl
  cases hbuild : build petHeap [] petSource .null .null with
  | mk outcome log =>
    rw [hbuild] at hok
    cases outcome with
    | error fault => cases hok
    | ok fields =>
      exact ⟨petSource_regular, fields, log, rfl, media_names_sound petSource_regular hbuild⟩

end Spec

end WireShape
