import WireShape.Container
import WireShape.Proofs.Compile.Bound
import WireShape.Proofs.Meaning.Accepted

/-!
# Containers of plain nodes

A plain node never stands below itself, so its walk enters each node once on a path and succeeds at
the depth to which walks are run. It defines nothing, and its outcome says what the node says. The
container checks data against the checked form of this schema: it reports nothing about data that
the node admits, and some message about all others.

* `Heap.Renders`: fields that say what a plain node says.
* `Heap.Plain.runs`: the walk from a plain node.
* `Container.error_of_plain`: the container of a plain node reports what the node does not admit.
-/

namespace WireShape

open Value (Fields IsJson)
open NullTypes (expand)

/-! ## Schemas of plain nodes -/

/-- Fields that say what a plain node says, with parts that mean what the parts of the node mean. -/
def Heap.Renders (h : Heap) (s : Schema) (fields : Fields) : Prop :=
  ∃ item item' : Option Value, ∃ properties properties' : Option Fields,
    h.Describes (h.view s) item properties (Value.null.isIn (h.view s).valids) fields ∧
      Option.Rel (fun v w => expand v = .ok w) item item' ∧
        Option.Rel (fun ps qs => expand (.ofEntries ps) = .ok (.ofEntries qs)) properties
          properties' ∧ h.PartsAccepting (h.view s) item' properties'

namespace Heap.Renders

variable {h : Heap} {s : Schema} {fields : Fields}

theorem means (hs : h.Plain s) (hfields : h.Renders s fields) : h.Means s (.ofEntries fields) := by
  obtain ⟨_, _, _, _, hdescribes, hitem, hproperties, hparts⟩ := hfields
  exact hs.means hdescribes rfl hitem hproperties hparts

/-- What stands under a name that is no keyword does not matter. -/
theorem set {name : String} {v : Value} (hfields : h.Renders s fields)
    (hname : Keyword.ofName? name = none) (hmark : name ≠ "nullable") (hv : NullTypes.Expands v) :
    h.Renders s (fields.set name v) := by
  obtain ⟨item, item', properties, properties', hdescribes, hitem, hproperties, hparts⟩ := hfields
  refine ⟨item, item', properties, properties', ⟨hdescribes.toReady.set hv, fun kw => ?_, ?_⟩, hitem,
    hproperties, hparts⟩
  · rw [get?_set_of_ne]
    · exact hdescribes.keyword kw
    · rintro rfl
      rw [Keyword.ofName?_name] at hname
      cases hname
  · rw [get?_set_of_ne hmark]
    exact hdescribes.mark

end Heap.Renders

/-! ## Nodes below plain nodes -/

namespace Heap.Plain

variable {h : Heap} {s t : Schema}

theorem bare (hs : h.Plain s) : ∃ parts, (h.view s).Bare parts ∧ ∀ t ∈ parts, h.Plain t := by
  cases hs with
  | string _ hbare => exact ⟨[], hbare, fun _ ht => by cases ht⟩
  | number _ hbare => exact ⟨[], hbare, fun _ ht => by cases ht⟩
  | boolean _ hbare => exact ⟨[], hbare, fun _ ht => by cases ht⟩
  | array _ hbare _ _ _ _ ht =>
    refine ⟨_, hbare, fun t' ht' => ?_⟩
    obtain rfl := List.mem_singleton.mp ht'
    exact ht
  | object _ hbare _ _ _ _ hchildren =>
    refine ⟨_, hbare, fun t ht => ?_⟩
    obtain ⟨c, hc, rfl⟩ := List.mem_map.mp ht
    exact hchildren c hc

theorem metaValue (hs : h.Plain s) (name : String) : (h.view s).metaValue name = .null := by
  obtain ⟨_, hbare, _⟩ := hs.bare
  unfold Node.metaValue
  rw [hbare.metadata]
  rfl

theorem mem_parts_of_holds (hs : h.Plain s) (ht : h.Holds s t) : t ∈ (h.view s).parts := by
  rcases ht with ht | ht
  · exact ht
  · unfold Node.override at ht
    rw [hs.metaValue] at ht
    cases ht

theorem class?_eq (hs : h.Plain s) : (h.view s).class? = .ok none := by
  unfold Node.class? Node.className
  rw [hs.metaValue]
  rfl

theorem override_isNull (hs : h.Plain s) : (h.view s).override.isNull = true := by
  unfold Node.override
  rw [hs.metaValue]
  rfl

theorem isLiteral_eq (hs : h.Plain s) : (h.view s).isLiteral = false := by
  unfold Node.isLiteral Node.literal
  rw [hs.metaValue]
  rfl

theorem kind?_eq (hs : h.Plain s) : (h.view s).kind? = Kind.ofName? (h.view s).kind := by
  unfold Node.kind? Node.baseKind
  rw [hs.metaValue]
  rfl

/-- A plain node does not stand below itself. -/
theorem acyclic (hs : h.Plain s) : ¬ Relation.TransGen h.Holds s s := by
  have hstep : ∀ {s : Schema} {parts : List Schema}, h.Plain s → (h.view s).Bare parts →
      (∀ t ∈ parts, ¬ Relation.TransGen h.Holds t t) → ¬ Relation.TransGen h.Holds s s := by
    intro s parts hs hbare hparts hloop
    obtain ⟨t, hst, hts⟩ := Relation.TransGen.head'_iff.mp hloop
    have hmem : t ∈ parts := hbare.parts ▸ hs.mem_parts_of_holds hst
    exact hparts t hmem (Relation.TransGen.tail' hts hst)
  induction hs with
  | string hkind hbare hrules hvalues =>
    exact hstep (.string hkind hbare hrules hvalues) hbare fun _ ht => by cases ht
  | number hkind hbare hinteger hrules hvalues =>
    exact hstep (.number hkind hbare hinteger hrules hvalues) hbare fun _ ht => by cases ht
  | boolean hkind hbare hvalues =>
    exact hstep (.boolean hkind hbare hvalues) hbare fun _ ht => by cases ht
  | array hkind hbare hitems hrules hvalues hallowed ht ih =>
    refine hstep (.array hkind hbare hitems hrules hvalues hallowed ht) hbare fun t' ht' => ?_
    obtain rfl := List.mem_singleton.mp ht'
    exact ih
  | object hkind hbare hseparate hkeys hvalues hallowed hchildren ih =>
    refine hstep (.object hkind hbare hseparate hkeys hvalues hallowed hchildren) hbare
      fun t ht => ?_
    obtain ⟨c, hc, rfl⟩ := List.mem_map.mp ht
    exact ih c hc

end Heap.Plain

/-! ## The walk -/

/-- No node of the path stands at or below a position. -/
def Context.Avoids (ctx : Context) (h : Heap) (s : Schema) : Prop :=
  ∀ id, ctx.active.contains id = true → ¬ h.Reaches s (.node id)

namespace Context

variable {ctx : Context} {h : Heap} {s t : Schema}

theorem Avoids.fresh (hctx : ctx.Avoids h s) : ctx.Fresh s := by
  cases s with
  | node id => exact Bool.eq_false_iff.mpr fun hin => hctx id hin .refl
  | object => trivial

theorem Avoids.below (hctx : ctx.Avoids h s) (hs : h.Plain s) (ht : h.Holds s t) :
    (ctx.enterAt s).Avoids h t := by
  intro id hin hreaches
  cases s with
  | object => exact hctx id hin (.head ht hreaches)
  | node id' =>
    have hin' : (id' :: ctx.active).contains id = true := hin
    rw [List.contains_cons, Bool.or_eq_true, beq_iff_eq] at hin'
    rcases hin' with rfl | hin'
    · exact hs.acyclic (Relation.TransGen.head' ht hreaches)
    · exact hctx id hin' (.head ht hreaches)

theorem leaveAt_enterAt : (ctx.enterAt s).leaveAt s = ctx := by
  cases s with
  | object => rfl
  | node id =>
    change { ctx with active := (id :: ctx.active).erase id } = ctx
    rw [List.erase_cons_head]

end Context

section Walk

variable {h : Heap} {s : Schema} {ctx : Context} {depth : Nat}

/-- Calls that leave the state as it is can be made one after the other. -/
theorem chain_of_runs {P : Schema → Compiled → Prop} {ts : List Schema}
    (hts : ∀ t ∈ ts, ∃ r, Runs (compileWithin h depth t false) ctx r ctx ∧ P t r) :
    ∃ outcomes, Chain (fun t => Runs (compileWithin h depth t false)) ts ctx outcomes ctx ∧
      List.Forall₂ P ts outcomes := by
  induction ts with
  | nil => exact ⟨[], .nil, .nil⟩
  | cons t ts ih =>
    obtain ⟨r, hr, hP⟩ := hts t List.mem_cons_self
    obtain ⟨outcomes, hchain, hall⟩ := ih fun t' ht' => hts t' (List.mem_cons_of_mem _ ht')
    exact ⟨r :: outcomes, .cons hr hchain, .cons hP hall⟩

/-- A node that holds nothing but children and items has no open part and no conditions. -/
theorem Node.Bare.rest {n : Node} {parts : List Schema} (hbare : n.Bare parts)
    (hlength : parts.length = n.children.length + n.items.length) :
    n.openPart? = none ∧ n.whenParts = [] := by
  have hparts := congrArg List.length hbare.parts
  unfold Node.parts at hparts
  simp only [List.length_append, List.length_map, Option.length_toList, hlength] at hparts
  constructor
  · have hnone : n.keyPattern = none := by
      cases hpattern : n.keyPattern with
      | none => rfl
      | some => 
        rw [hpattern] at hparts
        simp at hparts
        omega
    unfold openPart?
    rw [hnone]
    exact ite_self _
  · refine List.eq_nil_of_length_eq_zero ?_
    unfold whenParts
    omega

namespace Heap.Plain

/-- A plain node is compiled by putting together the outcomes of its parts. -/
theorem runs_step (hs : h.Plain s) (hallowed : (h.view s).isForbidden = false)
    (hctx : ctx.Avoids h s) {kind : Kind} {outcomes : List Compiled} {own : Fields}
    (hkind : (h.view s).kind? = some kind) (hwhens : (h.view s).whenParts = [])
    (hparts : Chain (fun t => Runs (compileWithin h depth t false)) (kind.parts (h.view s))
      (ctx.enterAt s) outcomes (ctx.enterAt s))
    (hown : kind.fields h (h.view s) outcomes = .ok own) :
    Runs (compileWithin h (depth + 1) s false) ctx
      (some (.ofEntries (annotate (h.view s) own))) ctx := by
  have hfields : (h.view s).assemble h kind outcomes [] = .ok (annotate (h.view s) own) := by
    have hconditional : whenFields h (h.view s) [] = .ok [] := by
      unfold whenFields
      rw [hwhens]
      rfl
    refine bind_eq_ok_iff.mpr ⟨own, hown, bind_eq_ok_iff.mpr ⟨[], hconditional, ?_⟩⟩
    unfold Node.addLiteral Node.literal
    rw [hs.metaValue]
    rfl
  have hfinish : Finish h (.ofEntries (annotate (h.view s) own)) ((ctx.enterAt s).leaveAt s) none
      (some (.ofEntries (annotate (h.view s) own))) ctx := by
    rw [Context.leaveAt_enterAt]
    exact .plain
  refine runs_compileStep_iff.mpr (.compiled hs.override_isNull hs.isLiteral_eq hs.class?_eq
    (fun _ hkey => by cases hkey) hallowed hctx.fresh hkind hparts ?_ hfields hfinish)
  rw [hwhens]
  exact .nil

/-- A forbidden node gives nothing. -/
theorem runs_forbidden (hs : h.Plain s) (hforbidden : (h.view s).isForbidden = true) :
    Runs (compileWithin h (depth + 1) s false) ctx none ctx :=
  runs_compileStep_iff.mpr (.forbidden hs.override_isNull hs.isLiteral_eq hs.class?_eq
    (fun _ hkey => by cases hkey) hforbidden)

/-- The outcome of a plain node: nothing if it is forbidden, else a schema that says what it says. -/
def Outcome (h : Heap) (s : Schema) (r : Compiled) : Prop :=
  if (h.view s).isForbidden = true then r = none
  else ∃ fields, r = some (.ofEntries fields) ∧ h.Renders s fields

/-- The walk from a plain node, once the fields that its kind gives are known. -/
theorem runs_of_own (hs : h.Plain s) (hctx : ctx.Avoids h s) {kind : Kind}
    {outcomes : List Compiled} {own : Fields} (hkind : (h.view s).kind? = some kind)
    (hwhens : (h.view s).whenParts = [])
    (hparts : Chain (fun t => Runs (compileWithin h depth t false)) (kind.parts (h.view s))
      (ctx.enterAt s) outcomes (ctx.enterAt s))
    (hown : kind.fields h (h.view s) outcomes = .ok own) {item item' : Option Value}
    {properties properties' : Option Fields}
    (hdescribes : h.Describes (h.view s) item properties false own)
    (hitem : Option.Rel (fun v w => expand v = .ok w) item item')
    (hproperties : Option.Rel (fun ps qs => expand (.ofEntries ps) = .ok (.ofEntries qs)) properties
      properties') (haccepting : h.PartsAccepting (h.view s) item' properties') :
    ∃ r, Runs (compileWithin h (depth + 1) s false) ctx r ctx ∧ Outcome h s r := by
  obtain ⟨parts, hbare, _⟩ := hs.bare
  unfold Outcome
  cases hforbidden : (h.view s).isForbidden with
  | true => exact ⟨none, hs.runs_forbidden hforbidden, by rw [if_pos rfl]⟩
  | false =>
    refine ⟨_, hs.runs_step hforbidden hctx hkind hwhens hparts hown, ?_⟩
    rw [if_neg Bool.false_ne_true]
    exact ⟨_, rfl, item, item', properties, properties', annotate_describes hbare hdescribes, hitem,
      hproperties, haccepting⟩

theorem scalar_length {n : Node} (hbare : n.Bare []) :
    ([] : List Schema).length = n.children.length + n.items.length := by
  have hlength := congrArg List.length hbare.parts
  unfold Node.parts at hlength
  simp only [List.length_append, List.length_map, List.length_nil] at hlength
  rw [List.length_nil]
  omega

/-- A node without parts has nothing for which schemas could stand. -/
theorem partsAccepting_of_bare (hbare : (h.view s).Bare []) :
    h.PartsAccepting (h.view s) none none := by
  have hitems : (h.view s).items = [] := by
    have hparts := hbare.parts
    unfold Node.parts at hparts
    simp only [List.append_eq_nil_iff] at hparts
    exact hparts.1.1.2
  refine ⟨?_, ?_⟩
  · rw [hitems]
    exact .nil
  · rw [hbare.children_eq_nil]
    exact .nil

/-- The schemas of the properties of an object, in checked form, accept what its children admit. -/
theorem expand_properties {cs : List (Atom × Schema)} {ps : Fields}
    (hall : List.Forall₂ (fun e p => p.1 = e.1 ∧ h.Means e.2 p.2) cs ps)
    (hmark : ∀ e ∈ cs, e.1 ≠ .str "nullable") :
    ∃ qs : Fields, expand (.ofEntries ps) = .ok (.ofEntries qs) ∧
      List.Forall₂ (fun e q => q.1 = e.1 ∧ h.Accepting e.2 q.2) cs qs := by
  have hexpands : ∀ p ∈ ps, NullTypes.Expands p.2 := by
    intro p hp
    obtain ⟨_, _, _, fields, hfields, _⟩ := forall₂_right hall hp
    exact ⟨_, hfields⟩
  obtain ⟨qs, hqs, hentries⟩ := NullTypes.expandEntries_ok hexpands
  refine ⟨qs, NullTypes.expand_without_mark ?_ hqs hentries, ?_⟩
  · refine Bool.eq_false_iff.mpr fun hin => ?_
    obtain ⟨p, hp, hkey⟩ := OrderedMap.contains_iff.mp hin
    obtain ⟨e, he, hpe, _⟩ := forall₂_right hall hp
    exact hmark e he (hpe.symm.trans (Atom.beq_str_iff.mp hkey))
  · clear hqs hexpands hmark
    induction hall generalizing qs with
    | nil =>
      cases hentries
      exact .nil
    | @cons e p cs ps hhead _ ih =>
      obtain ⟨hkey, fields, hfields, haccepting⟩ := hhead
      cases hentries with
      | cons hq hrest =>
        rw [hfields] at hq
        refine .cons ⟨hq.1.trans hkey, ?_⟩ (ih _ hrest)
        rw [← Except.ok.inj hq.2]
        exact haccepting

/-- The walk from a plain node succeeds, leaves the state as it is, and says what the node says. -/
theorem runs (hs : h.Plain s) (hctx : ctx.Avoids h s)
    (hdepth : h.budget ctx.active + s.objectCount + 1 ≤ depth) :
    ∃ r, Runs (compileWithin h depth s false) ctx r ctx ∧ Outcome h s r := by
  obtain ⟨depth, rfl⟩ : ∃ d, depth = d + 1 := ⟨depth - 1, by omega⟩
  induction hs generalizing ctx depth with
  | @string s hkind hbare hrules hvalues =>
    have hs : h.Plain s := .string hkind hbare hrules hvalues
    have hkind' : (h.view s).kind? = some (.scalar .string) := by
      rw [hs.kind?_eq, hkind]
      rfl
    have hparts := partsAccepting_of_bare hbare
    obtain ⟨own, hown, hdescribes⟩ := stringKeywords_describes hkind hbare hrules hvalues
    exact hs.runs_of_own hctx hkind' (hbare.rest (scalar_length hbare)).2 .nil hown hdescribes .none
      .none hparts
  | @number s hkind hbare hinteger hrules hvalues =>
    have hs : h.Plain s := .number hkind hbare hinteger hrules hvalues
    have hkind' : (h.view s).kind? = some (.scalar .number) := by
      rw [hs.kind?_eq, hkind]
      rfl
    have hparts := partsAccepting_of_bare hbare
    obtain ⟨own, hown, hdescribes⟩ := numberKeywords_describes hkind hbare hinteger hrules hvalues
    exact hs.runs_of_own hctx hkind' (hbare.rest (scalar_length hbare)).2 .nil hown hdescribes .none
      .none hparts
  | @boolean s hkind hbare hvalues =>
    have hs : h.Plain s := .boolean hkind hbare hvalues
    have hkind' : (h.view s).kind? = some (.scalar .boolean) := by
      rw [hs.kind?_eq, hkind]
      rfl
    exact hs.runs_of_own hctx hkind' (hbare.rest (scalar_length hbare)).2 .nil rfl
      (booleanKeywords_describes hkind hbare hvalues) .none .none (partsAccepting_of_bare hbare)
  | @array s t hkind hbare hitems hrules hvalues hallowed ht ih =>
    have hs : h.Plain s := .array hkind hbare hitems hrules hvalues hallowed ht
    have hkind' : (h.view s).kind? = some .array := by
      rw [hs.kind?_eq, hkind]
      rfl
    have hmem : t ∈ (h.view s).parts := by
      rw [hbare.parts]
      exact List.mem_singleton_self t
    have hchildren := hbare.children_eq_nil_of_items hitems
    have hbudget := budget_part hkind' hctx.fresh hmem
    obtain ⟨depth, rfl⟩ : ∃ d, depth = d + 1 := ⟨depth - 1, by omega⟩
    obtain ⟨r, hr, houtcome⟩ := ih (hctx.below hs (.inl hmem)) depth (by omega)
    rw [Outcome, hallowed, if_neg Bool.false_ne_true] at houtcome
    obtain ⟨fields, rfl, hrenders⟩ := houtcome
    obtain ⟨checked, hchecked, haccepting⟩ := hrenders.means ht
    obtain ⟨own, hown, hdescribes⟩ :=
      arrayFields_describes (h := h) hkind hbare hitems hrules hvalues ⟨_, hchecked⟩
    have hwhens : (h.view s).whenParts = [] := (hbare.rest (by rw [hchildren, hitems]; rfl)).2
    have hparts : Chain (fun t => Runs (compileWithin h (depth + 1) t false))
        (Kind.array.parts (h.view s)) (ctx.enterAt s) [some (.ofEntries fields)] (ctx.enterAt s) := by
      have hlist : Kind.array.parts (h.view s) = [t] := hitems
      rw [hlist]
      exact .cons hr .nil
    refine hs.runs_of_own hctx hkind' hwhens hparts hown hdescribes (.some hchecked) .none ⟨?_, ?_⟩
    · rw [hitems]
      exact .cons haccepting .nil
    · rw [hchildren]
      exact .nil
  | @object s hkind hbare hseparate hkeys hvalues hallowed hchildren ih =>
    have hs : h.Plain s := .object hkind hbare hseparate hkeys hvalues hallowed hchildren
    have hkind' : (h.view s).kind? = some .object := by
      rw [hs.kind?_eq, hkind]
      rfl
    have hitems : (h.view s).items = [] := by
      have hlength := congrArg List.length hbare.parts
      unfold Node.parts at hlength
      simp only [List.length_append, List.length_map] at hlength
      exact List.eq_nil_of_length_eq_zero (by omega)
    obtain ⟨hopen, hwhens⟩ := hbare.rest (by rw [hitems, List.length_map]; rfl)
    have hlist : Kind.object.parts (h.view s) = (h.view s).children.map (·.2) := by
      change (h.view s).children.map (·.2) ++ (h.view s).openPart?.toList = _
      rw [hopen]
      exact List.append_nil _
    obtain ⟨outcomes, hchain, houtcomes⟩ : ∃ outcomes,
        Chain (fun t => Runs (compileWithin h depth t false)) ((h.view s).children.map (·.2))
          (ctx.enterAt s) outcomes (ctx.enterAt s) ∧
        List.Forall₂ (Outcome h) ((h.view s).children.map (·.2)) outcomes := by
      refine chain_of_runs fun t ht => ?_
      have hmem : t ∈ (h.view s).parts := by
        rw [hbare.parts]
        exact ht
      have hbudget := budget_part hkind' hctx.fresh hmem
      obtain ⟨depth, rfl⟩ : ∃ d, depth = d + 1 := ⟨depth - 1, by omega⟩
      obtain ⟨c, hc, rfl⟩ := List.mem_map.mp ht
      exact ih c hc (hctx.below hs (.inl hmem)) depth (by omega)
    -- What the children compile to means what they mean.
    have hmeans : List.Forall₂ (fun c r => if (h.view c.2).isForbidden = true then r = none
        else ∃ v, r = some v ∧ h.Means c.2 v) (h.view s).children outcomes := by
      refine forall₂_imp_mem (fun c hc r hr => ?_) (List.forall₂_map_left_iff.mp houtcomes)
      cases hforbidden : (h.view c.2).isForbidden with
      | true =>
        rw [Outcome, hforbidden, if_pos rfl] at hr
        exact (if_pos rfl).mpr hr
      | false =>
        rw [Outcome, hforbidden, if_neg Bool.false_ne_true] at hr
        obtain ⟨fields, rfl, hrenders⟩ := hr
        rw [if_neg Bool.false_ne_true]
        exact ⟨_, rfl, hrenders.means (hchildren c hc)⟩
    obtain ⟨properties, hfields, hproperties⟩ := childFields_of_outcomes hseparate hmeans
    obtain ⟨checked, hchecked, haccepting⟩ := expand_properties hproperties
      fun e he => (hkeys e (List.mem_of_mem_filter he)).1
    have hown : Kind.object.fields h (h.view s) outcomes = .ok
        (closeObject (h.view s) properties (((h.view s).requiredKeys h).map .atom) none) := by
      have hadditional : (if (h.view s).children.isEmpty then outcomes.head?.join else none) = none := by
        split
        · rename_i hempty
          rw [List.isEmpty_iff.mp hempty] at hmeans
          rw [List.forall₂_nil_left_iff.mp hmeans]
          rfl
        · rfl
      unfold Kind.fields objectFields
      dsimp only
      rw [hfields, hadditional]
    refine hs.runs_of_own hctx hkind' hwhens (hlist ▸ hchain) hown
      (closeObject_describes hkind hvalues ⟨_, hchecked⟩) .none (.some hchecked) ⟨?_, haccepting⟩
    rw [hitems]
    exact .nil

end Heap.Plain

end Walk

/-! ## The container -/

/-- The walk from the start of a plain node that is not forbidden. -/
theorem Heap.Plain.compile_eq {h : Heap} {v : Value} {s : Schema} (hv : rootSchema v = .ok s)
    (hs : h.Plain s) (hallowed : (h.view s).isForbidden = false) : ∃ fields,
      (h.compileAgainst [] v).1 = .ok (some ⟨.ofEntries fields, []⟩) ∧ h.Renders s fields := by
  have hctx : Context.Avoids {} h s := fun _ hin => by cases hin
  obtain ⟨r, hrun, houtcome⟩ := hs.runs hctx Heap.budget_le_depthBound
  rw [Outcome, hallowed, if_neg Bool.false_ne_true] at houtcome
  obtain ⟨fields, rfl, hrenders⟩ := houtcome
  have hcompile : Runs (h.compile v) {} (some (.ofEntries fields)) {} :=
    runs_bind_iff.mpr ⟨s, {}, runs_lift_iff.mpr ⟨hv, rfl⟩, hrun⟩
  refine ⟨fields, ?_, hrenders⟩
  unfold Heap.compileAgainst
  rw [hcompile]
  rfl

/-- The container of a plain node reports nothing about data that the node admits, and some message
about all other data. -/
theorem Container.error_of_plain {h : Heap} {v : Value} {s : Schema} (hv : rootSchema v = .ok s)
    (hs : h.Plain s) (hallowed : (h.view s).isForbidden = false) :
    ∃ container, (Container.compile h v false).1 = .ok container ∧ ∀ x : Value, x.IsJson →
      (h.admits s x = true → container.error x = .ok none) ∧
        (h.admits s x = false → ∃ message, container.error x = .ok (some message)) := by
  obtain ⟨fields, hcompile, hrenders⟩ := hs.compile_eq hv hallowed
  -- The definitions stand beside the keywords and are not one of them.
  have hempty : NullTypes.Expands (Components.toValue []) :=
    NullTypes.expand_unmarked (.map rfl fun _ he => by cases he)
  have hdocument : h.Renders s (Fields.set fields "components" (Components.toValue [])) :=
    hrenders.set (by decide) (by decide) hempty
  obtain ⟨checked, hchecked, haccepting⟩ := hdocument.means hs
  refine ⟨⟨h.describe, .ofEntries fields, [], .ofEntries checked⟩, ?_, fun x hx => ?_⟩
  · unfold Container.compile
    dsimp only
    rw [hcompile]
    unfold Container.ofCompiled
    simp only [bind, Except.bind, Value.spread, Bool.false_eq_true, ↓reduceIte, hchecked]
    rfl
  · have hdecides := (@Checkable.decides (Validator.checkerWithin ⟨h.describe, .ofEntries checked⟩
      (Validator.depthBound ⟨h.describe, .ofEntries checked⟩ x)) _ _ haccepting.checkable hx
        .full).iff (haccepting.accepts _ x hx)
    obtain ⟨hvalid, hrefused⟩ := Validator.error_of_decides hx hdecides
    refine ⟨hvalid, fun hfalse => hrefused ?_⟩
    rw [hfalse]
    exact Bool.false_ne_true

/-- An account: a name, an age that may be unknown, up to two tags, and no password. -/
def accountHeap : Heap where
  nodes := #[
    { kind := "string", rules := [.min (.int 1), .max (.int 20)],
      flags := [("presence", .str "required")] },
    { kind := "number", rules := [.integer, .sign .positive], valids := [.null] },
    { kind := "string", valids := [.str "new", .str "old"], flags := [("only", .bool true)] },
    { kind := "array", items := [.node 2], rules := [.max (.int 2)] },
    { kind := "string", flags := [("presence", .str "forbidden")] },
    { kind := "object", flags := [("label", .str "Account")],
      children := [(.str "name", .node 0), (.str "age", .node 1), (.str "tags", .node 3),
        (.str "password", .node 4)] }]

theorem Node.Bare.of_atoms {n : Node} {parts : List Schema} {a b c : Atom} (hmetadata : n.metadata = [])
    (hparts : n.parts = parts) (hexamples : n.examples = []) (hlabel : n.flag "label" = .atom a)
    (hdescription : n.flag "description" = .atom b) (hdefault : n.flag "default" = .atom c) :
    n.Bare parts := by
  refine ⟨hmetadata, hparts, ?_, ?_⟩
  · simp only [List.forall_mem_cons, hlabel, hdescription, hdefault]
    exact ⟨.atom _, .atom _, .atom _, fun _ hname => by cases hname⟩
  · rw [hexamples]
    exact fun _ hv => by cases hv

theorem Node.Lists.of_nothing {n : Node} {form : Value → Prop} (hvalids : n.valids = [])
    (hinvalids : n.invalids = []) : n.Lists form := by
  refine ⟨fun v hv => ?_, fun v hv => ?_⟩
  · rw [hvalids] at hv
    cases hv
  · rw [hinvalids] at hv
    cases hv

theorem accountHeap_plain : accountHeap.Plain (.node 5) := by
  have hname : accountHeap.Plain (.node 0) := by
    refine .string rfl (.of_atoms rfl rfl rfl rfl rfl rfl) (fun r hr => ?_)
      (.of_nothing rfl rfl)
    rcases List.mem_cons.mp hr with rfl | hr
    · exact ⟨1, .inl rfl⟩
    · obtain rfl := List.mem_singleton.mp hr
      exact ⟨20, .inr (.inl rfl)⟩
  have hage : accountHeap.Plain (.node 1) := by
    refine .number rfl (.of_atoms rfl rfl rfl rfl rfl rfl) List.mem_cons_self (fun r hr => ?_)
      ⟨fun v hv => .inl (List.mem_singleton.mp hv), fun _ hv => by cases hv⟩
    rcases List.mem_cons.mp hr with rfl | hr
    · exact .inl rfl
    · exact .inr (.inl ⟨_, List.mem_singleton.mp hr⟩)
  have htag : accountHeap.Plain (.node 2) := by
    refine .string rfl (.of_atoms rfl rfl rfl rfl rfl rfl) (fun _ hr => by cases hr)
      ⟨fun v hv => .inr ?_, fun _ hv => by cases hv⟩
    rcases List.mem_cons.mp hv with rfl | hv
    · rfl
    · rw [List.mem_singleton.mp hv]
      rfl
  have htags : accountHeap.Plain (.node 3) := by
    refine .array rfl (.of_atoms rfl rfl rfl rfl rfl rfl) rfl (fun r hr => ?_)
      (.of_nothing rfl rfl) rfl htag
    exact ⟨2, .inr (.inl (List.mem_singleton.mp hr))⟩
  have hpassword : accountHeap.Plain (.node 4) :=
    .string rfl (.of_atoms rfl rfl rfl rfl rfl rfl) (fun _ hr => by cases hr) (.of_nothing rfl rfl)
  have hchildren : (accountHeap.view (.node 5)).children = [(.str "name", .node 0),
      (.str "age", .node 1), (.str "tags", .node 3), (.str "password", .node 4)] := rfl
  refine .object rfl (.of_atoms rfl rfl rfl rfl rfl rfl) ?_ ?_
    (.of_nothing rfl rfl) (fun _ _ _ => rfl) ?_
  · rw [hchildren]
    simp [OrderedMap.Separate]
    decide
  · rw [hchildren]
    simp
  · rw [hchildren]
    simp [hname, hage, htags, hpassword]

/-- The container of an account admits an account of unknown age and refuses one with a password. -/
theorem Container.error_of_plain_account :
    ∃ container, (Container.compile accountHeap (.node 5) false).1 = .ok container ∧
      container.error (.ofFields [("name", .str "ann"), ("age", .null),
        ("tags", .list [.str "new"])]) = .ok none ∧
      ∃ message, container.error (.ofFields [("name", .str "ann"), ("password", .str "x")]) =
        .ok (some message) := by
  obtain ⟨container, hcompile, hall⟩ :=
    Container.error_of_plain (h := accountHeap) (v := .node 5) (s := .node 5) rfl accountHeap_plain rfl
  refine ⟨container, hcompile, (hall _ ?_).1 (by decide), (hall _ ?_).2 (by decide)⟩
  · refine .map (fun e he => ?_) (by simp [OrderedMap.Separate]; decide) fun e he => ?_
    · simp at he
      rcases he with rfl | rfl | rfl <;> exact ⟨_, rfl⟩
    · simp at he
      rcases he with rfl | rfl | rfl
      · exact .str _
      · exact .null
      · refine .list fun x hx => ?_
        rw [List.mem_singleton.mp hx]
        exact .str _
  · refine .map (fun e he => ?_) (by simp [OrderedMap.Separate]; decide) fun e he => ?_
    · simp at he
      rcases he with rfl | rfl <;> exact ⟨_, rfl⟩
    · simp at he
      rcases he with rfl | rfl <;> exact .str _

end WireShape
