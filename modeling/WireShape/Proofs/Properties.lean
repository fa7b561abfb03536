import Mathlib.Data.List.TakeWhile
import WireShape.Container
import WireShape.Proofs.Compile.Independence
import WireShape.Proofs.Compile.Keywords
import WireShape.Proofs.Expansion
import WireShape.Proofs.Registry.References

/-!
# The keys that a container describes

The keys that a container describes are those of the compiled schema, or of the definition that it
refers to. Where nothing stands in the place of an object, these are the keys of its children, in
their order and without those that give no schema.

* `Heap.Ordinary`: positions that give no schema exactly if they are forbidden.
* `Heap.Direct`: objects in whose place nothing stands.
* `shownKeys`: the keys of the children that give a schema.
* `Container.properties_of_direct`: the keys that a container describes.
-/

namespace WireShape

open Value (Fields)

/-! ## Positions that give no schema -/

/-- A position in whose place nothing stands, and which has no class if it is forbidden. -/
structure Heap.Ordinary (h : Heap) (s : Schema) : Prop where
  override : (h.view s).override.isNull = true
  literal : (h.view s).isLiteral = false
  classless : (h.view s).isForbidden = true → (h.view s).className.truthy = false

/-- Such a position gives no schema exactly if it is forbidden, whatever is known and created. -/
theorem Heap.Ordinary.eq_none_iff {h : Heap} {s : Schema} {overriding : Bool} {ctx after : Context}
    {r : Compiled} (hs : h.Ordinary s) (hrun : Walked h s overriding ctx r after) :
    r = none ↔ (h.view s).isForbidden = true := by
  cases hrun.step with
  | override hoverride => exact absurd (hoverride.symm.trans hs.override) Bool.false_ne_true
  | literal _ hliteral => exact absurd (hs.literal.symm.trans hliteral) Bool.false_ne_true
  | known _ _ hclass =>
    refine ⟨nofun, fun hforbidden => ?_⟩
    have htruthy := (class?_eq_ok_some_iff.mp hclass).1
    rw [hs.classless hforbidden] at htruthy
    cases htruthy
  | forbidden _ _ _ _ hforbidden => exact ⟨fun _ => hforbidden, fun _ => rfl⟩
  | compiled _ _ _ _ hallowed _ _ _ _ _ hfinish =>
    refine iff_of_false ?_ (hallowed ▸ Bool.false_ne_true)
    cases hfinish <;> nofun

/-! ## The children of an object -/

section Children

variable {h : Heap} {n : Node} {children : List (Atom × Schema)} {outcomes : List Compiled}

/-- The children that give a schema, with it. -/
def shownChildren (children : List (Atom × Schema)) (outcomes : List Compiled) : Fields :=
  (children.zip outcomes).filterMap fun p => p.2.map fun v => (p.1.1, v)

/-- The keys of the children that give a schema. -/
def shownKeys (children : List (Atom × Schema)) (outcomes : List Compiled) : List Atom :=
  (shownChildren children outcomes).map (·.1)

theorem shownChildren_separate (hkeys : OrderedMap.Separate children) :
    OrderedMap.Separate (shownChildren children outcomes) := by
  induction children generalizing outcomes with
  | nil => exact .nil
  | cons e children ih =>
    obtain ⟨hhead, htail⟩ := List.pairwise_cons.mp hkeys
    cases outcomes with
    | nil => exact .nil
    | cons r outcomes =>
      cases r with
      | none => exact ih htail
      | some v =>
        refine List.pairwise_cons.mpr ⟨fun f hf => ?_, ih htail⟩
        obtain ⟨p, hp, hshown⟩ := List.mem_filterMap.mp hf
        obtain ⟨w, _, rfl⟩ := Option.map_eq_some_iff.mp hshown
        exact hhead p.1 (List.of_mem_zip hp).1

/-- The properties of an object with different keys are the schemas of its children. -/
theorem childFields_eq (hkeys : OrderedMap.Separate n.children) :
    (childFields h n outcomes).1 = shownChildren n.children outcomes := by
  have hfold : ∀ (pairs : List ((Atom × Schema) × Compiled)) (acc : Fields × List Value),
      (pairs.foldl (fun acc p => addChild h acc p.1 p.2) acc).1 =
        OrderedMap.update acc.1 (pairs.filterMap fun p => p.2.map fun v => (p.1.1, v)) := by
    intro pairs
    induction pairs with
    | nil => exact fun _ => rfl
    | cons p pairs ih =>
      intro acc
      rw [List.foldl_cons, ih, List.filterMap_cons]
      cases p.2 <;> rfl
  have hseparate : OrderedMap.Separate (shownChildren n.children outcomes) :=
    shownChildren_separate hkeys
  exact (hfold _ _).trans (OrderedMap.update_eq_append hseparate)

/-- A child that gives a schema is shown with it. -/
theorem mem_shownChildren {R : Atom × Schema → Compiled → Prop}
    (hall : List.Forall₂ R children outcomes) {e : Atom × Schema} (he : e ∈ children) :
    ∃ r, R e r ∧ ∀ v, r = some v → (e.1, v) ∈ shownChildren children outcomes := by
  induction hall with
  | nil => cases he
  | @cons f r children outcomes hfirst _ ih =>
    unfold shownChildren at ih ⊢
    rw [List.zip_cons_cons, List.filterMap_cons]
    rcases List.mem_cons.mp he with rfl | hrest
    · refine ⟨r, hfirst, ?_⟩
      rintro v rfl
      exact List.mem_cons_self
    · obtain ⟨r', hr', hshown⟩ := ih hrest
      refine ⟨r', hr', fun v hv => ?_⟩
      cases r with
      | none => exact hshown v hv
      | some w => exact List.mem_cons_of_mem _ (hshown v hv)

/-- Of ordinary children those are shown that are not forbidden. -/
theorem shownKeys_ordinary (hall : List.Forall₂ (fun e r => r = none ↔
    (h.view e.2).isForbidden = true) children outcomes) : shownKeys children outcomes =
      (children.filter fun e => !(h.view e.2).isForbidden).map (·.1) := by
  induction hall with
  | nil => rfl
  | @cons e r children outcomes hnone _ ih =>
    unfold shownKeys shownChildren at ih ⊢
    rw [List.zip_cons_cons, List.filter_cons]
    cases r with
    | none =>
      rw [hnone.mp rfl]
      exact ih
    | some v =>
      have hallowed : (h.view e.2).isForbidden = false :=
        Bool.eq_false_iff.mpr fun hforbidden => nomatch hnone.mpr hforbidden
      rw [hallowed]
      exact congrArg (e.1 :: ·) ih

end Children

/-! ## Objects -/

/-- A definition that has been written is found. -/
theorem Components.find?_define_self {components : Components} {bucket name : String} {v : Value} :
    (components.define (.str bucket) (.str name) v).find? (.str bucket) (.str name) = some v := by
  rw [find?_define, Atom.str_beq_iff.mpr rfl, Atom.str_beq_iff.mpr rfl]
  rfl

/-- What is found under a bucket and a name is their definition. -/
theorem Container.definition_of_find? {components : Components} {bucket name : String} {v : Value}
    (hfound : components.find? (.str bucket) (.str name) = some v) :
    definition components bucket name = v :=
  congrArg (Option.getD · (Value.ofEntries [])) hfound

/-- The literal schema of a node says nothing under a keyword. -/
def Node.AddsNo (n : Node) (name : String) : Prop :=
  n.literal.truthy = true → ∀ es, n.literal.toEntries = .ok es →
    OrderedMap.get? es (.str name) = none

/-- An object in whose place nothing stands, with different keys. If it is a class, the reference to
it can be followed. -/
structure Heap.Direct (h : Heap) (s : Schema) : Prop where
  override : (h.view s).override.isNull = true
  literal : (h.view s).isLiteral = false
  properties : (h.view s).AddsNo "properties"
  reference : (h.view s).AddsNo "$ref"
  allowed : (h.view s).isForbidden = false
  kind : (h.view s).baseKind = .str "object"
  keys : OrderedMap.Separate (h.view s).children
  classed : (h.view s).className.truthy = true → ∃ bucket name, (h.view s).classBucket = .str bucket ∧
    (h.view s).className = .str name ∧ '/' ∉ bucket.toList

section Objects

variable {h : Heap} {s : Schema} {n : Node} {fields : Fields} {ctx after : Context} {r : Compiled}

/-- Under a keyword to which the literal schema adds nothing there is what the kind says. -/
theorem Node.assemble_get? {kind : Kind} {outcomes whenOutcomes : List Compiled} {name : String}
    (hliteral : n.AddsNo name) (hcommon : name ∉ commonKeywords) (hwhen : name ∉ ["anyOf", "oneOf"])
    (hfields : n.assemble h kind outcomes whenOutcomes = .ok fields) :
    ∃ own, kind.fields h n outcomes = .ok own ∧
      OrderedMap.get? fields (.str name) = OrderedMap.get? own (.str name) := by
  obtain ⟨own, hown, hrest⟩ := bind_eq_ok_iff.mp hfields
  obtain ⟨conditional, hconditional, hlast⟩ := bind_eq_ok_iff.mp hrest
  refine ⟨own, hown, ?_⟩
  have hannotated : OrderedMap.get? (annotate n (own.merge conditional)) (.str name) =
      OrderedMap.get? own (.str name) := by
    obtain ⟨schemas, _, hpure⟩ := bind_eq_ok_iff.mp hconditional
    cases hpure
    rw [get?_annotate hcommon]
    refine OrderedMap.get?_update_of_none (branchKeyword_get? ?_)
    rintro rfl
    apply hwhen
    unfold whenKeyword
    split <;> decide
  rw [← hannotated]
  unfold addLiteral at hlast
  split at hlast
  · rename_i htruthy
    obtain ⟨es, hes, hmerged⟩ := bind_eq_ok_iff.mp hlast
    cases hmerged
    exact OrderedMap.get?_update_of_none (hliteral htruthy es hes)
  · cases hlast
    rfl

/-- The fields of an object that a walk makes: they stand for themselves or are those of the class
that is referred to. -/
theorem Heap.Direct.walked (hs : h.Direct s) (hrun : Walked h s false {} r after) :
    ∃ fields outcomes, List.Forall₂ (fun e r => ∃ ctx after, Walked h e.2 false ctx r after)
        (h.view s).children outcomes ∧
      OrderedMap.get? fields (.str "properties") =
        some (.ofEntries (shownChildren (h.view s).children outcomes)) ∧
      OrderedMap.get? fields (.str "$ref") = none ∧
      (r = some (.ofEntries fields) ∨ ∃ bucket name : String, '/' ∉ bucket.toList ∧
        (h.view s).class? = .ok (some (.str bucket, .str name)) ∧
          r = some (WireShape.reference bucket name) ∧
            after.created.find? (.str bucket) (.str name) = some (.ofEntries fields)) := by
  have hobject : (h.view s).kind? = some .object := by
    unfold Node.kind?
    rw [hs.kind]
    rfl
  cases hrun.step with
  | override hoverride => exact absurd (hoverride.symm.trans hs.override) Bool.false_ne_true
  | literal _ hliteral => exact absurd (hs.literal.symm.trans hliteral) Bool.false_ne_true
  | known _ _ _ hhas => cases hhas
  | forbidden _ _ _ _ hforbidden => exact absurd (hs.allowed.symm.trans hforbidden) Bool.false_ne_true
  | @compiled _ c kind _ _ fields _ _ _ _ _ _ _ hclass _ _ _ hkind hparts _ hfields hfinish =>
    obtain rfl := Option.some.inj (hkind.symm.trans hobject)
    obtain ⟨first, more, _, hfirst, _, rfl⟩ := Chain.append_iff.mp hparts
    have hlength : (h.view s).children.length = first.length := by simpa using hfirst.length_eq.symm
    have houtcomes : List.Forall₂ (fun e r => ∃ ctx after, Walked h e.2 false ctx r after)
        (h.view s).children first :=
      (Chain.map_iff.mp hfirst).answers fun _ _ _ _ _ hr => ⟨_, _, hr⟩
    refine ⟨fields, first, houtcomes, ?_, ?_, ?_⟩
    · obtain ⟨own, hown, hget⟩ := Node.assemble_get? hs.properties (by decide) (by decide) hfields
      cases hown
      rw [hget, objectFields, closeObject_get?, childFields_eq hs.keys, shownChildren,
        zip_append_left hlength]
      rfl
    · obtain ⟨own, hown, hget⟩ := Node.assemble_get? hs.reference (by decide) (by decide) hfields
      cases hown
      rw [hget]
      exact closeObject_among.get?_eq_none (by decide)
    · cases hfinish with
      | plain => exact .inl rfl
      | @define bucket name place what hplace hwhat =>
        obtain ⟨htruthy, hbucket, hname⟩ := class?_eq_ok_some_iff.mp hclass
        obtain ⟨b, m, hb, hm, hslash⟩ := hs.classed htruthy
        rw [hb] at hbucket
        rw [hm] at hname
        cases hbucket
        cases hname
        cases hplace
        cases hwhat
        refine .inr ⟨place, what, hslash, hclass, rfl, ?_⟩
        exact Components.find?_define_self

end Objects

/-! ## Containers -/

namespace Container

variable {h : Heap} {v : Value} {s : Schema} {allowUnknown : Bool} {c : Container}

/-- A container is made of what its schema compiles to. -/
theorem compile_eq_ok_iff : (compile h v allowUnknown).1 = .ok c ↔
    ∃ compiled, (h.compileAgainst [] v).1 = .ok compiled ∧
      ofCompiled h.describe compiled allowUnknown = .ok c := by
  unfold compile
  exact bind_eq_ok_iff

theorem schema_of_ofCompiled {describe : Describe} {schema : Value} {components : Components}
    (hc : ofCompiled describe (some ⟨schema, components⟩) allowUnknown = .ok c) :
    c.schema = (if allowUnknown then withUnknown schema else schema) ∧ c.components = components := by
  obtain ⟨_, _, hc⟩ := bind_eq_ok_iff.mp hc
  obtain ⟨_, _, hc⟩ := bind_eq_ok_iff.mp hc
  cases hc
  exact ⟨rfl, rfl⟩

/-- A reference leads to the definition of its bucket and its name. -/
theorem resolve_of_split {schema : Value} {target bucket name : String}
    (hfield : schema.field? "$ref" = some (.str target))
    (hsplit : splitReference target = some (bucket, name)) :
    c.resolve schema = .ok (definition c.components bucket name) := by
  unfold splitReference at hsplit
  dsimp only at hsplit
  split at hsplit
  · rename_i hpath
    obtain ⟨hstart, hslash⟩ := Bool.and_eq_true_iff.mp hpath
    obtain ⟨rfl, rfl⟩ := Prod.mk.inj (Option.some.inj hsplit)
    have htruthy : (Value.str target).truthy = true := by
      have hne : target ≠ "" := by
        rintro rfl
        cases hstart
      simpa [Value.truthy, Atom.truthy] using hne
    have hbegins : (Value.str target).startsWith (.str referenceStart) = .ok true :=
      congrArg Except.ok hstart
    unfold resolve
    rw [hfield]
    dsimp only [Option.getD_some]
    rw [htruthy, hbegins]
    cases hrest : (target.toList.drop referenceStart.length).dropWhile (· != '/') with
    | nil =>
      have hnone := List.dropWhile_eq_nil_iff.mp hrest '/' (List.contains_iff_mem.mp hslash)
      cases hnone
    | cons slash rest => rfl
  · cases hsplit

/-- A schema without a reference stands for itself. -/
theorem resolve_of_plain {fields : Fields} {identity : Option Nat}
    (hplain : OrderedMap.get? fields (.str "$ref") = none) :
    c.resolve (.map fields identity) = .ok (.map fields identity) := by
  unfold resolve Value.field?
  dsimp only
  rw [hplain]
  rfl

/-- The schema of a container says what was compiled; only what is admitted besides may differ. -/
theorem schema_kept {describe : Describe} {fields : Fields} {components : Components}
    (hc : ofCompiled describe (some ⟨.ofEntries fields, components⟩) allowUnknown = .ok c) :
    ∃ kept, c.schema = .ofEntries kept ∧ ∀ name, name ≠ "additionalProperties" →
      OrderedMap.get? kept (.str name) = OrderedMap.get? fields (.str name) := by
  rw [(schema_of_ofCompiled hc).1]
  cases allowUnknown with
  | false => exact ⟨fields, rfl, fun _ _ => rfl⟩
  | true =>
    refine ⟨_, rfl, fun name hname => OrderedMap.get?_erase_of_ne (Bool.eq_false_iff.mpr fun h => ?_)⟩
    exact hname (Atom.str.inj (Atom.str_beq_iff.mp h))

/-- A container describes the properties of the schema that its own schema leads to. -/
theorem properties_of_resolve {fields properties : Fields} {identity : Option Nat}
    (hresolve : c.resolve c.schema = .ok (.map fields identity))
    (hproperties : OrderedMap.get? fields (.str "properties") = some (.ofEntries properties)) :
    c.properties = .ok (.ofEntries properties) := by
  unfold Container.properties
  rw [hresolve]
  change Except.ok (((OrderedMap.get? fields (.str "properties")).getD .null).orElse (.ofEntries [])) = _
  rw [hproperties, Option.getD_some]
  cases properties <;> rfl

/-- The properties that a container describes are the schemas of the children that give one. -/
theorem shown_of_direct (hcompile : (compile h v allowUnknown).1 = .ok c)
    (hv : Schema.ofValue v = .ok s) (hs : h.Direct s) :
    ∃ outcomes, c.properties = .ok (.ofEntries (shownChildren (h.view s).children outcomes)) ∧
      List.Forall₂ (fun e r => ∃ ctx after, Walked h e.2 false ctx r after) (h.view s).children
        outcomes := by
  obtain ⟨compiled, hagainst, hof⟩ := compile_eq_ok_iff.mp hcompile
  obtain ⟨r, after, hrun, rfl⟩ := compileAgainst_eq_ok_iff.mp hagainst
  obtain ⟨root, hroot, hrun⟩ := runs_compile_iff.mp hrun
  obtain rfl := Except.ok.inj ((ofValue_of_rootSchema hroot).symm.trans hv)
  obtain ⟨fields, outcomes, hall, hproperties, hplain, hcases⟩ := hs.walked (walked_of_runs hrun)
  refine ⟨outcomes, ?_, hall⟩
  rcases hcases with rfl | ⟨bucket, name, hslash, -, rfl, hfound⟩
  · obtain ⟨kept, hkept, hget⟩ := schema_kept hof
    have hresolve : c.resolve c.schema = .ok (.ofEntries kept) := by
      rw [hkept]
      exact resolve_of_plain ((hget "$ref" (by decide)).trans hplain)
    exact properties_of_resolve hresolve ((hget "properties" (by decide)).trans hproperties)
  · obtain ⟨kept, hkept, hget⟩ := schema_kept hof
    have hfield : c.schema.field? "$ref" = some (.str (bucketPath bucket ++ name)) := by
      rw [hkept]
      exact hget "$ref" (by decide)
    have hresolve : c.resolve c.schema = .ok (.ofEntries fields) := by
      rw [resolve_of_split hfield (splitReference_path hslash), (schema_of_ofCompiled hof).2,
        definition_of_find? hfound]
    exact properties_of_resolve hresolve hproperties

/-- The keys that a container describes are those of the children that give a schema. -/
theorem properties_of_direct (hcompile : (compile h v allowUnknown).1 = .ok c)
    (hv : Schema.ofValue v = .ok s) (hs : h.Direct s) :
    ∃ properties outcomes, c.properties = .ok (.ofEntries properties) ∧
      List.Forall₂ (fun e r => ∃ ctx after, Walked h e.2 false ctx r after) (h.view s).children
        outcomes ∧
      properties.keys = shownKeys (h.view s).children outcomes := by
  obtain ⟨outcomes, hproperties, hall⟩ := shown_of_direct hcompile hv hs
  exact ⟨_, outcomes, hproperties, hall, rfl⟩

end Container

end WireShape
