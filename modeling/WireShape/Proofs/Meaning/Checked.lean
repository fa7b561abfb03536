import WireShape.Proofs.Meaning.Keywords

/-!
# The checked form of the schema of a plain node

In the checked form each keyword says what it said before, and null is admitted besides if it is
named. The keywords have values of their form, so the check decides, and what they say together is
what the node admits: its type and its values for the datum by itself, its limits for the size, and
the schemas of its parts for what is in the datum.

* `Heap.Means`: schemas that accept what a node admits.
* `Heap.Describes.checked`: what the checked form says.
* `Heap.Plain.form`, `Heap.Plain.checkable`: the checked form of a plain node can be decided.
-/

namespace WireShape

open Value (Fields IsJson)
open NullTypes (Expands Tidy expand admittingNull admittingNullIf)

/-- A schema that decides and accepts what the node at a position admits. -/
structure Heap.Accepting (h : Heap) (s : Schema) (v : Value) : Prop where
  checkable {describe : Describe} : Checkable describe v
  accepts : ∀ (c : Checker) (x : Value), x.IsJson → (c.Accepts v x ↔ h.admits s x = true)

/-- A schema whose checked form accepts what the node at a position admits. -/
def Heap.Means (h : Heap) (s : Schema) (schema : Value) : Prop :=
  ∃ fields : Fields, expand schema = .ok (.ofEntries fields) ∧ h.Accepting s (.ofEntries fields)

/-! ## Values that are named -/

theorem null_sameStrict_iff {x : Value} (hx : x.IsJson) :
    Value.null.sameStrict x = true ↔ x = .null := by
  cases hx <;> simp [Value.sameStrict, Value.sameAtomStrict, Atom.same, Atom.number?, Value.same]

/-- Text, a number or a boolean. -/
def Value.IsScalar (v : Value) : Prop :=
  (∃ s, v = .str s) ∨ (∃ i, v = .int i) ∨ (∃ b, v = .bool b) ∨ ∃ x, v = .float x

namespace Value.IsScalar

variable {v : Value}

theorem atom (h : v.IsScalar) : ∃ a, v = .atom a := by
  obtain ⟨s, rfl⟩ | ⟨i, rfl⟩ | ⟨b, rfl⟩ | ⟨x, rfl⟩ := h <;> exact ⟨_, rfl⟩

theorem shown {describe : Describe} (h : v.IsScalar) : v.Shown describe := by
  obtain ⟨s, rfl⟩ | ⟨i, rfl⟩ | ⟨b, rfl⟩ | ⟨x, rfl⟩ := h <;> exact ⟨_, rfl⟩

/-- None of these values is null. -/
theorem not_null (h : v.IsScalar) : v.sameStrict .null = false ∧ v.same .null = false ∧
    v.isNull = false := by
  obtain ⟨s, rfl⟩ | ⟨i, rfl⟩ | ⟨b, rfl⟩ | ⟨x, rfl⟩ := h <;> exact ⟨rfl, rfl, rfl⟩

end Value.IsScalar

theorem Node.Lists.mono {n : Node} {form form' : Value → Prop} (h : n.Lists form)
    (hform : ∀ v, form v → form' v) : n.Lists form' :=
  ⟨fun v hv => (h.valids v hv).imp_right (hform v), fun v hv => hform v (h.invalids v hv)⟩

namespace Heap.Plain

variable {h : Heap} {s : Schema}

/-- Only text, numbers and booleans are named or denied, apart from null. -/
theorem lists (hs : h.Plain s) : (h.view s).Lists Value.IsScalar := by
  cases hs with
  | string _ _ _ hvalues =>
    refine hvalues.mono fun v hv => ?_
    unfold Value.isText at hv
    split at hv
    · exact .inl ⟨_, rfl⟩
    · cases hv
  | number _ _ _ _ hvalues => exact hvalues.mono fun v hv => .inr (.inl hv)
  | boolean _ _ hvalues =>
    refine hvalues.mono fun v hv => ?_
    unfold Value.isBool at hv
    split at hv
    · exact .inr (.inr (.inl ⟨_, rfl⟩))
    · cases hv
  | array _ _ _ _ hvalues => exact hvalues.mono fun v hv => hv.elim
  | object _ _ _ _ hvalues => exact hvalues.mono fun v hv => hv.elim

/-- The type of the data of a plain node is known and tests for the kind of the node. -/
theorem dataType (hs : h.Plain s) : ∃ test, Assertion.typeTest? (h.view s).dataType = some test ∧
    ∀ x : Value, x.IsJson → test x = (h.view s).fits x := by
  unfold Node.dataType Node.fits
  cases hs with
  | string hkind =>
    rw [hkind]
    refine ⟨_, rfl, fun x hx => ?_⟩
    cases hx <;> rfl
  | number hkind =>
    rw [hkind]
    exact ⟨_, rfl, fun _ _ => rfl⟩
  | boolean hkind =>
    rw [hkind]
    exact ⟨_, rfl, fun _ _ => rfl⟩
  | array hkind =>
    rw [hkind]
    exact ⟨_, rfl, fun _ _ => rfl⟩
  | object hkind =>
    rw [hkind]
    exact ⟨_, rfl, fun _ _ => rfl⟩

/-- The children of a plain node have keys of their own, and none has the key of the mark. -/
theorem children (hs : h.Plain s) : OrderedMap.Separate (h.view s).children ∧
    ∀ c ∈ (h.view s).children, c.1 ≠ .str "nullable" ∧ (∀ id, c.1 ≠ .node id) ∧
      ((h.view c.2).isForbidden = true → (h.view s).isClosed = true) := by
  have hnone : (h.view s).children = [] → OrderedMap.Separate (h.view s).children ∧
      ∀ c ∈ (h.view s).children, c.1 ≠ .str "nullable" ∧ (∀ id, c.1 ≠ .node id) ∧
        ((h.view c.2).isForbidden = true → (h.view s).isClosed = true) := by
    intro hchildren
    rw [hchildren]
    exact ⟨.nil, fun _ hc => by cases hc⟩
  cases hs with
  | string _ hbare => exact hnone hbare.children_eq_nil
  | number _ hbare => exact hnone hbare.children_eq_nil
  | boolean _ hbare => exact hnone hbare.children_eq_nil
  | array _ hbare hitems => exact hnone (hbare.children_eq_nil_of_items hitems)
  | object _ _ hseparate hkeys _ hallowed =>
    exact ⟨hseparate, fun c hc => ⟨(hkeys c hc).1, (hkeys c hc).2, hallowed c hc⟩⟩

end Heap.Plain

section Named

variable {n : Node} (hlists : n.Lists Value.IsScalar)
include hlists

theorem isIn_valids : Value.null.isIn n.valids = n.valids.any Value.isNull := by
  unfold Value.isIn
  rw [Bool.eq_iff_iff, List.any_eq_true, List.any_eq_true]
  refine exists_congr fun v => and_congr_right fun hv => ?_
  rcases hlists.valids v hv with rfl | hscalar
  · exact iff_of_true rfl rfl
  · rw [hscalar.not_null.2.1, hscalar.not_null.2.2]

theorem named_isScalar {v : Value} (hv : v ∈ n.named) : v.IsScalar := by
  obtain ⟨hmem, hnot⟩ := List.mem_filter.mp hv
  rcases hlists.valids v hmem with rfl | hscalar
  · cases hnot
  · exact hscalar

end Named

/-! ## What the checked form says -/

section Checked

variable {h : Heap} {n : Node} {item item' : Option Value} {properties properties' : Option Fields}
  {marked : Bool} {fields : Fields}

theorem expand_denied {xs : List Value} (hxs : ∀ x ∈ xs, x.IsScalar) :
    expand (.ofFields [("enum", .list xs)]) = .ok (.ofFields [("enum", .list xs)]) := by
  have hlist : expand (.list xs) = .ok (.list xs) :=
    NullTypes.expand_atoms fun x hx => (hxs x hx).atom
  have hentries : NullTypes.expandEntries [(.str "enum", .list xs)] =
      .ok [(.str "enum", .list xs)] := by
    rw [NullTypes.expandEntries, hlist]
    rfl
  exact NullTypes.expand_without_mark rfl hentries (.cons ⟨rfl, hlist⟩ .nil)

theorem expandRel_refl {v : Option Value} (hv : ∀ u, v = some u → expand u = .ok u) :
    Option.Rel (fun v w => expand v = .ok w) v v := by
  cases v with
  | none => exact .none
  | some u => exact .some (hv u rfl)

/-- Only what keywords say about parts has another checked form. -/
theorem Heap.keyword?_expand (hlists : n.Lists Value.IsScalar)
    (hitem : Option.Rel (fun v w => expand v = .ok w) item item')
    (hproperties : Option.Rel (fun ps qs => expand (.ofEntries ps) = .ok (.ofEntries qs)) properties
      properties') (kw : Keyword) : Option.Rel (fun v w => expand v = .ok w)
        (h.keyword? n item properties kw) (h.keyword? n item' properties' kw) := by
  have hlimit : ∀ {chosen : Prop} [Decidable chosen] {limit? : Option Int},
      Option.Rel (fun v w => expand v = .ok w) (if chosen then limit?.map Value.int else none)
        (if chosen then limit?.map Value.int else none) := by
    intro chosen _ limit?
    refine expandRel_refl fun u hu => ?_
    split at hu
    · obtain ⟨i, _, rfl⟩ := Option.map_eq_some_iff.mp hu
      rfl
    · cases hu
  cases kw with
  | items => exact hitem
  | properties =>
    cases hproperties with
    | none => exact .none
    | some hexpand => exact .some hexpand
  | type => exact .some rfl
  | enum =>
    refine expandRel_refl fun u hu => ?_
    unfold keyword? at hu
    dsimp only at hu
    split at hu
    · cases hu
      exact NullTypes.expand_atoms fun x hx => (named_isScalar hlists hx).atom
    · cases hu
  | not =>
    refine expandRel_refl fun u hu => ?_
    unfold keyword? at hu
    dsimp only at hu
    split at hu
    · cases hu
    · cases hu
      exact expand_denied hlists.invalids
  | required =>
    refine expandRel_refl fun u hu => ?_
    unfold keyword? at hu
    dsimp only at hu
    split at hu
    · cases hu
    · cases hu
      refine NullTypes.expand_atoms fun x hx => ?_
      obtain ⟨k, _, rfl⟩ := List.mem_map.mp hx
      exact ⟨k, rfl⟩
  | additionalProperties =>
    refine expandRel_refl fun u hu => ?_
    unfold keyword? at hu
    dsimp only at hu
    split at hu <;> cases hu
    rfl
  | minimum => exact hlimit
  | maximum => exact hlimit
  | minLength => exact hlimit
  | maxLength => exact hlimit
  | minItems => exact hlimit
  | maxItems => exact hlimit
  | _ => exact .none

/-- In the checked form each keyword says what it said before, about the checked forms of the
parts, and null is admitted besides if the schema is marked. -/
theorem Heap.Describes.checked (hfields : h.Describes n item properties marked fields)
    (hlists : n.Lists Value.IsScalar)
    (hitem : Option.Rel (fun v w => expand v = .ok w) item item')
    (hproperties : Option.Rel (fun ps qs => expand (.ofEntries ps) = .ok (.ofEntries qs)) properties
      properties') {identity : Option Nat} :
    ∃ after, expand (.map fields identity) = .ok (.ofEntries after) ∧ Tidy after ∧
      ∀ kw : Keyword, OrderedMap.get? after (.str kw.name) =
        (h.keyword? n item' properties' kw).map (admittingNullIf marked kw.name) := by
  have hmark : OrderedMap.getD fields (.str "nullable") .null =
      if marked then .bool true else .null := by
    unfold OrderedMap.getD
    rw [hfields.mark]
    cases marked <;> rfl
  have henum : ∀ v, OrderedMap.get? fields (.str "enum") = some v →
      ∃ xs, v = .list xs ∧ (∀ x ∈ xs, ∃ a, x = .atom a) ∧ Value.null.isIn xs = false := by
    intro v hv
    have hkeyword := (hfields.keyword .enum).symm.trans hv
    unfold Heap.keyword? at hkeyword
    dsimp only at hkeyword
    split at hkeyword
    · cases hkeyword
      refine ⟨n.named, rfl, fun x hx => (named_isScalar hlists hx).atom, ?_⟩
      refine Bool.eq_false_iff.mpr fun hin => ?_
      obtain ⟨x, hx, hsame⟩ := List.any_eq_true.mp hin
      rw [(named_isScalar hlists hx).not_null.2.1] at hsame
      cases hsame
    · cases hkeyword
  obtain ⟨after, hafter, htidy, hget⟩ := NullTypes.expand_fields (h := hfields.toTidy)
    hfields.expands hmark henum
  refine ⟨after, hafter, htidy, fun kw => ?_⟩
  have hname : kw.name ≠ "nullable" := fun hname => by
    have hnot := Keyword.not_common kw
    rw [hname] at hnot
    exact hnot (by decide)
  have hkeyword := Heap.keyword?_expand (h := h) hlists hitem hproperties kw
  rw [← hfields.keyword kw] at hkeyword
  rcases NullTypes.rel_cases (hget kw.name hname) with
    ⟨hnone, hnone'⟩ | ⟨v, w, hsome, hsome', u, hexpand, rfl⟩
  · rw [hnone] at hkeyword
    rcases NullTypes.rel_cases hkeyword with ⟨_, hnone''⟩ | ⟨_, _, hsome, _, _⟩
    · rw [hnone', hnone'']
      rfl
    · cases hsome
  · rw [hsome] at hkeyword
    rcases NullTypes.rel_cases hkeyword with ⟨hnone, _⟩ | ⟨v', u', heq, hsome'', hexpand'⟩
    · cases hnone
    · cases heq
      rw [hexpand] at hexpand'
      cases hexpand'
      rw [hsome', hsome'']
      rfl

/-! ## The check of the checked form -/

/-- Schemas that accept what the parts of a node admit: that of the elements, and those of the
children that are not forbidden, in their order. -/
structure Heap.PartsAccepting (h : Heap) (n : Node) (item : Option Value)
    (properties : Option Fields) : Prop where
  item : List.Forall₂ h.Accepting n.items item.toList
  properties : List.Forall₂ (fun e p => p.1 = e.1 ∧ h.Accepting e.2 p.2)
    (n.children.filter fun e => !(h.view e.2).isForbidden) (properties.getD [])

theorem isMap_of_checkable {describe : Describe} {v : Value} (h : Checkable describe v) :
    v.isMap = true := by
  cases h with
  | intro => rfl

/-- A schema that only lists values. -/
theorem checkable_denied {describe : Describe} {xs : List Value}
    (hxs : ∀ x ∈ xs, x.Shown describe) : Checkable describe (.ofFields [("enum", .list xs)]) := by
  have hget : ∀ {kw : Keyword} {v : Value},
      OrderedMap.get? [(Atom.str "enum", Value.list xs)] (.str kw.name) = some v →
        kw = .enum ∧ v = .list xs := by
    intro kw v hv
    obtain ⟨k, hmem, hk⟩ := OrderedMap.mem_of_get? hv
    obtain ⟨rfl, rfl⟩ := Prod.mk.inj (List.mem_singleton.mp hmem)
    have hname := Atom.str.inj (Atom.str_beq_iff.mp hk)
    cases kw <;> first | exact ⟨rfl, rfl⟩ | exact absurd hname (by decide)
  refine .intro (List.pairwise_singleton _ _) (fun e he => ?_) (fun kw v hv => ?_)
    fun kw v u hv hu => ?_
  · obtain rfl := List.mem_singleton.mp he
    exact ⟨_, rfl⟩
  · obtain ⟨rfl, rfl⟩ := hget hv
    exact ⟨xs, rfl, hxs⟩
  · obtain ⟨rfl, rfl⟩ := hget hv
    cases hu

theorem accepts_denied {c : Checker} {xs : List Value} {x : Value}
    (hxs : ∀ x ∈ xs, x.Shown c.describe) (hx : x.IsJson) :
    c.Accepts (.ofFields [("enum", .list xs)]) x ↔ ∃ w ∈ xs, w.sameStrict x = true := by
  have hchecks : Checkable c.describe (.map [(.str "enum", .list xs)] none) := checkable_denied hxs
  refine (hchecks.accepts_iff hx).trans ⟨fun hall => hall .enum (.list xs) rfl xs rfl, ?_⟩
  intro hany kw v hv
  obtain ⟨k, hmem, hk⟩ := OrderedMap.mem_of_get? hv
  obtain ⟨rfl, rfl⟩ := Prod.mk.inj (List.mem_singleton.mp hmem)
  have hname := Atom.str.inj (Atom.str_beq_iff.mp hk)
  cases kw with
  | enum =>
    rintro ys heq
    cases heq
    exact hany
  | _ => exact absurd hname (by decide)

variable {s : Schema}

theorem admittingNullIf_of_ne {name : String} {v : Value} (htype : name ≠ "type")
    (henum : name ≠ "enum") : admittingNullIf marked name v = v := by
  unfold admittingNullIf
  rw [NullTypes.admittingNull_of_ne htype henum, ite_self]

/-- Null does not matter for most keywords. -/
theorem map_admittingNullIf {kw : Keyword} {found : Option Value} (htype : kw ≠ .type)
    (henum : kw ≠ .enum) : found.map (admittingNullIf marked kw.name) = found := by
  have hname : ∀ other : Keyword, kw ≠ other → kw.name ≠ other.name := by
    intro other hne hname
    have hkw := (Keyword.ofName?_name kw).symm.trans
      ((congrArg Keyword.ofName? hname).trans (Keyword.ofName?_name other))
    exact hne (Option.some.inj hkw)
  cases found with
  | none => rfl
  | some v => rw [Option.map_some, admittingNullIf_of_ne (hname .type htype) (hname .enum henum)]

theorem eq_of_map {kw : Keyword} {v : Value} {found : Option Value} (htype : kw ≠ .type)
    (henum : kw ≠ .enum) (hv : found.map (admittingNullIf marked kw.name) = some v) :
    found = some v := (map_admittingNullIf htype henum).symm.trans hv

/-- In the checked form of the schema of a plain node every keyword has a value of its form. -/
theorem Heap.Plain.form {describe : Describe} (hs : h.Plain s)
    (hparts : h.PartsAccepting (h.view s) item properties)
    (kw : Keyword) (v : Value)
    (hv : (h.keyword? (h.view s) item properties kw).map (admittingNullIf marked kw.name) = some v) :
    kw.Form describe v := by
  have hlimit : ∀ {chosen : Prop} [Decidable chosen] {limit? : Option Int} {v : Value},
      (if chosen then limit?.map Value.int else none) = some v → ∃ i, v = .int i := by
    intro chosen _ limit? v hv
    split at hv
    · obtain ⟨i, _, rfl⟩ := Option.map_eq_some_iff.mp hv
      exact ⟨i, rfl⟩
    · cases hv
  cases kw with
  | type =>
    obtain ⟨test, htest, _⟩ := hs.dataType
    obtain ⟨u, hu, rfl⟩ := Option.map_eq_some_iff.mp hv
    cases hu
    cases marked with
    | false =>
      refine ⟨[.str (h.view s).dataType], rfl, fun name hname => ?_⟩
      obtain rfl := List.mem_singleton.mp hname
      exact ⟨_, test, rfl, htest⟩
    | true =>
      refine ⟨[.str (h.view s).dataType, .str "null"], rfl, fun name hname => ?_⟩
      rcases List.mem_cons.mp hname with rfl | hname
      · exact ⟨_, test, rfl, htest⟩
      · obtain rfl := List.mem_singleton.mp hname
        exact ⟨_, _, rfl, rfl⟩
  | enum =>
    obtain ⟨u, hu, rfl⟩ := Option.map_eq_some_iff.mp hv
    unfold keyword? at hu
    dsimp only at hu
    split at hu
    · cases hu
      have hnamed : ∀ x ∈ (h.view s).named, x.Shown describe :=
        fun x hx => (named_isScalar hs.lists hx).shown
      cases marked with
      | false => exact ⟨_, rfl, hnamed⟩
      | true =>
        refine ⟨_, rfl, fun x hx => ?_⟩
        rcases List.mem_append.mp hx with hx | hx
        · exact hnamed x hx
        · obtain rfl := List.mem_singleton.mp hx
          exact ⟨_, rfl⟩
    · cases hu
  | not =>
    have hnot := eq_of_map (by decide) (by decide) hv
    unfold keyword? at hnot
    dsimp only at hnot
    split at hnot
    · cases hnot
    · cases hnot
      refine ⟨rfl, Value.shown_map (fun e he => ?_) fun e he => ?_⟩
      · obtain rfl := List.mem_singleton.mp he
        exact ⟨_, rfl⟩
      · obtain rfl := List.mem_singleton.mp he
        exact Value.shown_list fun x hx => (hs.lists.invalids x hx).shown
  | required =>
    have hkeys := eq_of_map (by decide) (by decide) hv
    unfold keyword? at hkeys
    dsimp only at hkeys
    split at hkeys
    · cases hkeys
    · rename_i hsome
      cases hkeys
      refine ⟨_, rfl, fun k hk => ?_⟩
      obtain ⟨c, hc, rfl⟩ := List.mem_map.mp hk
      have hchild := List.mem_of_mem_filter hc
      have hnode : ∀ id, c.1 ≠ .node id := (hs.children.2 c hchild).2.1
      change ∃ text, c.1.quoted describe = .ok text
      cases hatom : c.1 with
      | node id => exact absurd hatom (hnode id)
      | _ => exact ⟨_, rfl⟩
  | items =>
    have hitem : item = some v := eq_of_map (by decide) (by decide) hv
    obtain ⟨t, _, haccepting⟩ := forall₂_right hparts.item (Option.mem_toList.mpr hitem)
    exact isMap_of_checkable (@haccepting.checkable describe)
  | properties =>
    obtain ⟨ps, _, rfl⟩ := Option.map_eq_some_iff.mp (eq_of_map (by decide) (by decide) hv)
    rfl
  | additionalProperties =>
    have hclosed := eq_of_map (by decide) (by decide) hv
    unfold keyword? at hclosed
    dsimp only at hclosed
    split at hclosed
    · cases hclosed
      exact .inl rfl
    · cases hclosed
  | minimum => exact hlimit (eq_of_map (by decide) (by decide) hv)
  | maximum => exact hlimit (eq_of_map (by decide) (by decide) hv)
  | minLength => exact hlimit (eq_of_map (by decide) (by decide) hv)
  | maxLength => exact hlimit (eq_of_map (by decide) (by decide) hv)
  | minItems => exact hlimit (eq_of_map (by decide) (by decide) hv)
  | maxItems => exact hlimit (eq_of_map (by decide) (by decide) hv)
  | _ =>
    obtain ⟨_, hu, _⟩ := Option.map_eq_some_iff.mp hv
    cases hu

section Accepts

variable (hs : h.Plain s) (hparts : h.PartsAccepting (h.view s) item properties)
  (hget : ∀ kw : Keyword, OrderedMap.get? fields (.str kw.name) =
    (h.keyword? (h.view s) item properties kw).map (admittingNullIf marked kw.name))
include hs hparts hget

theorem Heap.Plain.checkable {describe : Describe} (htidy : Tidy fields) :
    Checkable describe (.ofEntries fields) := by
  have hform : ∀ (kw : Keyword) v, OrderedMap.get? fields (.str kw.name) = some v →
      kw.Form describe v :=
    fun kw v hv => hs.form hparts kw v ((hget kw).symm.trans hv)
  have hsaid : ∀ {kw : Keyword} {v : Value}, kw ≠ .type → kw ≠ .enum →
      OrderedMap.get? fields (.str kw.name) = some v →
        h.keyword? (h.view s) item properties kw = some v :=
    fun {kw} _ htype henum hv => eq_of_map htype henum ((hget kw).symm.trans hv)
  refine .intro htidy.separate htidy.text hform fun kw v u hv hu => ?_
  cases hu with
  | @property ps _ p hp =>
    obtain ⟨ps', hproperties, heq⟩ := Option.map_eq_some_iff.mp
      (@hsaid .properties _ (by decide) (by decide) hv)
    cases heq
    have hmem : p ∈ properties.getD [] := by rwa [hproperties]
    obtain ⟨e, _, _, haccepting⟩ := forall₂_right hparts.properties hmem
    exact haccepting.checkable
  | additional hmap =>
    have hclosed := @hsaid .additionalProperties _ (by decide) (by decide) hv
    unfold keyword? at hclosed
    dsimp only at hclosed
    split at hclosed
    · cases hclosed
      cases hmap
    · cases hclosed
  | item =>
    have hitem : item = some v := @hsaid .items _ (by decide) (by decide) hv
    obtain ⟨t, _, haccepting⟩ := forall₂_right hparts.item (Option.mem_toList.mpr hitem)
    exact haccepting.checkable
  | denied =>
    have hnot := @hsaid .not _ (by decide) (by decide) hv
    unfold keyword? at hnot
    dsimp only at hnot
    split at hnot
    · cases hnot
    · cases hnot
      exact checkable_denied fun x hx => (hs.lists.invalids x hx).shown
  | branch => cases @hsaid .oneOf _ (by decide) (by decide) hv

end Accepts

end Checked

end WireShape
