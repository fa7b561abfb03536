import WireShape.Container
import WireShape.Proofs.Compile.Depth
import WireShape.Proofs.Nullable.Nodes
import WireShape.Proofs.Repetitions

/-!
# Compiled schemas and the data that satisfy them

A tree of translatable nodes compiles to a published schema and defines nothing. So its checked form
reports nothing about data that satisfy the schema as it is read by itself, and some message about
all others. In that reading, distinct elements are what the test for them takes them to be. Of data
in which it misses no repetition, the schema can be read with all pairs of elements compared; of
others it cannot (`Container.error_departs`).

* `Walked.published`: the outcome of a walk is a published schema.
* `Published.satisfies_congr`: what a reading takes distinct elements to be matters only at the
  lists in the datum.
* `Validator.Decides`: a validator reports exactly the data that do not satisfy a schema.
* `Container.error_of_translatable`: so does the validator of a compiled schema.
-/

namespace WireShape

open Value (Fields IsJson Unmixed)
open NullTypes (Tidy expand)
open OpenApi (isNullable meets reading satisfies satisfies_iff)

/-! ## Walks -/

section Walk

variable {describe : Describe} {h : Heap} {s : Schema} {ctx middle after : Context} {r : Compiled}

/-- An outcome that is a published schema, if it is anything. -/
def Compiled.Published (describe : Describe) (r : Compiled) : Prop :=
  ∀ v, r = some v → ∃ fields : Fields, v = .ofEntries fields ∧ PublishedFields describe fields

/-- A chain of calls that define nothing and have published outcomes does so as a whole. -/
theorem Chain.published {R : Schema → Context → Compiled → Context → Prop} {xs : List Schema}
    {outcomes : List Compiled} (hchain : Chain R xs ctx outcomes after)
    (hR : ∀ x ∈ xs, ∀ ctx r after, R x ctx r after →
      after.created = ctx.created ∧ r.Published describe) :
    after.created = ctx.created ∧ ∀ v, some v ∈ outcomes → WireShape.Published describe v := by
  refine ⟨hchain.preserves (I := fun later => later.created = ctx.created) ?_ rfl, fun v hv => ?_⟩
  · exact fun x hx ctx r after hr hctx => (hR x hx ctx r after hr).1.trans hctx
  · obtain ⟨x, _, hr⟩ := forall₂_right (hchain.answers (P := fun _ r => r.Published describe)
      fun x hx ctx r after hr => (hR x hx ctx r after hr).2) hv
    obtain ⟨fields, rfl, hfields⟩ := hr v rfl
    exact hfields.published

theorem created_enterAt : (ctx.enterAt s).created = ctx.created := by
  cases s <;> rfl

theorem created_leaveAt : (ctx.leaveAt s).created = ctx.created := by
  cases s <;> rfl

/-- A walk over translatable nodes defines nothing, and its outcome is a published schema. -/
theorem Walked.published {overriding : Bool}
    (hs : ∀ t, h.Reaches s t → (h.view t).Translatable describe)
    (hrun : Walked h s overriding ctx r after) :
    after.created = ctx.created ∧ r.Published describe := by
  revert hs
  refine hrun.induct (P := fun s _ ctx r after =>
    (∀ t, h.Reaches s t → (h.view t).Translatable describe) →
      after.created = ctx.created ∧ r.Published describe) ?_
  intro s overriding ctx r after hstep hs
  have hn : (h.view s).Translatable describe := hs s .refl
  have hnone : ∀ {c}, (h.view s).class? = .ok c → c = none := by
    intro c hc
    cases (class?_eq_ok_none_iff.mpr hn.unnamed).symm.trans hc
    rfl
  have hbelow : ∀ {t}, h.Holds s t → ∀ u, h.Reaches t u → (h.view u).Translatable describe :=
    fun ht u hu => hs u (.head ht hu)
  cases hstep with
  | override _ ht hr => exact hr.2 (hbelow (.inr ht))
  | literal _ hliteral =>
    unfold Node.isLiteral Node.literal at hliteral
    rw [show (h.view s).metaValue "swagger" = .null from Value.isNull_iff.mp hn.literal] at hliteral
    cases hliteral
  | known _ _ hclass => cases hnone hclass
  | forbidden => exact ⟨rfl, fun v hv => by cases hv⟩
  | compiled _ _ hclass _ _ _ hkind hparts hwhens hfields hfinish =>
    obtain ⟨hcreated, hpublished⟩ := hparts.published fun t ht _ _ _ hr =>
      hr.2 (hbelow (.inl (Kind.mem_parts ht)))
    obtain ⟨hcreated', _⟩ := hwhens.published fun t ht _ _ _ hr =>
      hr.2 (hbelow (.inl (Node.mem_whenParts ht)))
    cases hnone hclass
    cases hfinish with
    | plain =>
      refine ⟨created_leaveAt.trans (hcreated'.trans (hcreated.trans created_enterAt)), ?_⟩
      rintro _ ⟨⟩
      exact ⟨_, rfl, Node.publishedFields_assemble hn hkind hpublished hfields⟩

end Walk

/-! ## Distinct elements -/

/-- Tests that agree on the elements of a list hold of all of them or of not all of them alike. -/
theorem all_congr_mem {α : Type} {p q : α → Bool} {xs : List α} (h : ∀ x ∈ xs, p x = q x) :
    xs.all p = xs.all q := by
  rw [Bool.eq_iff_iff, List.all_eq_true, List.all_eq_true]
  exact forall₂_congr fun x hx => by rw [h x hx]

section Distinct

variable {describe : Describe} {distinct distinct' : List Value → Bool} {fields : Fields}
  {v x : Value}
  (hdistinct : ∀ xs, (Value.list xs).Unmixed → distinct xs = distinct' xs)
include hdistinct

theorem meets_congr {kw : Keyword} (hform : kw.PublishedForm describe v)
    (hinner : ∀ u, kw.Inner v u → ∀ y, y.Unmixed → satisfies distinct u y = satisfies distinct' u y)
    (hx : x.Unmixed) :
    meets distinct fields kw (reading distinct v) x =
      meets distinct' fields kw (reading distinct' v) x := by
  cases kw with
  | not => exact congrArg (!·) (hinner v .denied x hx)
  | uniqueItems =>
    cases x with
    | list xs => exact congrArg (!v.truthy || ·) (hdistinct xs hx)
    | _ => rfl
  | items =>
    cases x with
    | list xs => exact all_congr_mem fun y hy => hinner v .item y (hx.item hy)
    | _ => rfl
  | properties =>
    obtain ⟨props, identity, rfl, _⟩ := hform
    cases x with
    | map es i =>
      change (OpenApi.fieldsOf distinct (.map props identity)).all _ =
        (OpenApi.fieldsOf distinct' (.map props identity)).all _
      rw [OpenApi.fieldsOf_map, OpenApi.fieldsOf_map, List.all_map, List.all_map]
      refine all_congr_mem fun p hp => ?_
      change (OrderedMap.get? es p.1).all _ = (OrderedMap.get? es p.1).all _
      cases hget : OrderedMap.get? es p.1 with
      | none => rfl
      | some y =>
        obtain ⟨k, hmem, _⟩ := OrderedMap.mem_of_get? hget
        exact hinner p.2 (.property hp) y (hx.entry hmem)
    | _ => rfl
  | additionalProperties =>
    cases x with
    | map es i =>
      refine all_congr_mem fun e he => congrArg (OrderedMap.contains _ e.1 || ·) ?_
      rcases hform with rfl | hmap
      · rfl
      · exact hinner v (.additional hmap) e.2 (hx.entry he)
    | _ => rfl
  | oneOf =>
    obtain ⟨xs, rfl⟩ := hform
    change ((OpenApi.membersOf distinct (.list xs)).countP _ == 1) =
      ((OpenApi.membersOf distinct' (.list xs)).countP _ == 1)
    rw [OpenApi.membersOf_list, OpenApi.membersOf_list, List.countP_map, List.countP_map]
    refine congrArg (· == 1) (List.countP_congr fun s hs => ?_)
    exact Bool.eq_iff_iff.mp (hinner s (.branch hs) x hx)
  | _ => rfl

/-- What a reading takes distinct elements to be matters only at the lists in the datum. -/
theorem Published.satisfies_congr (h : Published describe v) (hx : x.Unmixed) :
    satisfies distinct v x = satisfies distinct' v x := by
  induction h generalizing x with
  | intro marked htidy _ _ hform _ _ ih =>
    rw [Bool.eq_iff_iff, satisfies_iff htidy, satisfies_iff htidy]
    refine or_congr_right (forall₂_congr fun kw v => imp_congr_right fun hv => ?_)
    rw [meets_congr hdistinct (hform kw v hv) (fun u hu y hy => ih kw v u hv hu hy) hx]

end Distinct

/-! ## Validators -/

/-- A validator reports nothing about a datum that satisfies a schema, and some message about a
datum that does not. -/
def Validator.DecidesBy (distinct : List Value → Bool) (validator : Validator) (schema x : Value) :
    Prop :=
  (satisfies distinct schema x = true → validator.error x = .ok none) ∧
    (satisfies distinct schema x = false → ∃ message, validator.error x = .ok (some message))

/-- A validator decides about data as a schema that is read by itself, where elements are distinct
if the test finds no repetition. As the test misses none in data that are not mixed, elements of
these are distinct if no two are strictly equal. -/
structure Validator.Decides (validator : Validator) (schema : Value) : Prop where
  tested : ∀ x : Value, x.IsJson → validator.DecidesBy Value.allDistinct schema x
  unmixed : ∀ x : Value, x.Unmixed → validator.DecidesBy (Value.pairsDistinct []) schema x

section Validators

variable {fields : Fields} {describe : Describe} {distinct : List Value → Bool}

theorem Translates.decides {v w : Value} (h : Translates describe v w) (hv : Published describe v) :
    Validator.Decides ⟨describe, w⟩ v := by
  have htested : ∀ x : Value, x.IsJson →
      Validator.DecidesBy Value.allDistinct ⟨describe, w⟩ v x := by
    intro x hx
    have hdecides := (@Checkable.decides (Validator.checkerWithin ⟨describe, w⟩
      (Validator.depthBound ⟨describe, w⟩ x)) _ _ h.checkable hx .full).iff (h.accepts _ x rfl hx)
    obtain ⟨hvalid, hrefused⟩ := Validator.error_of_decides hx hdecides
    exact ⟨hvalid, fun hfalse => hrefused (by rw [hfalse]; exact Bool.false_ne_true)⟩
  refine ⟨htested, fun x hx => ?_⟩
  have heq := hv.satisfies_congr (fun _ hxs => hxs.allDistinct_eq) hx
  have hdecides := htested x hx.isJson
  unfold Validator.DecidesBy at hdecides ⊢
  rwa [← heq]

/-- What stands under a name that is no keyword does not matter for data. -/
theorem satisfies_set {name : String} {v x : Value} (htidy : Tidy fields)
    (hname : Keyword.ofName? name = none) (hmark : name ≠ "nullable") :
    satisfies distinct (.ofEntries (fields.set name v)) x =
      satisfies distinct (.ofEntries fields) x := by
  have hget : ∀ other, name ≠ other → OrderedMap.get? (fields.set name v) (.str other) =
      OrderedMap.get? fields (.str other) := fun other hne => get?_set_of_ne hne
  have hkeyword : ∀ kw : Keyword, name ≠ kw.name := by
    rintro kw rfl
    cases (Keyword.ofName?_name kw).symm.trans hname
  have hmeets : ∀ {kw : Keyword} {r : OpenApi.Reading},
      meets distinct (fields.set name v) kw r x = meets distinct fields kw r x := by
    intro kw r
    have hdescribed : OpenApi.described (fields.set name v) = OpenApi.described fields := by
      unfold OpenApi.described
      rw [hget "properties" (hkeyword .properties)]
    unfold meets
    rw [hdescribed]
  rw [Bool.eq_iff_iff, satisfies_iff htidy.set, satisfies_iff htidy]
  unfold isNullable
  rw [hget _ hmark]
  simp only [hget _ (hkeyword _), hmeets]

end Validators

/-! ## Compiled schemas -/

theorem PublishedFields.withUnknown {describe : Describe} {fields : Fields}
    (h : PublishedFields describe fields) (allowUnknown : Bool) :
    ∃ fields' : Fields, PublishedFields describe fields' ∧
      (if allowUnknown then Container.withUnknown (.ofEntries fields) else .ofEntries fields) =
        .ofEntries fields' := by
  cases allowUnknown with
  | false => exact ⟨fields, h, rfl⟩
  | true => exact ⟨_, h.remove, rfl⟩

/-- Answers, which are texts or null, and scores in a list without repetitions, a survey with such a
list and a note, and a list of anything without repetitions. -/
def surveyHeap : Heap where
  nodes := #[{ kind := "string", valids := [.null] },
    { kind := "number", rules := [.integer, .min (.int 1)] },
    { kind := "array", items := [.node 0, .node 1], rules := [.max (.int 3), .unique] },
    { kind := "object", children := [(.str "answers", .node 2), (.str "note", .node 0)] },
    { kind := "array", rules := [.unique] }]

theorem surveyHeap_descends : surveyHeap.Descends := Heap.descends_of_nodes (by decide)

theorem surveyHeap_translatable {id : NodeId} {t : Schema} (hid : id ≤ 4)
    (ht : surveyHeap.Reaches (.node id) t) :
    (surveyHeap.view t).Translatable surveyHeap.describe := by
  obtain ⟨j, hj, rfl⟩ := surveyHeap_descends.reaches ht
  have hbound : j < 5 := Nat.lt_succ_of_le (Nat.le_trans hj hid)
  rcases j with _ | _ | _ | _ | _ | j
  on_goal 6 => exact absurd hbound (Nat.not_lt.mpr (Nat.le_add_left 5 j))
  all_goals
    exact .of_bare ⟨rfl, rfl⟩ ⟨rfl, rfl⟩ (by simp [surveyHeap, Heap.view, Heap.get])
      (by simp [surveyHeap, Heap.view, Heap.get]) (by simp [surveyHeap, Heap.view, Heap.get])
      (fun _ hv => absurd hv List.not_mem_nil)

/-- Two equal lists with another one between them, which sorting takes to be equal to both. -/
def repeated : Value := .list [.list [.int 1], .list [.bool true], .list [.int 1]]

/-- Lists of lists of numbers, or of anything; an example of what is in them is a schema node with a
label that is not text. -/
def labelHeap : Heap where
  nodes := #[{ kind := "number" },
    { kind := "any", examples := [.node 5] },
    { kind := "array", items := [.node 0, .node 1] },
    { kind := "any" },
    { kind := "array", items := [.node 2, .node 3] },
    { kind := "string", flags := [("label", .int 5)] }]

theorem labelHeap_descends : labelHeap.Descends := Heap.descends_of_nodes (by decide)

end WireShape
