import WireShape.Proofs.Compile.Branches
import WireShape.Proofs.Compile.Depth
import WireShape.Proofs.Formed.Walks

/-!
# Schemas that are regular at every depth

Beyond the form of single entries, the entries of a schema fit together: what is required is among the
properties and in their order, lists of branches and of choices are not empty, no branch is listed
twice, and a format takes the place of a pattern. Each step of a walk keeps this, in the schema that
it puts together and in all schemas inside it, whatever is known and whichever classes are defined on
the way.

* `Value.Fields.Regular`: fields whose entries fit together.
* `Value.RegularThroughout`: schemas all of whose schemas have regular fields, at any depth.
* `Node.assemble_regular`: what is put together from such schemas is such a schema.
* `Heap.compiled_regular`: the outcome of a walk is such a schema, and so are the definitions that it
  creates.
-/

namespace WireShape

open Value (Fields)

/-! ## Regular fields -/

/-- Of the distinct ones no two are equal. -/
theorem distinct_pairwise {xs : List Value} :
    (distinct xs).Pairwise fun x y => x.same y = false := by
  refine List.foldlRecOn (motive := List.Pairwise fun x y : Value => x.same y = false) xs _ .nil
    fun kept hkept x _ => ?_
  split
  · exact hkept
  · rename_i hnew
    refine List.pairwise_append.mpr ⟨hkept, List.pairwise_singleton _ _, fun y hy z hz => ?_⟩
    rw [List.mem_singleton.mp hz]
    refine Bool.eq_false_iff.mpr fun hsame => hnew ?_
    exact List.any_eq_true.mpr ⟨y, hy, hsame⟩

namespace Value

/-- Fields that fit together: the properties are a mapping, what is required is a part of its keys in
their order, no list of branches or of choices is empty, no two branches of a list are equal, and
there is not both a format and a pattern. -/
structure Fields.Regular (fields : Fields) : Prop where
  properties : ∀ {v}, OrderedMap.get? fields (.str "properties") = some v →
    ∃ entries, v = .ofEntries entries
  required : ∀ {v}, OrderedMap.get? fields (.str "required") = some v →
    ∃ (keys : List Atom) (properties : Fields), v = .list (keys.map .atom) ∧
      OrderedMap.get? fields (.str "properties") = some (.ofEntries properties) ∧ keys ≠ [] ∧
        keys.Pairwise (fun j k => (j == k) = false) ∧ keys.Sublist (OrderedMap.keys properties)
  branches : ∀ {mode v}, OrderedMap.get? fields (.str (mode ++ "Of")) = some v →
    ∃ xs, v = .list xs ∧ xs ≠ [] ∧ xs.Pairwise fun x y => x.same y = false
  choices : ∀ {v}, OrderedMap.get? fields (.str "enum") = some v → ∃ xs, v = .list xs ∧ xs ≠ []
  denied : ∀ {v}, OrderedMap.get? fields (.str "not") = some v →
    ∃ xs, v = .ofFields [("enum", .list xs)] ∧ xs ≠ []
  apart : OrderedMap.get? fields (.str "format") = none ∨
    OrderedMap.get? fields (.str "pattern") = none

/-- Every schema in a value, at any depth, is a mapping with regular fields. -/
def RegularThroughout (v : Value) : Prop :=
  ∀ path u, SchemaAt v path u →
    ∃ (fields : Fields) (identity : Option Nat), u = .map fields identity ∧ fields.Regular

end Value

/-- The keywords, besides those of branches, whose values have to fit together. -/
def fittingKeywords : List String := ["properties", "required", "enum", "not", "format", "pattern"]

/-- The keywords that say nothing about the entries of a schema: annotations and marks. -/
def freeKeywords : List String := "x-required" :: commonKeywords

theorem branches_not_free {mode : String} : mode ++ "Of" ∉ freeKeywords := of_not_mem (by decide)

theorem Inside.not_free {name : String} {v u : Value} {steps : List Atom}
    (hu : Inside name v steps u) : name ∉ freeKeywords := by
  cases hu with
  | branch => exact branches_not_free
  | _ => decide

namespace Value

variable {fields other : Fields} {identity : Option Nat} {v w : Value}

/-- Fields are regular if they have the keywords that fit together from regular fields, and their lists
of branches from these or new. -/
theorem Fields.Regular.transfer (h : fields.Regular) (hget : ∀ name ∈ fittingKeywords,
      OrderedMap.get? other (.str name) = OrderedMap.get? fields (.str name))
    (hbranches : ∀ mode v, OrderedMap.get? other (.str (mode ++ "Of")) = some v →
      OrderedMap.get? fields (.str (mode ++ "Of")) = some v ∨
        ∃ xs, v = .list xs ∧ xs ≠ [] ∧ xs.Pairwise fun x y => x.same y = false) :
    other.Regular where
  properties hv := by
    rw [hget _ (by decide)] at hv
    exact h.properties hv
  required hv := by
    rw [hget _ (by decide)] at hv ⊢
    exact h.required hv
  branches hv := (hbranches _ _ hv).elim h.branches id
  choices hv := by
    rw [hget _ (by decide)] at hv
    exact h.choices hv
  denied hv := by
    rw [hget _ (by decide)] at hv
    exact h.denied hv
  apart := by
    rw [hget _ (by decide), hget _ (by decide)]
    exact h.apart

/-- Without any of the keywords fields are regular. -/
theorem Fields.Regular.of_none (hproperties : OrderedMap.get? fields (.str "properties") = none)
    (hrequired : OrderedMap.get? fields (.str "required") = none)
    (hbranches : ∀ mode, OrderedMap.get? fields (.str (mode ++ "Of")) = none)
    (hchoices : OrderedMap.get? fields (.str "enum") = none)
    (hdenied : OrderedMap.get? fields (.str "not") = none)
    (hformat : OrderedMap.get? fields (.str "format") = none) : fields.Regular where
  properties hv := nomatch hproperties.symm.trans hv
  required hv := nomatch hrequired.symm.trans hv
  branches hv := nomatch (hbranches _).symm.trans hv
  choices hv := nomatch hchoices.symm.trans hv
  denied hv := nomatch hdenied.symm.trans hv
  apart := .inl hformat

namespace RegularThroughout

/-- A mapping is regular throughout if its fields are regular and all schemas inside it are regular
throughout. -/
theorem map_iff : (Value.map fields identity).RegularThroughout ↔ fields.Regular ∧
    ∀ name v steps u, OrderedMap.get? fields (.str name) = some v → Inside name v steps u →
      u.RegularThroughout := by
  constructor
  · intro h
    obtain ⟨_, _, heq, hregular⟩ := h [] _ .here
    cases heq
    exact ⟨hregular, fun name v steps u hv hu path w hw => h _ w (.inside hv hu hw)⟩
  · rintro ⟨hregular, hinner⟩ path u hu
    cases hu with
    | here => exact ⟨fields, identity, rfl, hregular⟩
    | inside hvalue hinside hw => exact hinner _ _ _ _ hvalue hinside _ _ hw

theorem exists_map (h : v.RegularThroughout) :
    ∃ (fields : Fields) (identity : Option Nat), v = .map fields identity := by
  obtain ⟨fields, identity, rfl, -⟩ := h [] v .here
  exact ⟨fields, identity, rfl⟩

/-- Annotations and marks leave a schema regular. -/
theorem congr (h : (Value.map fields identity).RegularThroughout) {identity' : Option Nat}
    (hget : ∀ name, name ∉ freeKeywords →
      OrderedMap.get? other (.str name) = OrderedMap.get? fields (.str name)) :
    (Value.map other identity').RegularThroughout := by
  obtain ⟨hregular, hinner⟩ := map_iff.mp h
  refine map_iff.mpr ⟨hregular.transfer (fun name hname => hget name ?_) fun mode v hv => .inl ?_,
    fun name v steps u hv hu => ?_⟩
  · have hfree : ∀ name ∈ fittingKeywords, name ∉ freeKeywords := by decide
    exact hfree name hname
  · exact (hget _ branches_not_free).symm.trans hv
  · exact hinner _ _ _ _ ((hget _ hu.not_free).symm.trans hv) hu

theorem annotate {n : Node} (h : (Value.ofEntries fields).RegularThroughout) :
    (Value.ofEntries (annotate n fields)).RegularThroughout :=
  h.congr fun _ hname => get?_annotate fun hmem => hname (List.mem_cons_of_mem _ hmem)

theorem marked (h : v.RegularThroughout) (hw : markRequired v = .ok w) : w.RegularThroughout := by
  obtain ⟨fields, identity, rfl⟩ := h.exists_map
  cases hw
  exact h.congr fun _ hname => get?_set_of_ne fun heq => hname (heq ▸ List.mem_cons_self)

theorem nil : (Value.ofEntries []).RegularThroughout :=
  map_iff.mpr ⟨.of_none rfl rfl (fun _ => rfl) rfl rfl rfl, nofun⟩

/-- A list of branches that are regular throughout may be written. -/
theorem set_branches {mode : String} {xs : List Value}
    (h : (Value.ofEntries fields).RegularThroughout) (hxs : xs ≠ [])
    (hpairwise : xs.Pairwise fun x y => x.same y = false) (hall : ∀ x ∈ xs, x.RegularThroughout) :
    (Value.ofEntries (fields.set (mode ++ "Of") (.list xs))).RegularThroughout := by
  obtain ⟨hregular, hinner⟩ := map_iff.mp h
  have hother : ∀ {name : String}, name.toList.getLast? ≠ some 'f' →
      OrderedMap.get? (fields.set (mode ++ "Of") (.list xs)) (.str name) =
        OrderedMap.get? fields (.str name) :=
    fun hname => get?_set_of_ne fun heq => hname (ends_with_of heq)
  refine map_iff.mpr ⟨hregular.transfer (fun name hname => hother ?_) fun mode' v hv => ?_,
    fun name v steps u hv hu => ?_⟩
  · have hends : ∀ name ∈ fittingKeywords, name.toList.getLast? ≠ some 'f' := by decide
    exact hends name hname
  · by_cases hsame : mode ++ "Of" = mode' ++ "Of"
    · rw [hsame, get?_set_self] at hv
      cases hv
      exact .inr ⟨xs, rfl, hxs, hpairwise⟩
    · exact .inl ((get?_set_of_ne hsame).symm.trans hv)
  · by_cases hsame : mode ++ "Of" = name
    · rw [hsame, get?_set_self] at hv
      cases hv
      cases hu with
      | branch hx => exact hall _ (List.mem_of_getElem? hx)
      | _ => exact absurd (ends_with_of hsame) (by decide)
    · rw [get?_set_of_ne hsame] at hv
      exact hinner _ _ _ _ hv hu

/-- The distinct branches that are listed under a keyword. -/
theorem merge_branches {mode : String} {values : List Value}
    (h : (Value.ofEntries fields).RegularThroughout) (hall : ∀ x ∈ values, x.RegularThroughout) :
    (Value.ofEntries (fields.merge (branchKeyword (mode ++ "Of") values))).RegularThroughout := by
  unfold branchKeyword
  split
  · exact h
  · rename_i hne
    exact h.set_branches hne distinct_pairwise fun x hx => hall x (mem_distinct hx)

theorem itemsValue {schemas : List Value} (hall : ∀ x ∈ schemas, x.RegularThroughout) :
    (itemsValue schemas).RegularThroughout :=
  itemsValue_forall hall nil fun hne hdistinct =>
    @set_branches _ "one" _ nil hne distinct_pairwise hdistinct

/-- One entry under a keyword that no schema stands in. -/
theorem single {name : String} {v : Value} (hregular : (Fields.set [] name v).Regular)
    (hinner : ∀ steps u, ¬ Inside name v steps u) :
    (Value.ofEntries (Fields.set [] name v)).RegularThroughout := by
  refine map_iff.mpr ⟨hregular, fun other w steps u hw hu => ?_⟩
  by_cases hsame : name = other
  · subst hsame
    rw [get?_set_self] at hw
    cases hw
    exact absurd hu (hinner steps u)
  · rw [get?_set_of_ne hsame] at hw
    cases hw

/-- A reference says nothing else. -/
theorem reference {place what : String} : (reference place what).RegularThroughout := by
  have hnone : ∀ name, "$ref" ≠ name → OrderedMap.get?
      (Fields.set [] "$ref" (.str (bucketPath place ++ what))) (.str name) = none :=
    fun _ hne => get?_set_of_ne hne
  have hof : ∀ mode, mode ++ "Of" ≠ "$ref" :=
    fun mode heq => absurd (isSuffix_of_ends heq) (by decide)
  refine single (.of_none (hnone _ (by decide)) (hnone _ (by decide))
    (fun mode => hnone _ (hof mode).symm) (hnone _ (by decide)) (hnone _ (by decide))
    (hnone _ (by decide))) fun steps u hu => ?_
  generalize hname : "$ref" = name at hu
  cases hu with
  | _ => exact absurd hname (by decide)

/-- What is denied is a list of choices. -/
theorem choices {xs : List Value} (hxs : xs ≠ []) :
    (Value.ofFields [("enum", .list xs)]).RegularThroughout := by
  have hnone : ∀ name, "enum" ≠ name →
      OrderedMap.get? (Fields.set [] "enum" (.list xs)) (.str name) = none :=
    fun _ hne => get?_set_of_ne hne
  have hof : ∀ mode, mode ++ "Of" ≠ "enum" :=
    fun mode heq => absurd (ends_with_of heq) (by decide)
  refine single ⟨fun hv => ?_, fun hv => ?_, fun hv => ?_, fun hv => ?_, fun hv => ?_,
    .inl (hnone _ (by decide))⟩ fun steps u hu => ?_
  · exact nomatch (hnone _ (by decide)).symm.trans hv
  · exact nomatch (hnone _ (by decide)).symm.trans hv
  · exact nomatch (hnone _ (hof _).symm).symm.trans hv
  · rw [get?_set_self] at hv
    exact ⟨xs, (Option.some.inj hv).symm, hxs⟩
  · exact nomatch (hnone _ (by decide)).symm.trans hv
  · generalize hname : "enum" = name at hu
    cases hu with
    | branch => exact hof _ hname.symm
    | _ => exact absurd hname (by decide)

end RegularThroughout

end Value

/-! ## Scalars -/

section Scalars

variable {n : Node} {fields : Fields} {accept : Value → Bool} {v : Value}

theorem valueKeywords_separate : OrderedMap.Separate (n.valueKeywords accept) := by
  unfold Node.valueKeywords
  dsimp only
  have hstart : ∀ (chosen : Bool) (xs : List Value), OrderedMap.Separate
      (if chosen then Fields.set [] "enum" (.list xs) else []) := by
    intro chosen xs
    split
    · exact OrderedMap.Separate.insert .nil
    · exact .nil
  split
  · exact hstart _ _
  · exact OrderedMap.Separate.insert (hstart _ _)

/-- The choices of a scalar are listed only if there are any. -/
theorem valueKeywords_enum (hv : OrderedMap.get? (n.valueKeywords accept) (.str "enum") = some v) :
    ∃ xs, v = .list xs ∧ xs ≠ [] := by
  have hstart : ∀ xs : List Value, OrderedMap.get? (if (n.flag "only").truthy && !xs.isEmpty then
      Fields.set [] "enum" (.list xs) else []) (.str "enum") = some v → v = .list xs ∧ xs ≠ [] := by
    intro xs hget
    split at hget
    · rename_i hchosen
      rw [get?_set_self] at hget
      refine ⟨(Option.some.inj hget).symm, ?_⟩
      rintro rfl
      rw [List.isEmpty_nil, Bool.not_true, Bool.and_false] at hchosen
      cases hchosen
    · cases hget
  unfold Node.valueKeywords at hv
  dsimp only at hv
  split at hv
  · exact ⟨_, hstart _ hv⟩
  · rw [get?_set_of_ne (by decide)] at hv
    exact ⟨_, hstart _ hv⟩

/-- What a scalar denies is listed only if there is any. -/
theorem valueKeywords_not (hv : OrderedMap.get? (n.valueKeywords accept) (.str "not") = some v) :
    ∃ xs, v = .ofFields [("enum", .list xs)] ∧ xs ≠ [] := by
  unfold Node.valueKeywords at hv
  dsimp only at hv
  split at hv
  · split at hv
    · rw [get?_set_of_ne (by decide)] at hv
      cases hv
    · cases hv
  · rename_i hsome
    rw [get?_set_self] at hv
    refine ⟨_, (Option.some.inj hv).symm, ?_⟩
    intro hnil
    rw [hnil] at hsome
    exact hsome rfl

namespace Scalar

/-- A text has a format or a pattern, but not both: where a format is written, the pattern goes. -/
theorem formatKeyword_apart :
    OrderedMap.get? (formatKeyword n (patternKeyword n (Fields.set [] "type" (.str "string"))))
        (.str "format") = none ∨
      OrderedMap.get? (formatKeyword n (patternKeyword n (Fields.set [] "type" (.str "string"))))
        (.str "pattern") = none := by
  refine formatKeyword_keeps (I := fun fields => OrderedMap.get? fields (.str "format") = none ∨
    OrderedMap.get? fields (.str "pattern") = none) (.inl ?_) fun fields fmt _ => .inr ?_
  · have hpattern : (patternKeyword n (Fields.set [] "type" (.str "string"))).Among
        ["type", "pattern"] := patternKeyword_among (by decide) (.set .nil (by decide))
    exact hpattern.get?_eq_none (by decide)
  · exact OrderedMap.get?_erase_self

theorem keywords_apart {kind : Scalar} (h : kind.keywords n = .ok fields) :
    OrderedMap.get? fields (.str "format") = none ∨
      OrderedMap.get? fields (.str "pattern") = none := by
  by_cases hstring : kind = string
  · subst hstring
    obtain ⟨sizes, hsizes, rfl⟩ := stringKeywords_own h
    have hlengths : sizes.Among ["minLength", "maxLength"] :=
      sizeKeywords_among (by decide) (by decide) hsizes
    have hkept : ∀ name, name ∉ ["minLength", "maxLength"] → name ∉ valueKeywordNames →
        OrderedMap.get? (((formatKeyword n (patternKeyword n
          (Fields.set [] "type" (.str "string")))).merge sizes).merge
            (n.valueKeywords Value.isText)) (.str name) =
          OrderedMap.get? (formatKeyword n (patternKeyword n
            (Fields.set [] "type" (.str "string")))) (.str name) := by
      intro name hsize hvalue
      exact (OrderedMap.get?_update_of_none (valueKeywords_among.get?_eq_none hvalue)).trans
        (OrderedMap.get?_update_of_none (hlengths.get?_eq_none hsize))
    rw [hkept _ (by decide) (by decide), hkept _ (by decide) (by decide)]
    exact formatKeyword_apart
  · -- No other kind writes a pattern.
    obtain ⟨own, values, hown, hvalues, rfl⟩ := keywords_own h
    right
    have hpattern : "pattern" ∉ kind.ownKeywords := by
      revert hstring
      cases kind <;> decide
    have hnone : OrderedMap.get? values (.str "pattern") = none := by
      rcases hvalues with rfl | ⟨accept, rfl⟩
      · rfl
      · exact valueKeywords_among.get?_eq_none (by decide)
    exact (OrderedMap.get?_update_of_none hnone).trans (hown.get?_eq_none hpattern)

/-- The keywords of a scalar are regular; the only schema inside them is what is denied. -/
theorem keywords_regular {kind : Scalar} (h : kind.keywords n = .ok fields) :
    (Value.ofEntries fields).RegularThroughout := by
  have hamong := keywords_among h
  have hof : ∀ mode, mode ++ "Of" ∉ scalarKeywords := fun _ => of_not_mem (by decide)
  obtain ⟨own, values, hown, hvalues, hfields⟩ := keywords_own h
  -- Choices and denials are those of the values.
  have hvalue : ∀ {name v}, name ∉ kind.ownKeywords → OrderedMap.get? fields (.str name) = some v →
      ∃ accept, OrderedMap.get? (n.valueKeywords accept) (.str name) = some v := by
    intro name v hname hv
    rw [hfields] at hv
    rcases hvalues with rfl | ⟨accept, rfl⟩
    · exact absurd ((hown.get?_eq_none hname).symm.trans hv) nofun
    · refine ⟨accept, ?_⟩
      rw [Fields.merge, OrderedMap.get?_update valueKeywords_separate, hown.get?_eq_none hname,
        Option.or_none] at hv
      exact hv
  have hdenied : ∀ {v}, OrderedMap.get? fields (.str "not") = some v →
      ∃ xs, v = .ofFields [("enum", .list xs)] ∧ xs ≠ [] := by
    intro v hv
    obtain ⟨accept, hget⟩ := hvalue (by cases kind <;> decide) hv
    exact valueKeywords_not hget
  refine Value.RegularThroughout.map_iff.mpr ⟨⟨?_, ?_, ?_, ?_, hdenied, keywords_apart h⟩, ?_⟩
  · intro v hv
    exact absurd ((hamong.get?_eq_none (by decide)).symm.trans hv) nofun
  · intro v hv
    exact absurd ((hamong.get?_eq_none (by decide)).symm.trans hv) nofun
  · intro mode v hv
    exact absurd ((hamong.get?_eq_none (hof mode)).symm.trans hv) nofun
  · intro v hv
    obtain ⟨accept, hget⟩ := hvalue (by cases kind <;> decide) hv
    exact valueKeywords_enum hget
  · intro name v steps u hv hu
    cases hu with
    | denied =>
      obtain ⟨xs, rfl, hxs⟩ := hdenied hv
      exact .choices hxs
    | branch => exact absurd ((hamong.get?_eq_none (hof _)).symm.trans hv) nofun
    | _ => exact absurd ((hamong.get?_eq_none (by decide)).symm.trans hv) nofun

end Scalar

end Scalars

/-! ## Nodes with parts -/

section Parts

variable {h : Heap} {n : Node} {fields own : Fields} {outcomes whenOutcomes : List Compiled}
  {v : Value}

/-- The keys of the children that give a schema and are required. -/
def requiredKeys (h : Heap) (pairs : List ((Atom × Schema) × Compiled)) : List Atom :=
  (pairs.filter fun p => p.2.isSome && (h.view p.1.2).isRequired).map (·.1.1)

/-- What is required are the keys of required children, in their order. -/
theorem childFields_required :
    (childFields h n outcomes).2 = (requiredKeys h (n.children.zip outcomes)).map .atom := by
  have hfold : ∀ (pairs : List ((Atom × Schema) × Compiled)) (acc : Fields × List Value),
      (pairs.foldl (fun acc p => addChild h acc p.1 p.2) acc).2 =
        acc.2 ++ (requiredKeys h pairs).map .atom := by
    intro pairs
    induction pairs with
    | nil => exact fun acc => (List.append_nil acc.2).symm
    | cons p pairs ih =>
      intro acc
      obtain ⟨entry, outcome⟩ := p
      rw [List.foldl_cons, ih]
      unfold requiredKeys
      rw [List.filter_cons]
      cases outcome with
      | none => rfl
      | some v =>
        cases hrequired : (h.view entry.2).isRequired with
        | true => simp [addChild, hrequired]
        | false => simp [addChild, hrequired]
  exact hfold (n.children.zip outcomes) ([], [])

/-- Required keys are among the shown ones, in their order. -/
theorem requiredKeys_sublist {children : List (Atom × Schema)} :
    (requiredKeys h (children.zip outcomes)).Sublist (shownKeys children outcomes) := by
  have hshown : shownKeys children outcomes =
      ((children.zip outcomes).filter fun p => p.2.isSome).map (·.1.1) := by
    unfold shownKeys shownChildren
    induction children.zip outcomes with
    | nil => rfl
    | cons p pairs ih =>
      rw [List.filterMap_cons, List.filter_cons]
      cases hp : p.2 with
      | none => exact ih
      | some v => exact congrArg (p.1.1 :: ·) ih
  rw [hshown]
  refine List.Sublist.map _ (List.monotone_filter_right _ fun p hp => ?_)
  exact (Bool.and_eq_true_iff.mp hp).1

/-- What is required of an object stands beside its properties. -/
theorem closeObject_required {properties : Fields} {required : List Value} {additional : Compiled} :
    OrderedMap.get? (closeObject n properties required additional) (.str "required") =
      if required.isEmpty then none else some (.list required) := by
  have hclosed : ∀ fields : Fields, OrderedMap.get?
      (if n.isClosed then fields.set "additionalProperties" (.bool false) else fields)
        (.str "required") = OrderedMap.get? fields (.str "required") := by
    intro fields
    split
    · exact get?_set_of_ne (by decide)
    · rfl
  have hrequired : OrderedMap.get? (if required.isEmpty then
      (Fields.set [] "type" (.str "object")).set "properties" (.ofEntries properties) else
      ((Fields.set [] "type" (.str "object")).set "properties" (.ofEntries properties)).set "required"
        (.list required)) (.str "required") =
          if required.isEmpty then none else some (.list required) := by
    split
    · rfl
    · exact get?_set_self
  have hfields := (hclosed _).trans hrequired
  cases additional with
  | none => exact hfields
  | some schema =>
    unfold closeObject
    dsimp only
    split
    · exact (get?_set_of_ne (by decide)).trans hfields
    · exact hfields

/-- The fields of an object with different keys. -/
theorem objectFields_regular (hkeys : OrderedMap.Separate n.children)
    (ho : ∀ v, some v ∈ outcomes → v.RegularThroughout) :
    (Value.ofEntries (objectFields h n outcomes)).RegularThroughout := by
  have hamong : (objectFields h n outcomes).Among objectKeywords := closeObject_among
  have hof : ∀ mode, mode ++ "Of" ∉ objectKeywords := fun _ => of_not_mem (by decide)
  have hnone : ∀ {name v}, name ∉ objectKeywords →
      OrderedMap.get? (objectFields h n outcomes) (.str name) ≠ some v :=
    fun hname hv => nomatch (hamong.get?_eq_none hname).symm.trans hv
  refine Value.RegularThroughout.map_iff.mpr ⟨⟨fun hv => ?_, fun hv => ?_,
    fun hv => absurd hv (hnone (hof _)),
    fun hv => absurd hv (hnone (by decide)), fun hv => absurd hv (hnone (by decide)),
    .inl (hamong.get?_eq_none (by decide))⟩, fun name v steps u hv hu => ?_⟩
  · rw [objectFields, closeObject_get?] at hv
    exact ⟨_, (Option.some.inj hv).symm⟩
  · rw [objectFields, closeObject_required] at hv
    split at hv
    · cases hv
    · rename_i hsome
      rw [childFields_required] at hv hsome
      refine ⟨requiredKeys h (n.children.zip outcomes), shownChildren n.children outcomes,
        (Option.some.inj hv).symm, ?_, ?_, ?_, requiredKeys_sublist⟩
      · rw [objectFields, closeObject_get?, childFields_eq hkeys]
      · rintro hnil
        rw [hnil] at hsome
        exact hsome rfl
      · have hseparate : (shownKeys n.children outcomes).Pairwise fun j k => (j == k) = false :=
          List.pairwise_map.mpr (shownChildren_separate hkeys)
        exact hseparate.sublist requiredKeys_sublist
  · cases hu with
    | property he =>
      rw [objectFields, closeObject_get?] at hv
      cases hv
      exact ho _ (childFields_mem he)
    | additional hopen =>
      rw [objectFields, closeObject_additional, Option.or_eq_some_iff] at hv
      rcases hv with hschema | ⟨-, hfalse⟩
      · have hopened := (Option.filter_eq_some_iff.mp hschema).1
        split at hopened
        · exact ho v (List.mem_of_head? (Option.join_eq_some_iff.mp hopened))
        · cases hopened
      · split at hfalse
        · exact absurd (Option.some.inj hfalse).symm hopen
        · cases hfalse
    | branch => exact absurd hv (hnone (hof _))
    | _ => exact absurd hv (hnone (by decide))

/-- The fields of an array. -/
theorem arrayFields_regular (ho : ∀ v, some v ∈ outcomes → v.RegularThroughout)
    (hfields : arrayFields n outcomes = .ok fields) :
    (Value.ofEntries fields).RegularThroughout := by
  have hamong := arrayFields_among hfields
  have hof : ∀ mode, mode ++ "Of" ∉ arrayKeywords := fun _ => of_not_mem (by decide)
  have hnone : ∀ {name}, name ∉ arrayKeywords → OrderedMap.get? fields (.str name) = none :=
    fun hname => hamong.get?_eq_none hname
  refine Value.RegularThroughout.map_iff.mpr ⟨.of_none (hnone (by decide)) (hnone (by decide))
    (fun mode => hnone (hof mode)) (hnone (by decide)) (hnone (by decide)) (hnone (by decide)),
    fun name v steps u hv hu => ?_⟩
  cases hu with
  | item =>
    cases (arrayFields_get? hfields).symm.trans hv
    refine .itemsValue fun x hx => ho x ?_
    obtain ⟨r, hr, rfl⟩ := List.mem_filterMap.mp hx
    exact hr
  | branch => exact nomatch (hnone (hof _)).symm.trans hv
  | _ => exact nomatch (hnone (by decide)).symm.trans hv

theorem branchKeyword_merge {keyword : String} {values : List Value} :
    Fields.merge [] (branchKeyword keyword values) = branchKeyword keyword values := by
  unfold branchKeyword
  split <;> rfl

/-- If a node is an object, its keys are different. -/
def Node.KeysApart (n : Node) : Prop := n.kind? = some .object → OrderedMap.Separate n.children

/-- What a kind says is regular throughout, if the outcomes of the parts are. -/
theorem Kind.fields_regular {kind : Kind} (hkeys : kind = .object → OrderedMap.Separate n.children)
    (ho : ∀ v, some v ∈ outcomes → v.RegularThroughout)
    (hfields : kind.fields h n outcomes = .ok fields) :
    (Value.ofEntries fields).RegularThroughout := by
  cases kind with
  | scalar kind => exact Scalar.keywords_regular hfields
  | object =>
    cases hfields
    exact objectFields_regular (hkeys rfl) ho
  | array => exact arrayFields_regular ho hfields
  | alternatives =>
    obtain ⟨mode, _, hrest⟩ := bind_eq_ok_iff.mp hfields
    obtain ⟨values, hvalues, hpure⟩ := bind_eq_ok_iff.mp hrest
    cases hpure
    have hmerged := @Value.RegularThroughout.merge_branches [] mode values .nil
      (branchValues_forall .marked ho hvalues)
    rw [branchKeyword_merge] at hmerged
    exact hmerged

/-- What is put together from the outcomes of the parts is regular throughout, if these are. -/
theorem Node.assemble_regular {kind : Kind} (hliteral : n.literal.truthy = false)
    (hkeys : kind = .object → OrderedMap.Separate n.children)
    (ho : ∀ v, some v ∈ outcomes → v.RegularThroughout)
    (hw : ∀ v, some v ∈ whenOutcomes → v.RegularThroughout)
    (hfields : n.assemble h kind outcomes whenOutcomes = .ok fields) :
    (Value.ofEntries fields).RegularThroughout := by
  obtain ⟨own, values, hown, hvalues, rfl⟩ := Node.assemble_eq_ok hliteral hfields
  obtain ⟨mode, hmode⟩ := n.whenKeyword_eq
  rw [hmode]
  exact ((Kind.fields_regular hkeys ho hown).merge_branches
    (branchValues_forall .marked hw hvalues)).annotate

end Parts

/-! ## Walks -/

section Walks

variable {h : Heap} {s : Schema} {overriding : Bool} {ctx after : Context} {r : Compiled}

/-- The schemas along a chain have a property, if each outcome has it. -/
theorem Chain.forall_outcomes {R : Schema → Context → Compiled → Context → Prop}
    {P : Value → Prop} {xs : List Schema} {outcomes : List Compiled}
    (hR : ∀ x ∈ xs, ∀ ctx r after, R x ctx r after → ∀ v, r = some v → P v)
    (hchain : Chain R xs ctx outcomes after) : ∀ v, some v ∈ outcomes → P v := by
  intro v hv
  obtain ⟨_, _, hall⟩ := forall₂_right
    (hchain.answers (P := fun _ r => ∀ v, r = some v → P v) hR) hv
  exact hall v rfl

/-- The outcome of a walk is regular throughout, where no schema is literal and children have
different keys. -/
theorem Walked.regular (hliteral : ∀ t, h.Reaches s t → (h.view t).literal.isNull = true)
    (hkeys : ∀ t, h.Reaches s t → (h.view t).KeysApart)
    (hrun : Walked h s overriding ctx r after) : ∀ v, r = some v → v.RegularThroughout := by
  revert hliteral hkeys
  refine hrun.induct (P := fun s _ _ r _ => (∀ t, h.Reaches s t → (h.view t).literal.isNull = true) →
    (∀ t, h.Reaches s t → (h.view t).KeysApart) →
      ∀ v, r = some v → v.RegularThroughout) ?_
  intro s overriding ctx r after hstep hliteral hkeys
  have hbelow : ∀ {t : Schema}, h.Holds s t →
      (∀ u, h.Reaches t u → (h.view u).literal.isNull = true) ∧
        ∀ u, h.Reaches t u → (h.view u).KeysApart :=
    fun ht => ⟨fun u hu => hliteral u (.head ht hu), fun u hu => hkeys u (.head ht hu)⟩
  cases hstep with
  | override _ ht hr => exact hr.2 (hbelow (.inr ht)).1 (hbelow (.inr ht)).2
  | literal _ hnot =>
    exact absurd ((Node.not_literal (hliteral s .refl)).symm.trans hnot) Bool.false_ne_true
  | known =>
    rintro v ⟨⟩
    exact .reference
  | forbidden => exact nofun
  | compiled _ _ _ _ _ _ hkind hparts hwhens hfields hfinish =>
    have hschema := Node.assemble_regular (Node.literal_falsy (hliteral s .refl))
      (fun hobject => hkeys s .refl (hkind.trans (congrArg some hobject)))
      (hparts.forall_outcomes fun t ht _ _ _ hr =>
        hr.2 (hbelow (.inl (Kind.mem_parts ht))).1 (hbelow (.inl (Kind.mem_parts ht))).2)
      (hwhens.forall_outcomes fun t ht _ _ _ hr =>
        hr.2 (hbelow (.inl (Node.mem_whenParts ht))).1 (hbelow (.inl (Node.mem_whenParts ht))).2)
      hfields
    cases hfinish with
    | plain =>
      rintro v ⟨⟩
      exact hschema
    | define =>
      rintro v ⟨⟩
      exact .reference

/-- So is the definition of a class. -/
theorem Heap.Defines.regular {bucket name : Atom} {d : Value}
    (hliteral : ∀ t, h.Reaches s t → (h.view t).literal.isNull = true)
    (hkeys : ∀ t, h.Reaches s t → (h.view t).KeysApart)
    (hd : h.Defines s bucket name d) : d.RegularThroughout := by
  cases hd with
  | literal _ hnot =>
    exact absurd ((Node.not_literal (hliteral s .refl)).symm.trans hnot) Bool.false_ne_true
  | compiled _ _ _ _ hkind hparts hwhens hfields =>
    have hwalked : ∀ {t : Schema}, h.Holds s t → ∀ ctx r after, Walked h t false ctx r after →
        ∀ v, r = some v → v.RegularThroughout :=
      fun ht _ _ _ hr => hr.regular (fun u hu => hliteral u (.head ht hu))
        fun u hu => hkeys u (.head ht hu)
    exact Node.assemble_regular (Node.literal_falsy (hliteral s .refl))
      (fun hobject => hkeys s .refl (hkind.trans (congrArg some hobject)))
      (hparts.forall_outcomes fun _ ht => hwalked (.inl (Kind.mem_parts ht)))
      (hwhens.forall_outcomes fun _ ht => hwalked (.inl (Node.mem_whenParts ht))) hfields

/-- Where no schema is literal and the keys of each object are different, whatever is known:
the schema that a value is compiled to is regular at every depth, and so is each definition that is
created on the way. -/
theorem Heap.compiled_regular {known : Components} {v : Value} {c : CompiledSchema}
    (hv : rootSchema v = .ok s)
    (hliteral : ∀ t, h.Reaches s t → (h.view t).literal.isNull = true)
    (hkeys : ∀ t, h.Reaches s t → (h.view t).KeysApart)
    (hc : (h.compileAgainst known v).1 = .ok (some c)) :
    c.schema.RegularThroughout ∧
      ∀ bucket ∈ c.components, ∀ entry ∈ bucket.2, entry.2.RegularThroughout := by
  obtain ⟨r, after, hrun, hr⟩ := compileAgainst_eq_ok_iff.mp hc
  obtain ⟨schema, rfl, rfl⟩ := Option.map_eq_some_iff.mp hr.symm
  obtain ⟨s', hs', hrun⟩ := runs_compile_iff.mp hrun
  cases hv.symm.trans hs'
  have hwalked : Walked h s false { known } (some schema) after := ⟨_, hrun⟩
  have hcreated : after.created.Each (fun _ => True) Value.RegularThroughout := by
    refine hwalked.creates (I := Components.Each (fun _ => True) Value.RegularThroughout)
      (fun t b n d c ht hd hc => hc.define trivial trivial ?_) nofun
    exact hd.regular (fun u hu => hliteral u (ht.reaches.trans hu))
      fun u hu => hkeys u (ht.reaches.trans hu)
  exact ⟨hwalked.regular hliteral hkeys schema rfl,
    fun bucket hbucket entry hentry => ((hcreated bucket hbucket).2 entry hentry).2⟩

end Walks

/-- Codes that are addresses, sizes of which some are denied, lines of both under a class, and a
basket with a list of lines and codes, a note under two conditions, and a field that is forbidden. -/
def basketHeap : Heap where
  nodes := #[
    { kind := "string", rules := [.alphanum, .email], flags := [("presence", .str "required")] },
    { kind := "number", valids := [.int 1, .int 2], invalids := [.int 3],
      flags := [("only", .bool true)] },
    { kind := "object", children := [(.str "size", .node 1), (.str "code", .node 0)],
      metadata := [(.str "className", .str "Line")] },
    { kind := "array", items := [.node 2, .node 0, .node 2], flags := [("presence", .str "required")] },
    { kind := "any", whens := [{ condition := .str "code", consequent := some (.node 0) },
      { condition := .str "size", consequent := some (.node 0), alternative := some (.node 1) }] },
    { kind := "string", flags := [("presence", .str "forbidden")] },
    { kind := "object", children := [(.str "note", .node 4), (.str "lines", .node 3),
      (.str "gone", .node 5), (.str "code", .node 0)] }]

/-- Nothing in a basket is literal, and its keys are different. -/
theorem basketHeap_plain {t : Schema} (ht : basketHeap.Reaches (.node 6) t) :
    (basketHeap.view t).literal.isNull = true ∧ (basketHeap.view t).KeysApart := by
  have hdescends : basketHeap.Descends := Heap.descends_of_nodes (by decide)
  obtain ⟨j, hj, rfl⟩ := hdescends.reaches ht
  unfold Node.KeysApart OrderedMap.Separate
  rcases j with _ | _ | _ | _ | _ | _ | _ | j
  · exact ⟨rfl, nofun⟩
  · exact ⟨rfl, nofun⟩
  · exact ⟨rfl, fun _ => by decide⟩
  · exact ⟨rfl, nofun⟩
  · exact ⟨rfl, nofun⟩
  · exact ⟨rfl, nofun⟩
  · exact ⟨rfl, fun _ => by decide⟩
  · exact absurd hj (Nat.not_le.mpr (Nat.le_add_left 7 j))

/-- A basket is regular at every depth, and the lines in it are. -/
theorem Heap.compiled_regular_basket : ∃ c,
    (basketHeap.compileAgainst [(.str "schemas", [(.str "Price", .ofEntries [])])] (.node 6)).1 =
      .ok (some c) ∧ c.schema.RegularThroughout ∧ c.components.length = 1 ∧
        ∀ bucket ∈ c.components, ∀ entry ∈ bucket.2, entry.2.RegularThroughout := by
  obtain ⟨c, hc, hlength⟩ : ∃ c, (basketHeap.compileAgainst
      [(.str "schemas", [(.str "Price", .ofEntries [])])] (.node 6)).1 = .ok (some c) ∧
        c.components.length = 1 := ⟨_, rfl, rfl⟩
  obtain ⟨hschema, hcomponents⟩ := compiled_regular rfl (fun _ ht => (basketHeap_plain ht).1)
    (fun _ ht => (basketHeap_plain ht).2) hc
  exact ⟨c, hc, hschema, hlength, hcomponents⟩

end WireShape
