import WireShape.Container
import WireShape.Proofs.Equality
import WireShape.Proofs.References

/-!
# References replaced by what they refer to

A schema means what is left when each mapping that refers to a definition is replaced by the
definition, itself expanded, with the other entries of the mapping written over it. Expansion need
not end, so it is computed up to a depth, and a value expands if it does so at some depth.

* `splitReference`: bucket and name in the text of a reference.
* `expandWithin`: the expansion of a value.
* `expandWithin_mono`, `expandWithin_unique`: more depth does not change the result.
* `expandWithin_keeps`: properties that go through lists and mappings go over to expansions.
* `Likeness`: relations that go through lists and mappings.
* `expandWithin_like`: like values expand to like values, also by definitions that are alike.
-/

namespace WireShape

open Value (Fields)

/-! ## The text of a reference -/

/-- Bucket and name in the text of a reference; none for any other text. -/
def splitReference (target : String) : Option (String × String) :=
  let path := target.toList.drop Container.referenceStart.length
  if Container.referenceStart.toList.isPrefixOf target.toList && path.contains '/' then
    some (String.ofList (path.takeWhile (· != '/')),
      String.ofList (path.dropWhile (· != '/')).tail)
  else none

/-- The path of a definition names its bucket and its name, if a bucket is a single step. -/
theorem splitReference_path {bucket name : String} (hbucket : '/' ∉ bucket.toList) :
    splitReference (bucketPath bucket ++ name) = some (bucket, name) := by
  have htext : (bucketPath bucket ++ name).toList =
      Container.referenceStart.toList ++ (bucket.toList ++ '/' :: name.toList) := by
    unfold bucketPath
    rw [String.toList_append, String.toList_append, String.toList_append]
    simp [Container.referenceStart]
  have hpath : (bucketPath bucket ++ name).toList.drop Container.referenceStart.length =
      bucket.toList ++ '/' :: name.toList := by
    rw [htext, ← String.length_toList, List.drop_left]
  have hstep : ∀ c ∈ bucket.toList, (c != '/') = true := by
    intro c hc
    rw [bne_iff_ne]
    rintro rfl
    exact hbucket hc
  have hprefix : Container.referenceStart.toList.isPrefixOf (bucketPath bucket ++ name).toList =
      true := by
    rw [List.isPrefixOf_iff_prefix, htext]
    exact List.prefix_append _ _
  have hcontains : (bucket.toList ++ '/' :: name.toList).contains '/' = true := by simp
  unfold splitReference
  dsimp only
  rw [hpath, hprefix, hcontains, Bool.and_self, if_pos rfl, List.takeWhile_append_of_pos hstep,
    List.dropWhile_append_of_pos hstep]
  simp

namespace Value

/-- The text that a value is; none for any other value. -/
def text? : Value → Option String
  | .str s => some s
  | _ => none

theorem text?_eq_some_iff {v : Value} {s : String} : v.text? = some s ↔ v = .str s := by
  unfold text?
  split
  · rw [Option.some.injEq, Value.atom.injEq, Atom.str.injEq]
  · rename_i hother
    exact iff_of_false (fun h => by cases h) (hother s)

/-- Like values are the same text, or both none. -/
theorem text?_of_alike {v w : Value} (h : v.alike w = true) : v.text? = w.text? := by
  refine Option.ext fun s => ?_
  rw [text?_eq_some_iff, text?_eq_some_iff]
  constructor
  · rintro rfl
    exact str_alike_iff.mp h
  · rintro rfl
    exact alike_str_iff.mp h

/-- The text under the key of references; none if there is no entry or no text. -/
def Fields.refText? (fields : Fields) : Option String := do
  (← OrderedMap.get? fields refKey).text?

/-- Bucket and name that a mapping refers to; none if it is no reference. -/
def Fields.target? (fields : Fields) : Option (String × String) := do
  splitReference (← fields.refText?)

/-- A mapping with other entries written over it; none for any other value. -/
def overwrite (v : Value) (entries : Fields) : Option Value :=
  match v with
  | .map fields _ => some (.ofEntries (Fields.merge fields entries))
  | _ => none

end Value

/-! ## Expansion -/

/-- A way to look up definitions by bucket and name. -/
abbrev Lookup := String → String → Option Value

/-- The definitions as they are looked up by references. -/
def Components.lookup (c : Components) : Lookup :=
  fun bucket name => c.find? (.str bucket) (.str name)

/-- An entry with another value. -/
def expandEntry (expand : Value → Option Value) (e : Atom × Value) : Option (Atom × Value) :=
  (expand e.2).map fun v => (e.1, v)

/-- A value with every reference in it replaced by the definition that it leads to, with the other
entries of the referring mapping written over that; none if the depth is not enough, or if a
reference leads to nothing or to no mapping. -/
def expandWithin (find : Lookup) : Nat → Value → Option Value
  | 0, _ => none
  | depth + 1, .list xs => (xs.mapM (expandWithin find depth)).map .list
  | depth + 1, .map fields identity => do
    let expanded ← fields.mapM (expandEntry (expandWithin find depth))
    match Fields.target? fields with
    | none => return .map expanded identity
    | some (bucket, name) =>
      (← expandWithin find depth (← find bucket name)).overwrite (Fields.remove expanded "$ref")
  | _ + 1, v => some v

section Expansion

variable {find find' : Lookup} {depth depth' : Nat} {es fs : Fields} {xs ys : List Value}
  {i : Option Nat} {k : Atom} {u v w : Value} {bucket name : String}

/-- A computation of each element succeeds if each of them does. -/
theorem mapM_eq_some_iff {α β : Type} {f : α → Option β} {xs : List α} {ys : List β} :
    xs.mapM f = some ys ↔ List.Forall₂ (fun x y => f x = some y) xs ys := by
  induction xs generalizing ys with
  | nil => simp [List.forall₂_nil_left_iff, eq_comm]
  | cons x xs ih =>
    simp only [List.mapM_cons, Option.bind_eq_bind, Option.bind_eq_some_iff, ih, Option.pure_def,
      Option.some.injEq]
    constructor
    · rintro ⟨y, hy, ys, hys, rfl⟩
      exact .cons hy hys
    · intro hall
      cases hall with
      | cons hy hys => exact ⟨_, hy, _, hys, rfl⟩

/-- Entries of one key, the value of the first of which expands to that of the second. -/
structure EntryExpands (find : Lookup) (depth : Nat) (e e' : Atom × Value) : Prop where
  key : e.1 = e'.1
  value : expandWithin find depth e.2 = some e'.2

/-- Fields with the same keys, the values of the first of which expand to those of the second. -/
abbrev FieldsExpand (find : Lookup) (depth : Nat) : Fields → Fields → Prop :=
  List.Forall₂ (EntryExpands find depth)

theorem mapM_expandEntry_iff : es.mapM (expandEntry (expandWithin find depth)) = some fs ↔
    FieldsExpand find depth es fs := by
  rw [mapM_eq_some_iff]
  refine iff_of_eq (congrArg (List.Forall₂ · es fs) ?_)
  funext e e'
  refine propext (Option.map_eq_some_iff.trans ⟨?_, fun h => ⟨e'.2, h.value, Prod.ext h.key rfl⟩⟩)
  rintro ⟨v, hv, rfl⟩
  exact ⟨rfl, hv⟩

theorem expandWithin_list_iff : expandWithin find (depth + 1) (.list xs) = some w ↔
    ∃ ys, List.Forall₂ (fun x y => expandWithin find depth x = some y) xs ys ∧ w = .list ys := by
  simp only [expandWithin, Option.map_eq_some_iff, mapM_eq_some_iff, eq_comm (a := w)]

/-- A mapping that is no reference expands entry by entry. -/
theorem expandWithin_map_iff (htarget : Fields.target? es = none) :
    expandWithin find (depth + 1) (.map es i) = some w ↔
      ∃ fs, FieldsExpand find depth es fs ∧ w = .map fs i := by
  simp only [expandWithin, htarget, Option.bind_eq_bind, Option.bind_eq_some_iff,
    mapM_expandEntry_iff, Option.pure_def, Option.some.injEq, eq_comm (a := w)]

/-- A reference expands to what it leads to, with its other entries written over that. -/
theorem expandWithin_reference_iff (htarget : Fields.target? es = some (bucket, name)) :
    expandWithin find (depth + 1) (.map es i) = some w ↔ ∃ fs d ds j,
      FieldsExpand find depth es fs ∧ find bucket name = some d ∧
        expandWithin find depth d = some (.map ds j) ∧
          w = .ofEntries (Fields.merge ds (Fields.remove fs "$ref")) := by
  simp only [expandWithin, htarget, Option.bind_eq_bind, Option.bind_eq_some_iff,
    mapM_expandEntry_iff]
  constructor
  · rintro ⟨fs, hfs, d, hd, v, hv, hw⟩
    cases v with
    | map ds j =>
      cases hw
      exact ⟨fs, d, ds, j, hfs, hd, hv, rfl⟩
    | _ => cases hw
  · rintro ⟨fs, d, ds, j, hfs, hd, hv, rfl⟩
    exact ⟨fs, hfs, d, hd, _, hv, rfl⟩

/-- What is neither a list nor a mapping stays as it is. -/
theorem expandWithin_atom {a : Atom} :
    expandWithin find (depth + 1) (.atom a) = some (.atom a) := rfl

/-- A plain reference expands to what its definition expands to. -/
theorem expandWithin_reference {bucket name : String} {d : Value} {ds : Fields} {i : Option Nat}
    (hbucket : '/' ∉ bucket.toList) (hd : find bucket name = some d)
    (hds : expandWithin find depth d = some (.map ds i)) :
    expandWithin find (depth + 1) (reference bucket name) = some (.ofEntries ds) := by
  obtain ⟨depth, rfl⟩ : ∃ n, depth = n + 1 := by
    cases depth with
    | zero => cases hds
    | succ n => exact ⟨n, rfl⟩
  have htarget : Fields.target? [(refKey, .str (bucketPath bucket ++ name))] = some (bucket, name) :=
    splitReference_path hbucket
  exact (expandWithin_reference_iff htarget).mpr ⟨_, d, ds, i,
    .cons ⟨rfl, expandWithin_atom⟩ .nil, hd, hds, rfl⟩

/-- Only mappings expand to mappings. -/
theorem exists_map_of_expandWithin (h : expandWithin find depth v = some (.map fs i)) :
    ∃ es j, v = .map es j := by
  cases depth with
  | zero => cases h
  | succ depth =>
    cases v with
    | map es j => exact ⟨es, j, rfl⟩
    | list xs =>
      obtain ⟨_, _, heq⟩ := expandWithin_list_iff.mp h
      cases heq
    | _ => cases h

/-- Mappings expand to mappings. -/
theorem expandWithin_isMap (h : expandWithin find depth (.map es i) = some u) :
    ∃ fs j, u = .map fs j := by
  cases depth with
  | zero => cases h
  | succ depth =>
    cases htarget : Fields.target? es with
    | none =>
      obtain ⟨fs, _, rfl⟩ := (expandWithin_map_iff htarget).mp h
      exact ⟨fs, i, rfl⟩
    | some target =>
      obtain ⟨fs, _, ds, _, _, _, _, rfl⟩ := (expandWithin_reference_iff htarget).mp h
      exact ⟨_, none, rfl⟩

/-! ## Depth -/

theorem FieldsExpand.mono (hvalue : ∀ v w, expandWithin find depth v = some w →
    expandWithin find depth' v = some w) (h : FieldsExpand find depth es fs) :
    FieldsExpand find depth' es fs :=
  h.imp fun _ _ he => ⟨he.key, hvalue _ _ he.value⟩

/-- With more depth the expansion is the same. -/
theorem expandWithin_mono (hle : depth ≤ depth') (h : expandWithin find depth v = some w) :
    expandWithin find depth' v = some w := by
  induction depth generalizing depth' v w with
  | zero => cases h
  | succ depth ih =>
    obtain ⟨depth', rfl⟩ : ∃ n, depth' = n + 1 := Nat.exists_eq_add_one.mpr (by omega)
    have hvalue : ∀ v w, expandWithin find depth v = some w → expandWithin find depth' v = some w :=
      fun v w => ih (Nat.le_of_succ_le_succ hle)
    cases v with
    | list xs =>
      obtain ⟨ys, hall, rfl⟩ := expandWithin_list_iff.mp h
      exact expandWithin_list_iff.mpr ⟨ys, hall.imp fun _ _ => hvalue _ _, rfl⟩
    | map es i =>
      cases htarget : Fields.target? es with
      | none =>
        obtain ⟨fs, hfs, rfl⟩ := (expandWithin_map_iff htarget).mp h
        exact (expandWithin_map_iff htarget).mpr ⟨fs, FieldsExpand.mono hvalue hfs, rfl⟩
      | some target =>
        obtain ⟨fs, d, ds, j, hfs, hd, hds, rfl⟩ := (expandWithin_reference_iff htarget).mp h
        exact (expandWithin_reference_iff htarget).mpr
          ⟨fs, d, ds, j, FieldsExpand.mono hvalue hfs, hd, hvalue _ _ hds, rfl⟩
    | _ =>
      cases h
      rfl

/-- A value has one expansion. -/
theorem expandWithin_unique (h : expandWithin find depth v = some u)
    (h' : expandWithin find depth' v = some w) : u = w :=
  Option.some.inj ((expandWithin_mono (Nat.le_max_left depth depth') h).symm.trans
    (expandWithin_mono (Nat.le_max_right depth depth') h'))

/-- With more definitions the expansion is the same as well. -/
theorem expandWithin_of_found (hfound : ∀ bucket name d, find bucket name = some d →
    find' bucket name = some d) (h : expandWithin find depth v = some u) :
    expandWithin find' depth v = some u := by
  induction depth generalizing v u with
  | zero => cases h
  | succ depth ih =>
    cases v with
    | list xs =>
      obtain ⟨ys, hall, rfl⟩ := expandWithin_list_iff.mp h
      exact expandWithin_list_iff.mpr ⟨ys, hall.imp fun _ _ => ih, rfl⟩
    | map es i =>
      have hfields : ∀ {fs : Fields}, FieldsExpand find depth es fs →
          FieldsExpand find' depth es fs :=
        fun hfs => hfs.imp fun _ _ he => ⟨he.key, ih he.value⟩
      cases htarget : Fields.target? es with
      | none =>
        obtain ⟨fs, hfs, rfl⟩ := (expandWithin_map_iff htarget).mp h
        exact (expandWithin_map_iff htarget).mpr ⟨fs, hfields hfs, rfl⟩
      | some target =>
        obtain ⟨fs, d, ds, j, hfs, hd, hds, rfl⟩ := (expandWithin_reference_iff htarget).mp h
        exact (expandWithin_reference_iff htarget).mpr
          ⟨fs, d, ds, j, hfields hfs, hfound _ _ d hd, ih hds, rfl⟩
    | _ =>
      cases h
      rfl

/-! ## What is found in expanded fields -/

namespace FieldsExpand

/-- Under each key stands what the value of that key expands to. -/
theorem get? (h : FieldsExpand find depth es fs) : Option.Rel (fun v w =>
    expandWithin find depth v = some w) (OrderedMap.get? es k) (OrderedMap.get? fs k) := by
  induction h with
  | nil => exact .none
  | @cons e f es fs head _ ih =>
    rw [OrderedMap.get?_cons, OrderedMap.get?_cons, ← head.key]
    split
    · exact .some head.value
    · exact ih

theorem keys (h : FieldsExpand find depth es fs) : es.map Prod.fst = fs.map Prod.fst := by
  induction h with
  | nil => rfl
  | cons head _ ih => rw [List.map_cons, List.map_cons, head.key, ih]

theorem keyed (h : FieldsExpand find depth es fs) (hes : es.Keyed) : Fields.Keyed fs :=
  hes.of_keys h.keys

theorem insert (h : FieldsExpand find depth es fs) (hv : expandWithin find depth v = some w) :
    FieldsExpand find depth (OrderedMap.insert es k v) (OrderedMap.insert fs k w) := by
  induction h with
  | nil => exact .cons ⟨rfl, hv⟩ .nil
  | @cons e f es fs head tail ih =>
    rw [OrderedMap.insert, OrderedMap.insert, ← head.key]
    split
    · exact .cons ⟨rfl, hv⟩ tail
    · exact .cons ⟨rfl, head.value⟩ ih

end FieldsExpand

/-- A property of values that goes through lists and mappings, whatever stands under the keys of a
mapping and however mappings are put together. -/
structure KeptByExpansion (P : Value → Prop) : Prop where
  list_iff : ∀ {xs : List Value}, P (.list xs) ↔ ∀ x ∈ xs, P x
  entry : ∀ {es : Fields} {i : Option Nat}, P (.map es i) → ∀ e ∈ es, P e.2
  rebuild : ∀ {es fs : Fields} {i j : Option Nat}, P (.map es i) →
    es.map Prod.fst = fs.map Prod.fst → (∀ f ∈ fs, P f.2) → P (.map fs j)
  merge : ∀ {es fs : Fields} {i j : Option Nat}, P (.map es i) → P (.map fs j) →
    P (.ofEntries (es.merge fs))
  remove : ∀ {es : Fields} {i : Option Nat} {name : String}, P (.map es i) →
    P (.ofEntries (es.remove name))

/-- All definitions have a property. -/
def Lookup.Having (P : Value → Prop) (find : Lookup) : Prop :=
  ∀ bucket name d, find bucket name = some d → P d

/-- What expands from a value with such a property, by definitions with it, has it. -/
theorem expandWithin_keeps {P : Value → Prop} (hP : KeptByExpansion P) (hfind : find.Having P)
    (hv : P v) (h : expandWithin find depth v = some w) : P w := by
  induction depth generalizing v w with
  | zero => cases h
  | succ depth ih =>
    have hfields : ∀ {es fs : Fields} {i j : Option Nat}, P (.map es i) →
        FieldsExpand find depth es fs → P (.map fs j) := by
      intro es fs i j hes hfs
      refine hP.rebuild hes hfs.keys fun f hf => ?_
      obtain ⟨e, he, hexpands⟩ := forall₂_right hfs hf
      exact ih (hP.entry hes e he) hexpands.value
    cases v with
    | list xs =>
      obtain ⟨ys, hall, rfl⟩ := expandWithin_list_iff.mp h
      refine hP.list_iff.mpr fun y hy => ?_
      obtain ⟨x, hx, hexpands⟩ := forall₂_right hall hy
      exact ih (hP.list_iff.mp hv x hx) hexpands
    | map es i =>
      cases htarget : Fields.target? es with
      | none =>
        obtain ⟨fs, hfs, rfl⟩ := (expandWithin_map_iff htarget).mp h
        exact hfields hv hfs
      | some target =>
        obtain ⟨fs, d, ds, j, hfs, hd, hds, rfl⟩ := (expandWithin_reference_iff htarget).mp h
        have hrest : P (.ofEntries fs) := hfields hv hfs
        exact hP.merge (ih (hfind _ _ d hd) hds) (hP.remove hrest)
    | _ =>
      cases h
      exact hv

/-- All definitions are proper. -/
abbrev Lookup.Proper (find : Lookup) : Prop := find.Having Value.Proper

theorem keptByExpansion_proper : KeptByExpansion Value.Proper where
  list_iff := ⟨fun h _ hx => h.item hx, .list⟩
  entry h _ he := h.entry he
  rebuild h hkeys hfs := .map (h.keyed.of_keys hkeys) hfs
  merge h h' := h.merge h'
  remove h := h.remove

/-- What expands from a proper value by proper definitions is proper. -/
theorem expandWithin_proper (hfind : find.Proper) (hv : v.Proper)
    (h : expandWithin find depth v = some w) : w.Proper :=
  expandWithin_keeps keptByExpansion_proper hfind hv h

/-! ## Like values -/

/-- Whether a value is a list. -/
def Value.isList : Value → Bool
  | .list _ => true
  | _ => false

theorem Value.exists_list_of_isList (h : v.isList = true) : ∃ xs, v = .list xs := by
  cases v with
  | list xs => exact ⟨xs, rfl⟩
  | _ => cases h

theorem Value.exists_map_of_isMap (h : v.isMap = true) : ∃ es i, v = .map es i := by
  cases v with
  | map es i => exact ⟨es, i, rfl⟩
  | _ => cases h

/-- What is neither a list nor a mapping expands to itself. -/
theorem expandWithin_leaf (hlist : v.isList = false) (hmap : v.isMap = false) :
    expandWithin find (depth + 1) v = some v := by
  cases v with
  | list => cases hlist
  | map => cases hmap
  | _ => rfl

/-- A relation that goes through lists and mappings and holds between a text and itself only. -/
structure Likeness (L : Value → Value → Prop) : Prop where
  list_iff : ∀ {xs ys : List Value}, L (.list xs) (.list ys) ↔ List.Forall₂ L xs ys
  map_iff : ∀ {es fs : Fields} {i j : Option Nat}, Fields.Keyed es → Fields.Keyed fs →
    (L (.map es i) (.map fs j) ↔
      ∀ k, Option.Rel L (OrderedMap.get? es k) (OrderedMap.get? fs k))
  isList : ∀ {v w : Value}, L v w → v.isList = w.isList
  isMap : ∀ {v w : Value}, L v w → v.isMap = w.isMap
  text? : ∀ {v w : Value}, L v w → v.text? = w.text?

theorem likeness_alike : Likeness fun v w => v.alike w = true where
  list_iff := Value.alike_list_iff
  map_iff hes hfs := hes.alike_iff hfs
  isList {v w} h := by cases v <;> cases w <;> first | rfl | cases h
  isMap {v w} h := by cases v <;> cases w <;> first | rfl | cases h
  text? := Value.text?_of_alike

/-- Where references with a property lead to a definition by the first way to look up, they lead by
the second one to a definition that is like it, and whose references have the property again. -/
def LookupsAgree (L : Value → Value → Prop) (R : String → Prop) (find find' : Lookup) : Prop :=
  ∀ target, R target → ∀ bucket name d, splitReference target = some (bucket, name) →
    find bucket name = some d → ∃ d', find' bucket name = some d' ∧ L d' d ∧ d'.RefersWithin R

theorem optionRel_or {α β : Type} {R : α → β → Prop} {a b : Option α} {c d : Option β}
    (h : Option.Rel R a c) (h' : Option.Rel R b d) : Option.Rel R (a.or b) (c.or d) := by
  cases h with
  | none => exact h'
  | some hr => exact .some hr

/-- Under keys with a property there are values that are like each other. -/
abbrev FoundLike (K : Atom → Prop) (L : Value → Value → Prop) (fs gs : Fields) : Prop :=
  ∀ k, K k → Option.Rel L (OrderedMap.get? fs k) (OrderedMap.get? gs k)

section Found

variable {K : Atom → Prop} {L : Value → Value → Prop} {gs ls ms : Fields}

theorem FoundLike.remove {name : String} (h : FoundLike K L fs gs) :
    FoundLike K L (fs.remove name) (gs.remove name) := by
  intro k hk
  unfold Fields.remove
  cases hname : (Atom.str name == k) with
  | true =>
    obtain rfl := Atom.str_beq_iff.mp hname
    rw [OrderedMap.get?_erase_self, OrderedMap.get?_erase_self]
    exact .none
  | false =>
    rw [OrderedMap.get?_erase_of_ne hname, OrderedMap.get?_erase_of_ne hname]
    exact h k hk

theorem FoundLike.merge (h : FoundLike K L fs gs) (h' : FoundLike K L ls ms) (hls : ls.Keyed)
    (hms : ms.Keyed) : FoundLike K L (fs.merge ls) (gs.merge ms) := by
  intro k hk
  unfold Fields.merge
  rw [OrderedMap.get?_update hls.separate, OrderedMap.get?_update hms.separate]
  exact optionRel_or (h' k hk) (h k hk)

/-- Mappings that are like each other under the key of references refer to the same definition. -/
theorem FoundLike.refText? (hL : Likeness L) (hK : K refKey) (h : FoundLike K L fs gs) :
    Fields.refText? fs = Fields.refText? gs := by
  have hrel := h refKey hK
  unfold Fields.refText?
  generalize OrderedMap.get? fs refKey = v at hrel
  generalize OrderedMap.get? gs refKey = w at hrel
  cases hrel with
  | none => rfl
  | some hlike => exact hL.text? hlike

end Found

/-- The target of a reference is one of the targets of the mapping. -/
theorem Value.RefersWithin.refText? {R : String → Prop} {target : String}
    (h : (Value.map es i).RefersWithin R) (htext : Fields.refText? es = some target) :
    R target := by
  obtain ⟨v, hget, hv⟩ := Option.bind_eq_some_iff.mp htext
  obtain rfl := Value.text?_eq_some_iff.mp hv
  obtain ⟨key, hmem, hkey⟩ := OrderedMap.mem_of_get? hget
  exact (refersWithin_map_iff.mp h _ hmem).2 (Atom.beq_str_iff.mp hkey) target rfl

/-- Two lists that are related one by one, one of which is related to a third one: the square is
completed where it is for each element. -/
theorem forall₂_complete {α β γ δ : Type} {R : α → β → Prop} {E : β → δ → Prop} {E' : α → γ → Prop}
    {S : γ → δ → Prop} {xs : List α} {ys : List β} {us : List δ}
    (hsquare : ∀ x ∈ xs, ∀ y ∈ ys, R x y → ∀ u, E y u → ∃ u', E' x u' ∧ S u' u)
    (hxs : List.Forall₂ R xs ys) (hys : List.Forall₂ E ys us) :
    ∃ us', List.Forall₂ E' xs us' ∧ List.Forall₂ S us' us := by
  induction hxs generalizing us with
  | nil =>
    cases hys
    exact ⟨[], .nil, .nil⟩
  | cons head _ ih =>
    cases hys with
    | cons head' tail' =>
      obtain ⟨u', hu', hS⟩ := hsquare _ List.mem_cons_self _ List.mem_cons_self head _ head'
      obtain ⟨us', hus', hall⟩ := ih (fun x hx y hy =>
        hsquare x (List.mem_cons_of_mem _ hx) y (List.mem_cons_of_mem _ hy)) tail'
      exact ⟨u' :: us', .cons hu' hus', .cons hS hall⟩

/-- Where like values expand to like ones, so do like mappings, entry by entry; the values under
other keys only have to expand. -/
theorem FieldsExpand.like {K : Atom → Prop} {L : Value → Value → Prop} {gs : Fields}
    (hvalue : ∀ e ∈ es, ∀ f ∈ fs, L e.2 f.2 → ∀ u, expandWithin find depth f.2 = some u →
      ∃ u', expandWithin find' depth' e.2 = some u' ∧ L u' u)
    (hrest : ∀ e ∈ es, ¬ K e.1 → ∃ u, expandWithin find' depth' e.2 = some u)
    (hfound : FoundLike K L es fs) (hes : es.Keyed) (hgs : FieldsExpand find depth fs gs) :
    ∃ gs', FieldsExpand find' depth' es gs' ∧ FoundLike K L gs' gs := by
  -- What is found under a key on one side expands because what is found on the other side does.
  have hexpands : ∀ k v, K k → OrderedMap.get? es k = some v → ∃ u u',
      OrderedMap.get? gs k = some u ∧ expandWithin find' depth' v = some u' ∧ L u' u := by
    intro k v hk hget
    have hrel := hfound k hk
    rw [hget] at hrel
    obtain ⟨w, hfs, hlike⟩ := optionRel_some_iff.mp hrel
    have hexpand := hgs.get? (k := k)
    rw [hfs] at hexpand
    obtain ⟨u, hu, hw⟩ := optionRel_some_iff.mp hexpand
    obtain ⟨_, hmem, _⟩ := OrderedMap.mem_of_get? hget
    obtain ⟨_, hmem', _⟩ := OrderedMap.mem_of_get? hfs
    obtain ⟨u', hu', hlike'⟩ := hvalue _ hmem _ hmem' hlike u hw
    exact ⟨u, u', hu, hu', hlike'⟩
  have hentries : ∀ e ∈ es, ∃ g, EntryExpands find' depth' e g := by
    intro e he
    by_cases hk : K e.1
    · obtain ⟨_, u', _, hu', _⟩ := hexpands e.1 e.2 hk (hes.get?_entry he)
      exact ⟨(e.1, u'), rfl, hu'⟩
    · obtain ⟨u', hu'⟩ := hrest e he hk
      exact ⟨(e.1, u'), rfl, hu'⟩
  obtain ⟨gs', hgs'⟩ := forall₂_of_forall_exists hentries
  refine ⟨gs', hgs', fun k hk => ?_⟩
  have hleft := FieldsExpand.get? hgs' (k := k)
  cases hget : OrderedMap.get? es k with
  | none =>
    have hrel := hfound k hk
    rw [hget] at hrel hleft
    have hright := hgs.get? (k := k)
    rw [optionRel_none_iff.mp hrel] at hright
    rw [optionRel_none_iff.mp hleft, optionRel_none_iff.mp hright]
    exact .none
  | some v =>
    obtain ⟨u, u', hu, hu', hlike⟩ := hexpands k v hk hget
    rw [hget] at hleft
    obtain ⟨_, hfound', hv⟩ := optionRel_some_iff.mp hleft
    obtain rfl := Option.some.inj (hu'.symm.trans hv)
    rw [hfound', hu]
    exact .some hlike

/-- Mappings that are like each other under certain keys, that of references among them, expand to
such mappings. -/
theorem expandWithin_map_like {K : Atom → Prop} {L : Value → Value → Prop} (hL : Likeness L)
    (hK : K refKey) (hproper : find.Proper) (hproper' : find'.Proper)
    (hvalue : ∀ e ∈ es, ∀ f ∈ fs, L e.2 f.2 → ∀ u, expandWithin find depth f.2 = some u →
      ∃ u', expandWithin find' depth' e.2 = some u' ∧ L u' u)
    (hrest : ∀ e ∈ es, ¬ K e.1 → ∃ u, expandWithin find' depth' e.2 = some u)
    (hdefined : ∀ bucket name d u, Fields.target? es = some (bucket, name) →
      find bucket name = some d → expandWithin find depth d = some u →
        ∃ d' u', find' bucket name = some d' ∧ expandWithin find' depth' d' = some u' ∧ L u' u)
    (hfound : FoundLike K L es fs) (hes : es.Keyed) (hfs : fs.Keyed) {j : Option Nat}
    (h : expandWithin find (depth + 1) (.map fs j) = some u) :
    ∃ (gs gs' : Fields) (k k' : Option Nat), u = .map gs k ∧
      expandWithin find' (depth' + 1) (.map es i) = some (.map gs' k') ∧ gs.Keyed ∧ gs'.Keyed ∧
        FoundLike K L gs' gs := by
  have htext := hfound.refText? hL hK
  cases htarget : Fields.target? fs with
  | none =>
    obtain ⟨gs, hgs, rfl⟩ := (expandWithin_map_iff htarget).mp h
    obtain ⟨gs', hgs', hlike⟩ := hgs.like hvalue hrest hfound hes
    have htarget' : Fields.target? es = none := by rw [Fields.target?, htext]; exact htarget
    exact ⟨gs, gs', j, i, rfl, (expandWithin_map_iff htarget').mpr ⟨gs', hgs', rfl⟩,
      hgs.keyed hfs, hgs'.keyed hes, hlike⟩
  | some target =>
    obtain ⟨bucket, name⟩ := target
    obtain ⟨gs, d, ds, k, hgs, hd, hds, rfl⟩ := (expandWithin_reference_iff htarget).mp h
    obtain ⟨gs', hgs', hlike⟩ := hgs.like hvalue hrest hfound hes
    have htarget' : Fields.target? es = some (bucket, name) := by
      rw [Fields.target?, htext]
      exact htarget
    -- The definitions expand to like mappings, so the entries are written over like ones.
    obtain ⟨d', v', hd', hv', hlike'⟩ := hdefined bucket name d _ htarget' hd hds
    obtain ⟨ds', k', rfl⟩ := Value.exists_map_of_isMap (hL.isMap hlike')
    have hkeyed := (expandWithin_proper hproper (hproper _ _ d hd) hds).keyed
    have hkeyed' := (expandWithin_proper hproper' (hproper' _ _ d' hd') hv').keyed
    have hkept : Fields.Keyed (Fields.remove gs "$ref") := (hgs.keyed hfs).remove
    have hkept' : Fields.Keyed (Fields.remove gs' "$ref") := (hgs'.keyed hes).remove
    refine ⟨_, _, none, none, rfl, (expandWithin_reference_iff htarget').mpr
      ⟨gs', d', ds', k', hgs', hd', hv', rfl⟩, hkeyed.merge hkept, hkeyed'.merge hkept', ?_⟩
    have hdefs : FoundLike K L ds' ds := fun k _ => (hL.map_iff hkeyed' hkeyed).mp hlike' k
    exact hdefs.merge hlike.remove hkept' hkept

/-- A value that is like one that expands, expands to a value that is like the expansion. -/
theorem expandWithin_like {L : Value → Value → Prop} {R : String → Prop} (hL : Likeness L)
    (hproper : find.Proper) (hproper' : find'.Proper) (hfind : LookupsAgree L R find find')
    (hv : v.Proper) (hw : w.Proper) (hR : v.RefersWithin R) (hvw : L v w)
    (h : expandWithin find depth w = some u) :
    ∃ u', expandWithin find' depth v = some u' ∧ L u' u := by
  induction depth generalizing v w u with
  | zero => cases h
  | succ depth ih =>
    cases w with
    | list ys =>
      obtain ⟨xs, rfl⟩ := Value.exists_list_of_isList (hL.isList hvw)
      obtain ⟨us, hall, rfl⟩ := expandWithin_list_iff.mp h
      have hitem : ∀ x ∈ xs, x.RefersWithin R := fun x hx t ht => hR t (.inside hx ht)
      obtain ⟨us', hus', hlike⟩ := forall₂_complete
        (fun x hx y hy hxy u hu => ih (hv.item hx) (hw.item hy) (hitem x hx) hxy hu)
        (hL.list_iff.mp hvw) hall
      exact ⟨_, expandWithin_list_iff.mpr ⟨us', hus', rfl⟩, hL.list_iff.mpr hlike⟩
    | map fs j =>
      obtain ⟨es, i, rfl⟩ := Value.exists_map_of_isMap (hL.isMap hvw)
      have hfound : FoundLike (fun _ => True) L es fs :=
        fun k _ => (hL.map_iff hv.keyed hw.keyed).mp hvw k
      obtain ⟨gs, gs', k, k', rfl, hexpand, hgs, hgs', hlike⟩ := expandWithin_map_like hL trivial
        hproper hproper' (fun e he f hf hef u hu => ih (hv.entry he) (hw.entry hf)
          (Value.refersWithin_map_iff.mp hR e he).1 hef hu) (fun _ _ hk => absurd trivial hk)
        (fun bucket name d u htarget hd hu => by
          obtain ⟨text, hes, hsplit⟩ := Option.bind_eq_some_iff.mp htarget
          obtain ⟨d', hd', hdd, hR'⟩ := hfind text (hR.refText? hes) _ _ d hsplit hd
          obtain ⟨u', hu', hlike⟩ := ih (hproper' _ _ d' hd') (hproper _ _ d hd) hR' hdd hu
          exact ⟨d', u', hd', hu', hlike⟩) hfound hv.keyed hw.keyed h
      exact ⟨_, hexpand, (hL.map_iff hgs' hgs).mpr fun k => hlike k trivial⟩
    | _ =>
      cases h
      exact ⟨v, expandWithin_leaf (hL.isList hvw) (hL.isMap hvw), hvw⟩

end Expansion

end WireShape
