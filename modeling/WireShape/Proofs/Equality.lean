import Mathlib.Data.List.Perm.Subperm
import WireShape.Proofs.Keys
import WireShape.Proofs.Runs

/-!
# Equality of values

Values that are one and the same count as equal wherever values are compared, and so does a datum
that is not a number with itself. `Value.alike` is equality with this taken into account: atoms are
alike if they are one and the same or the same key, lists element by element, mappings key by key.
It is an equivalence on proper values, whose mappings have each key once.

* `Value.alike_list_iff`, `Value.alike_map_iff`: what likeness says of lists and of mappings.
* `Value.Fields.Keyed.alike_iff`: mappings are alike if alike values are found under all keys.
* `Value.Proper.alike_refl`, `Value.Proper.alike_symm`, `Value.Proper.alike_trans`: an equivalence.
* `Value.Proper.alike_of_same`, `Value.SelfEqual.same_of_alike`: equal values are alike, and values that
  are alike are equal where atoms equal themselves.
* `Value.Proper.same_comm`: which of two proper values comes first does not count.
-/

namespace WireShape

section OptionRel

variable {α β : Type} {R : α → β → Prop} {a : α} {b : Option β}

theorem optionRel_none_iff : Option.Rel R none b ↔ b = none := by
  constructor
  · intro h
    cases h
    rfl
  · rintro rfl
    exact .none

theorem optionRel_some_iff : Option.Rel R (some a) b ↔ ∃ c, b = some c ∧ R a c := by
  constructor
  · intro h
    cases h with
    | some hr => exact ⟨_, rfl, hr⟩
  · rintro ⟨c, rfl, hr⟩
    exact .some hr

end OptionRel

namespace Atom

variable {a b c : Atom} {s : String}

/-- One and the same atom, or the same key. -/
def alike (a b : Atom) : Bool := decide (a = b) || a == b

theorem alike_iff : a.alike b = true ↔ a = b ∨ (a == b) = true := by
  rw [alike, Bool.or_eq_true, decide_eq_true_iff]

theorem alike_refl : a.alike a = true := alike_iff.mpr (.inl rfl)

theorem alike_symm (h : a.alike b = true) : b.alike a = true :=
  alike_iff.mpr ((alike_iff.mp h).imp Eq.symm BEq.symm)

theorem alike_trans (h : a.alike b = true) (h' : b.alike c = true) : a.alike c = true := by
  rcases alike_iff.mp h with rfl | hab
  · exact h'
  · rcases alike_iff.mp h' with rfl | hbc
    · exact h
    · exact alike_iff.mpr (.inr (BEq.trans hab hbc))

/-- Only the text itself is like a text. -/
theorem alike_str_iff : a.alike (.str s) = true ↔ a = .str s := by
  rw [alike_iff, beq_str_iff, or_self]

theorem str_alike_iff : (str s).alike a = true ↔ a = .str s :=
  ⟨fun h => alike_str_iff.mp (alike_symm h), fun h => alike_symm (alike_str_iff.mpr h)⟩

/-- Where a key equals itself, it equals what has the same identity. -/
theorem beq_iff_key? (ha : (a == a) = true) : (a == b) = true ↔ a.key? = b.key? := by
  constructor
  · exact fun h => (same_iff.mp h).2
  · exact fun h => same_iff.mpr ⟨(same_iff.mp ha).1, h⟩

end Atom

namespace Value

variable {es fs : List (Atom × Value)} {xs ys : List Value} {i j : Option Nat} {u v w : Value}

mutual

/-- Equality of values, where everything equals itself. -/
def alike : Value → Value → Bool
  | atom a, atom b => a.alike b
  | list xs, list ys => alikeItems xs ys
  | map es _, map fs _ => es.length == fs.length && alikeEntries es fs
  | mediaType s e, mediaType t f => alike s t && alike e f
  | requestBody c d r, requestBody c' d' r' => alike c c' && alike d d' && alike r r'
  | response d c, response d' c' => alike d d' && alike c c'
  | _, _ => false

def alikeItems : List Value → List Value → Bool
  | [], [] => true
  | x :: xs, y :: ys => alike x y && alikeItems xs ys
  | _, _ => false

/-- Every entry has one in the other mapping that is like it. -/
def alikeEntries : List (Atom × Value) → List (Atom × Value) → Bool
  | [], _ => true
  | (k, v) :: es, fs =>
    (match OrderedMap.get? fs k with
      | some w => alike v w
      | none => false) && alikeEntries es fs

end

/-! ## Lists and mappings -/

theorem alike_list_iff : (list xs).alike (list ys) = true ↔
    List.Forall₂ (fun x y => x.alike y = true) xs ys := by
  rw [alike]
  induction xs generalizing ys with
  | nil =>
    cases ys with
    | nil => simp [alikeItems]
    | cons y ys => simp [alikeItems]
  | cons x xs ih =>
    cases ys with
    | nil => simp [alikeItems]
    | cons y ys => rw [alikeItems, Bool.and_eq_true, ih, List.forall₂_cons]

theorem alikeEntries_iff : alikeEntries es fs = true ↔
    ∀ e ∈ es, ∃ w, OrderedMap.get? fs e.1 = some w ∧ e.2.alike w = true := by
  induction es with
  | nil => simp [alikeEntries]
  | cons e es ih =>
    rw [alikeEntries, Bool.and_eq_true, ih, List.forall_mem_cons]
    refine and_congr_left fun _ => ?_
    cases OrderedMap.get? fs e.1 <;> simp

/-- Mappings are alike if they have as many entries and each entry has one like it. -/
theorem alike_map_iff : (map es i).alike (map fs j) = true ↔ es.length = fs.length ∧
    ∀ e ∈ es, ∃ w, OrderedMap.get? fs e.1 = some w ∧ e.2.alike w = true := by
  rw [alike, Bool.and_eq_true, beq_iff_eq, alikeEntries_iff]

theorem same_list_iff : (list xs).same (list ys) = true ↔
    List.Forall₂ (fun x y => x.same y = true) xs ys := by
  rw [same]
  induction xs generalizing ys with
  | nil =>
    cases ys with
    | nil => simp [sameItems]
    | cons y ys => simp [sameItems]
  | cons x xs ih =>
    cases ys with
    | nil => simp [sameItems]
    | cons y ys => rw [sameItems, Bool.and_eq_true, ih, List.forall₂_cons]

/-- Mappings are equal if they have as many entries and each entry has an equal one. -/
theorem same_map_iff : (map es i).same (map fs j) = true ↔ es.length = fs.length ∧
    ∀ e ∈ es, ∃ w, OrderedMap.get? fs e.1 = some w ∧ e.2.same w = true := by
  have hentries : sameEntries es fs = true ↔
      ∀ e ∈ es, ∃ w, OrderedMap.get? fs e.1 = some w ∧ e.2.same w = true := by
    induction es with
    | nil => simp [sameEntries]
    | cons e es ih =>
      rw [sameEntries, Bool.and_eq_true, ih, List.forall_mem_cons]
      refine and_congr_left fun _ => ?_
      cases OrderedMap.get? fs e.1 <;> simp
  rw [same, Bool.and_eq_true, beq_iff_eq, hentries]

/-- What is like a mapping is a mapping. -/
theorem exists_map_of_alike (h : v.alike (map fs j) = true) : ∃ es i, v = map es i := by
  cases v with
  | map es i => exact ⟨es, i, rfl⟩
  | _ => cases h

/-- Only the text itself is like a text. -/
theorem alike_str_iff {s : String} : v.alike (str s) = true ↔ v = str s := by
  cases v with
  | atom a => exact Atom.alike_str_iff.trans ⟨fun h => by rw [h], fun h => by cases h; rfl⟩
  | _ => exact ⟨fun h => (by cases h), fun h => (by cases h)⟩

theorem str_alike_iff {s : String} : (str s).alike v = true ↔ v = str s := by
  cases v with
  | atom a => exact Atom.str_alike_iff.trans ⟨fun h => by rw [h], fun h => by cases h; rfl⟩
  | _ => exact ⟨fun h => (by cases h), fun h => (by cases h)⟩

/-! ## Mappings with each key once -/

/-- Every key equals itself and stands once. -/
structure Fields.Keyed (fields : Fields) : Prop where
  separate : OrderedMap.Separate fields
  self : ∀ e ∈ fields, (e.1 == e.1) = true

namespace Fields.Keyed

variable {fields gs later : Fields} {k : Atom} {name : String}

theorem insert (h : fields.Keyed) (hk : (k == k) = true) :
    Keyed (OrderedMap.insert fields k v) := by
  refine ⟨h.separate.insert, fun e he => ?_⟩
  rcases OrderedMap.mem_insert he with hold | ⟨_, rfl | ⟨⟨b, hb⟩, _⟩⟩
  · exact h.self e hold
  · exact hk
  · exact h.self (e.1, b) hb

theorem merge (h : fields.Keyed) (h' : later.Keyed) : (fields.merge later).Keyed := by
  obtain ⟨-, hself⟩ := h'
  unfold Fields.merge OrderedMap.update
  induction later generalizing fields with
  | nil => exact h
  | cons e later ih =>
    rw [List.foldl_cons]
    exact ih (h.insert (hself e List.mem_cons_self)) fun e' he' =>
      hself e' (List.mem_cons_of_mem _ he')

theorem remove (h : fields.Keyed) : (fields.remove name).Keyed :=
  ⟨h.separate.filter _, fun e he => h.self e (List.mem_of_mem_filter he)⟩

/-- Only the keys count. -/
theorem of_keys (h : fields.Keyed) (hkeys : fields.map Prod.fst = gs.map Prod.fst) :
    gs.Keyed := by
  have hseparate := OrderedMap.separate_iff.mp h.separate
  rw [OrderedMap.keys, hkeys] at hseparate
  refine ⟨OrderedMap.separate_iff.mpr hseparate, fun f hf => ?_⟩
  have hkey : f.1 ∈ fields.map Prod.fst := hkeys ▸ List.mem_map_of_mem hf
  obtain ⟨e, he, heq⟩ := List.mem_map.mp hkey
  exact heq ▸ h.self e he

/-- An entry is found under its key. -/
theorem get?_entry (h : fields.Keyed) {e : Atom × Value} (he : e ∈ fields) :
    OrderedMap.get? fields e.1 = some e.2 := h.separate.get? he (h.self e he)

/-- The keys are told apart by their identities. -/
theorem nodup (h : fields.Keyed) : (fields.map fun e => e.1.key?).Nodup := by
  refine List.pairwise_map.mpr (h.separate.imp_of_mem fun {e f} he _ hne heq => ?_)
  rw [(Atom.beq_iff_key? (h.self e he)).mpr heq] at hne
  cases hne

/-- A key is found where its identity is that of an entry. -/
theorem isSome_iff (h : fields.Keyed) :
    (OrderedMap.get? fields k).isSome = true ↔ k.key? ∈ fields.map fun e => e.1.key? := by
  change OrderedMap.contains fields k = true ↔ _
  rw [OrderedMap.contains_iff, List.mem_map]
  refine exists_congr fun e => and_congr_right fun he => ?_
  exact Atom.beq_iff_key? (h.self e he)

/-- A mapping all of whose keys the other one has is no longer than that. -/
theorem subperm (h : fields.Keyed) (h' : gs.Keyed)
    (hsub : ∀ e ∈ fields, (OrderedMap.get? gs e.1).isSome = true) :
    (fields.map fun e => e.1.key?).Subperm (gs.map fun e => e.1.key?) := by
  refine List.subperm_of_subset h.nodup fun key hkey => ?_
  obtain ⟨e, he, rfl⟩ := List.mem_map.mp hkey
  exact h'.isSome_iff.mp (hsub e he)

theorem alike_entry (h : ∀ k, Option.Rel (fun v w => v.alike w = true)
    (OrderedMap.get? fields k) (OrderedMap.get? gs k)) (hkeyed : fields.Keyed)
    {e : Atom × Value} (he : e ∈ fields) :
    ∃ w, OrderedMap.get? gs e.1 = some w ∧ e.2.alike w = true := by
  have hrel := h e.1
  rw [hkeyed.get?_entry he] at hrel
  exact optionRel_some_iff.mp hrel

/-- Mappings are alike if alike values are found under all keys. -/
theorem alike_iff (hes : Keyed es) (hfs : Keyed fs) : (map es i).alike (map fs j) = true ↔
    ∀ k, Option.Rel (fun v w => v.alike w = true) (OrderedMap.get? es k) (OrderedMap.get? fs k) := by
  rw [alike_map_iff]
  constructor
  · rintro ⟨hlength, hall⟩ k
    cases hget : OrderedMap.get? es k with
    | some v =>
      obtain ⟨k', hmem, hk⟩ := OrderedMap.mem_of_get? hget
      obtain ⟨w, hw, halike⟩ := hall (k', v) hmem
      rw [← OrderedMap.get?_congr hk, hw]
      exact .some halike
    | none =>
      -- The other mapping has no more keys, so it does not have this one either.
      have hsub := hes.subperm hfs fun e he => by
        obtain ⟨w, hw, _⟩ := hall e he
        exact Option.isSome_of_eq_some hw
      have hperm := hsub.perm_of_length_le (by rw [List.length_map, List.length_map, hlength])
      have hnone : ¬ (OrderedMap.get? fs k).isSome = true := by
        rw [hfs.isSome_iff, ← hperm.mem_iff, ← hes.isSome_iff, hget]
        exact Bool.false_ne_true
      rw [Option.not_isSome_iff_eq_none.mp hnone]
      exact .none
  · intro h
    refine ⟨?_, fun e he => alike_entry h hes he⟩
    have hle := hes.subperm hfs fun e he => by
      obtain ⟨w, hw, _⟩ := alike_entry h hes he
      exact Option.isSome_of_eq_some hw
    have hge := hfs.subperm hes fun f hf => by
      have hrel := h f.1
      rw [hfs.get?_entry hf] at hrel
      generalize OrderedMap.get? es f.1 = found at hrel ⊢
      cases hrel
      rfl
    have hlength := Nat.le_antisymm hle.length_le hge.length_le
    rwa [List.length_map, List.length_map] at hlength

end Fields.Keyed

/-! ## Proper values -/

/-- Values whose mappings have each key once. -/
inductive Proper : Value → Prop
  | atom {a : Atom} : Proper (atom a)
  | list {xs : List Value} (hxs : ∀ x ∈ xs, Proper x) : Proper (list xs)
  | map {es : List (Atom × Value)} {identity : Option Nat} (hkeyed : Fields.Keyed es)
      (hes : ∀ e ∈ es, Proper e.2) : Proper (map es identity)
  | mediaType {schema examples : Value} (hschema : Proper schema) (hexamples : Proper examples) :
      Proper (mediaType schema examples)
  | requestBody {content description required : Value} (hcontent : Proper content)
      (hdescription : Proper description) (hrequired : Proper required) :
      Proper (requestBody content description required)
  | response {description content : Value} (hdescription : Proper description)
      (hcontent : Proper content) : Proper (response description content)

namespace Proper

theorem item (h : (Value.list xs).Proper) {x : Value} (hx : x ∈ xs) : x.Proper := by
  cases h with
  | list hxs => exact hxs x hx

theorem keyed (h : (Value.map es i).Proper) : Fields.Keyed es := by
  cases h with
  | map hkeyed _ => exact hkeyed

theorem entry (h : (Value.map es i).Proper) {e : Atom × Value} (he : e ∈ es) : e.2.Proper := by
  cases h with
  | map _ hes => exact hes e he

/-- What is found is proper. -/
theorem found {k : Atom} (h : (Value.map es i).Proper) (hget : OrderedMap.get? es k = some v) :
    v.Proper := by
  obtain ⟨k', hmem, _⟩ := OrderedMap.mem_of_get? hget
  exact h.entry hmem

theorem insert {k : Atom} (h : (Value.map es i).Proper) (hk : (k == k) = true) (hv : v.Proper) :
    (Value.map (OrderedMap.insert es k v) j).Proper := by
  refine .map (h.keyed.insert hk) fun e he => ?_
  rcases OrderedMap.mem_insert he with hold | ⟨rfl, _⟩
  · exact h.entry hold
  · exact hv

theorem merge (h : (Value.map es i).Proper) (h' : (Value.map fs j).Proper) :
    (Value.ofEntries (Fields.merge es fs)).Proper := by
  have hall : ∀ later start : Fields, (∀ e ∈ later, e.2.Proper) → (∀ e ∈ start, e.2.Proper) →
      ∀ e ∈ start.merge later, e.2.Proper := by
    intro later
    induction later with
    | nil => exact fun start _ hstart => hstart
    | cons f later ih =>
      intro start hlater hstart
      refine ih _ (fun e he => hlater e (List.mem_cons_of_mem _ he)) fun e he => ?_
      rcases OrderedMap.mem_insert he with hold | ⟨hv, _⟩
      · exact hstart e hold
      · rw [hv]
        exact hlater f List.mem_cons_self
  exact .map (h.keyed.merge h'.keyed) (hall fs es (fun _ => h'.entry) (fun _ => h.entry))

theorem remove {name : String} (h : (Value.map es i).Proper) :
    (Value.map (Fields.remove es name) j).Proper :=
  .map h.keyed.remove fun _ he => h.entry (List.mem_of_mem_filter he)

/-- Proper values are like themselves. -/
theorem alike_refl (h : v.Proper) : v.alike v = true := by
  induction h with
  | atom => exact Atom.alike_refl
  | list _ ih => exact alike_list_iff.mpr (List.forall₂_same.mpr ih)
  | map hkeyed _ ih =>
    exact alike_map_iff.mpr ⟨rfl, fun e he => ⟨e.2, hkeyed.get?_entry he, ih e he⟩⟩
  | mediaType _ _ ih ih' => rw [alike, ih, ih', Bool.and_self]
  | requestBody _ _ _ ih ih' ih'' => rw [alike, ih, ih', ih'', Bool.and_self, Bool.and_self]
  | response _ _ ih ih' => rw [alike, ih, ih', Bool.and_self]

/-- Likeness of proper values is symmetric. -/
theorem alike_symm (h : v.Proper) (hw : w.Proper) (hvw : v.alike w = true) : w.alike v = true := by
  induction h generalizing w with
  | atom =>
    cases w with
    | atom => exact Atom.alike_symm hvw
    | _ => cases hvw
  | list _ ih =>
    cases w with
    | list ys =>
      have hback : List.Forall₂ (fun x y : Value => y.alike x = true) _ ys := forall₂_imp_mem₂
        (fun x hx y hy => ih x hx (hw.item hy)) (alike_list_iff.mp hvw)
      exact alike_list_iff.mpr hback.flip
    | _ => cases hvw
  | @map es _ hkeyed _ ih =>
    cases w with
    | map fs =>
      refine (hw.keyed.alike_iff hkeyed).mpr fun k => ?_
      have hrel := (hkeyed.alike_iff hw.keyed).mp hvw k
      cases hget : OrderedMap.get? es k with
      | none =>
        rw [hget] at hrel
        rw [optionRel_none_iff.mp hrel]
        exact .none
      | some v =>
        rw [hget] at hrel
        obtain ⟨w, hget', halike⟩ := optionRel_some_iff.mp hrel
        obtain ⟨k', hmem, _⟩ := OrderedMap.mem_of_get? hget
        rw [hget']
        exact .some (ih _ hmem (hw.found hget') halike)
    | _ => cases hvw
  | mediaType _ _ ih ih' =>
    cases w with
    | mediaType =>
      cases hw with
      | mediaType hs he =>
        rw [alike, Bool.and_eq_true] at hvw ⊢
        exact ⟨ih hs hvw.1, ih' he hvw.2⟩
    | _ => cases hvw
  | requestBody _ _ _ ih ih' ih'' =>
    cases w with
    | requestBody =>
      cases hw with
      | requestBody hc hd hr =>
        rw [alike, Bool.and_eq_true, Bool.and_eq_true] at hvw ⊢
        exact ⟨⟨ih hc hvw.1.1, ih' hd hvw.1.2⟩, ih'' hr hvw.2⟩
    | _ => cases hvw
  | response _ _ ih ih' =>
    cases w with
    | response =>
      cases hw with
      | response hd hc =>
        rw [alike, Bool.and_eq_true] at hvw ⊢
        exact ⟨ih hd hvw.1, ih' hc hvw.2⟩
    | _ => cases hvw

end Proper

theorem forall₂_alike_trans {zs : List Value} (hxs : ∀ x ∈ xs, ∀ u w : Value, u.alike x = true →
    x.alike w = true → u.alike w = true) (h : List.Forall₂ (fun x y => x.alike y = true) ys xs)
    (h' : List.Forall₂ (fun x y => x.alike y = true) xs zs) :
    List.Forall₂ (fun x y => x.alike y = true) ys zs := by
  induction h generalizing zs with
  | nil =>
    cases h'
    exact .nil
  | cons head _ ih =>
    cases h' with
    | cons head' tail' =>
      obtain ⟨hx, hxs⟩ := List.forall_mem_cons.mp hxs
      exact .cons (hx _ _ head head') (ih hxs tail')

/-- Likeness is transitive over a proper value. -/
theorem Proper.alike_trans (h : v.Proper) (hu : u.alike v = true) (hw : v.alike w = true) :
    u.alike w = true := by
  induction h generalizing u w with
  | atom =>
    cases u with
    | atom =>
      cases w with
      | atom => exact Atom.alike_trans hu hw
      | _ => cases hw
    | _ => cases hu
  | list _ ih =>
    cases u with
    | list ys =>
      cases w with
      | list zs =>
        exact alike_list_iff.mpr (forall₂_alike_trans (fun x hx u w => ih x hx)
          (alike_list_iff.mp hu) (alike_list_iff.mp hw))
      | _ => cases hw
    | _ => cases hu
  | map _ _ ih =>
    cases u with
    | map fs =>
      cases w with
      | map gs =>
        obtain ⟨hlength, hall⟩ := alike_map_iff.mp hu
        obtain ⟨hlength', hall'⟩ := alike_map_iff.mp hw
        refine alike_map_iff.mpr ⟨hlength.trans hlength', fun f hf => ?_⟩
        -- The entry of the value between has another key, which counts as the same.
        obtain ⟨v, hget, halike⟩ := hall f hf
        obtain ⟨key, hmem, hkey⟩ := OrderedMap.mem_of_get? hget
        obtain ⟨w, hget', halike'⟩ := hall' (key, v) hmem
        exact ⟨w, (OrderedMap.get?_congr hkey).symm.trans hget', ih (key, v) hmem halike halike'⟩
      | _ => cases hw
    | _ => cases hu
  | mediaType _ _ ih ih' =>
    cases u with
    | mediaType =>
      cases w with
      | mediaType =>
        rw [alike, Bool.and_eq_true] at hu hw ⊢
        exact ⟨ih hu.1 hw.1, ih' hu.2 hw.2⟩
      | _ => cases hw
    | _ => cases hu
  | requestBody _ _ _ ih ih' ih'' =>
    cases u with
    | requestBody =>
      cases w with
      | requestBody =>
        rw [alike, Bool.and_eq_true, Bool.and_eq_true] at hu hw ⊢
        exact ⟨⟨ih hu.1.1 hw.1.1, ih' hu.1.2 hw.1.2⟩, ih'' hu.2 hw.2⟩
      | _ => cases hw
    | _ => cases hu
  | response _ _ ih ih' =>
    cases u with
    | response =>
      cases w with
      | response =>
        rw [alike, Bool.and_eq_true] at hu hw ⊢
        exact ⟨ih hu.1 hw.1, ih' hu.2 hw.2⟩
      | _ => cases hw
    | _ => cases hu

/-- Equal values are alike. -/
theorem Proper.alike_of_same (h : v.Proper) (hvw : v.same w = true) : v.alike w = true := by
  induction h generalizing w with
  | atom =>
    cases w with
    | atom => exact Atom.alike_iff.mpr (.inr hvw)
    | _ => cases hvw
  | list _ ih =>
    cases w with
    | list =>
      exact alike_list_iff.mpr (forall₂_imp_mem (fun x hx _ => ih x hx) (same_list_iff.mp hvw))
    | _ => cases hvw
  | map _ _ ih =>
    cases w with
    | map =>
      obtain ⟨hlength, hall⟩ := same_map_iff.mp hvw
      refine alike_map_iff.mpr ⟨hlength, fun e he => ?_⟩
      obtain ⟨w, hget, hsame⟩ := hall e he
      exact ⟨w, hget, ih e he hsame⟩
    | _ => cases hvw
  | mediaType _ _ ih ih' =>
    cases w with
    | mediaType =>
      rw [same, Bool.and_eq_true] at hvw
      rw [alike, Bool.and_eq_true]
      exact ⟨ih hvw.1, ih' hvw.2⟩
    | _ => cases hvw
  | requestBody _ _ _ ih ih' ih'' =>
    cases w with
    | requestBody =>
      rw [same, Bool.and_eq_true, Bool.and_eq_true] at hvw
      rw [alike, Bool.and_eq_true, Bool.and_eq_true]
      exact ⟨⟨ih hvw.1.1, ih' hvw.1.2⟩, ih'' hvw.2⟩
    | _ => cases hvw
  | response _ _ ih ih' =>
    cases w with
    | response =>
      rw [same, Bool.and_eq_true] at hvw
      rw [alike, Bool.and_eq_true]
      exact ⟨ih hvw.1, ih' hvw.2⟩
    | _ => cases hvw

namespace Proper

/-- Equality of proper values is symmetric. -/
theorem same_symm (h : v.Proper) (hw : w.Proper) (hvw : v.same w = true) : w.same v = true := by
  induction h generalizing w with
  | atom =>
    cases w with
    | atom => exact BEq.symm (α := Atom) hvw
    | _ => cases hvw
  | list _ ih =>
    cases w with
    | list ys =>
      have hback : List.Forall₂ (fun x y : Value => y.same x = true) _ ys := forall₂_imp_mem₂
        (fun x hx y hy => ih x hx (hw.item hy)) (same_list_iff.mp hvw)
      exact same_list_iff.mpr hback.flip
    | _ => cases hvw
  | @map es _ hkeyed hes ih =>
    cases w with
    | map fs =>
      obtain ⟨hlength, hall⟩ := same_map_iff.mp hvw
      refine same_map_iff.mpr ⟨hlength.symm, fun f hf => ?_⟩
      -- The mappings have the same keys, so there is an entry whose partner this one is.
      have hrel := (hkeyed.alike_iff hw.keyed).mp (alike_of_same (.map hkeyed hes) hvw) f.1
      rw [hw.keyed.get?_entry hf] at hrel
      cases hget : OrderedMap.get? es f.1 with
      | none =>
        rw [hget] at hrel
        cases hrel
      | some v =>
        obtain ⟨k, hmem, hk⟩ := OrderedMap.mem_of_get? hget
        obtain ⟨w, hw', hsame⟩ := hall (k, v) hmem
        rw [OrderedMap.get?_congr hk, hw.keyed.get?_entry hf] at hw'
        cases hw'
        exact ⟨v, rfl, ih _ hmem (hw.entry hf) hsame⟩
    | _ => cases hvw
  | mediaType _ _ ih ih' =>
    cases w with
    | mediaType =>
      cases hw with
      | mediaType hs he =>
        rw [same, Bool.and_eq_true] at hvw ⊢
        exact ⟨ih hs hvw.1, ih' he hvw.2⟩
    | _ => cases hvw
  | requestBody _ _ _ ih ih' ih'' =>
    cases w with
    | requestBody =>
      cases hw with
      | requestBody hc hd hr =>
        rw [same, Bool.and_eq_true, Bool.and_eq_true] at hvw ⊢
        exact ⟨⟨ih hc hvw.1.1, ih' hd hvw.1.2⟩, ih'' hr hvw.2⟩
    | _ => cases hvw
  | response _ _ ih ih' =>
    cases w with
    | response =>
      cases hw with
      | response hd hc =>
        rw [same, Bool.and_eq_true] at hvw ⊢
        exact ⟨ih hd hvw.1, ih' hc hvw.2⟩
    | _ => cases hvw

theorem same_comm (h : v.Proper) (hw : w.Proper) : v.same w = w.same v :=
  Bool.eq_iff_iff.mpr ⟨h.same_symm hw, hw.same_symm h⟩

end Proper

/-- Lists and mappings all of whose atoms equal themselves. -/
inductive SelfEqual : Value → Prop
  | atom {a : Atom} (ha : (a == a) = true) : SelfEqual (.atom a)
  | list {xs : List Value} (hxs : ∀ x ∈ xs, SelfEqual x) : SelfEqual (.list xs)
  | map {es : Fields} {identity : Option Nat} (hes : ∀ e ∈ es, SelfEqual e.2) :
      SelfEqual (.map es identity)

/-- Where all atoms equal themselves, values that are alike are equal. -/
theorem SelfEqual.same_of_alike (h : v.SelfEqual) (hvw : v.alike w = true) : v.same w = true := by
  induction h generalizing w with
  | atom ha =>
    cases w with
    | atom b =>
      rcases Atom.alike_iff.mp hvw with rfl | hsame
      · exact ha
      · exact hsame
    | _ => cases hvw
  | list _ ih =>
    cases w with
    | list =>
      exact same_list_iff.mpr (forall₂_imp_mem (fun x hx _ => ih x hx) (alike_list_iff.mp hvw))
    | _ => cases hvw
  | map _ ih =>
    cases w with
    | map =>
      obtain ⟨hlength, hall⟩ := alike_map_iff.mp hvw
      refine same_map_iff.mpr ⟨hlength, fun e he => ?_⟩
      obtain ⟨w, hget, hlike⟩ := hall e he
      exact ⟨w, hget, ih e he hlike⟩
    | _ => cases hvw

end Value

end WireShape
