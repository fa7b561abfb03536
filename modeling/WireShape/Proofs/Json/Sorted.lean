import WireShape.Proofs.Json.Reordered
import WireShape.Proofs.KeyOrder

/-!
# Text that shows no order of keys

A value and the same value with its entries in another order have one compact text, or none, at each
of their levels. It takes two things of the mappings: that their keys can be told apart, and that no
key among several is a datum that is not a number. Such a key sorts neither before nor after another
one, so the mapping would be written as it happens to stand.

* `Value.Sortable`: values with such mappings.
* `Value.Alike`: values that are the same but for the order of entries.
* `Value.Alike.sameText`: the text of a sortable value does not show the order of its entries.
-/

namespace WireShape

open Value (Fields)

/-- A datum that is not a number. -/
def Atom.IsNan (a : Atom) : Prop := ∃ x, a.number? = some x ∧ x.IsNan

/-- Values in whose mappings the keys can be told apart and, where there are several, are no data
that are not numbers. -/
inductive Value.Sortable : Value → Prop
  | leaf {v : Value} (hlist : ∀ xs, v ≠ list xs) (hmap : ∀ es i, v ≠ map es i) : Sortable v
  | list {xs : List Value} (hxs : ∀ x ∈ xs, Sortable x) : Sortable (list xs)
  | map {es : Fields} {identity : Option Nat} (hseparate : OrderedMap.Separate es)
      (hkeys : 2 ≤ es.length → ∀ e ∈ es, ¬ e.1.IsNan) (hes : ∀ e ∈ es, Sortable e.2) :
      Sortable (map es identity)

theorem Value.sortable_atom {a : Atom} : (Value.atom a).Sortable := .leaf nofun nofun

/-- Under different names, fields can be sorted if their values can. -/
theorem Value.sortable_ofFields {fields : List (String × Value)}
    (hnames : (fields.map (·.1)).Nodup) (h : ∀ e ∈ fields, e.2.Sortable) :
    (Value.ofFields fields).Sortable := by
  refine .map ?_ (fun _ e he => ?_) fun e he => ?_
  · rw [OrderedMap.Separate, List.pairwise_map]
    refine (List.pairwise_map.mp hnames).imp fun hne => ?_
    refine Bool.eq_false_iff.mpr fun heq => hne ?_
    exact (Atom.str.inj (Atom.beq_str_iff.mp heq))
  · obtain ⟨_, _, rfl⟩ := List.mem_map.mp he
    rintro ⟨_, hnumber, _⟩
    cases hnumber
  · obtain ⟨field, hfield, rfl⟩ := List.mem_map.mp he
    exact h field hfield

/-- Values that are the same but for the order of the entries of mappings; which mapping has been
supplied does not count. -/
inductive Value.Alike : Value → Value → Prop
  | refl {v : Value} : Alike v v
  | list {xs ys : List Value} (h : List.Forall₂ Alike xs ys) : Alike (list xs) (list ys)
  | map {es mid fs : Fields} {i j : Option Nat} (hperm : es.Perm mid)
      (hkeys : mid.map (·.1) = fs.map (·.1))
      (hvalues : List.Forall₂ Alike (mid.map (·.2)) (fs.map (·.2))) : Alike (map es i) (map fs j)

namespace Json

variable {fallback : Fallback} {level : Nat} {es fs : Fields} {i j : Option Nat} {text : String}

/-! ## Numbers as keys -/

/-- The place of a number among the numbers. -/
def numberPlace (a : Atom) : WithBot (WithTop ℚ) := (a.number?.map Number.value).getD ⊥

/-- A number can be compared with numbers only. -/
theorem keyBefore_isNumber {a b : Atom} {answer : Bool} (h : keyBefore a b = .ok answer) :
    a.number?.isSome = b.number?.isSome := by
  unfold keyBefore at h
  split at h
  · rename_i ha hb
    rw [ha, hb]
    rfl
  · split at h
    · rfl
    · rfl
    · cases h

/-- Keys that can be compared are numbers, or texts, or have no text. -/
theorem kind_of_keyBefore {a b : Atom} {answer : Bool} (h : keyBefore a b = .ok answer)
    (htext : ∃ t, keyText a = .ok t) : a.number?.isSome = true ∨ a.isText = true := by
  unfold keyBefore at h
  split at h
  · rename_i ha _
    exact .inl (Option.isSome_iff_exists.mpr ⟨_, ha⟩)
  · split at h
    · exact .inr rfl
    · obtain ⟨t, ht⟩ := htext
      cases ht
    · cases h

/-- Numbers stand in the order of their values. -/
theorem keysOrdered_of_numbers (hkeys : ∀ e ∈ es, ∃ x, e.1.number? = some x)
    (hnan : ∀ e ∈ es, ¬ e.1.IsNan) (hseparate : OrderedMap.Separate es) :
    KeysOrdered numberPlace (es.map (·.1)) where
  compares a ha b hb := by
    obtain ⟨e, he, rfl⟩ := List.mem_map.mp ha
    obtain ⟨f, hf, rfl⟩ := List.mem_map.mp hb
    obtain ⟨x, hx⟩ := hkeys e he
    obtain ⟨y, hy⟩ := hkeys f hf
    have hlt := Number.lt_iff (fun h => hnan e he ⟨x, hx, h⟩) (fun h => hnan f hf ⟨y, hy, h⟩)
    unfold keyBefore numberPlace
    simp only [hx, hy, Option.map_some, Option.getD_some]
    exact congrArg Except.ok (Bool.eq_iff_iff.mpr (hlt.trans decide_eq_true_iff.symm))
  apart := by
    rw [List.map_map, List.Nodup, List.pairwise_map]
    refine hseparate.imp_of_mem fun {e f} he hf hne heq => ?_
    obtain ⟨x, hx⟩ := hkeys e he
    obtain ⟨y, hy⟩ := hkeys f hf
    have hvalue : x.value = y.value := by
      simpa only [Function.comp_apply, numberPlace, hx, hy, Option.map_some, Option.getD_some]
        using heq
    have hsame := Number.same_of_value_eq (fun h => hnan e he ⟨x, hx, h⟩)
      (fun h => hnan f hf ⟨y, hy, h⟩) hvalue
    have hbeq : (e.1 == f.1) = x.same y := by
      change Atom.same e.1 f.1 = _
      unfold Atom.same
      rw [hx, hy]
    rw [hbeq, hsame] at hne
    cases hne

/-- Where a mapping with several entries has a text, all its keys are numbers or all are texts. -/
theorem kinds_of_writeAt (hwrite : writeAt compact fallback level (.map es i) = .ok text)
    (hmany : 2 ≤ es.length) :
    (∀ e ∈ es, ∃ x, e.1.number? = some x) ∨ ∀ e ∈ es, ∃ s, e.1 = .str s := by
  match es, hmany with
  | e :: f :: rest, _ =>
    have htext := (exists_text_of_writeAt hwrite (List.mem_cons_of_mem _ List.mem_cons_self)).1
    have hrun := hwrite
    rw [writeAt_map_eq] at hrun
    obtain ⟨sorted, hsorted, _⟩ := bind_eq_ok_iff.mp hrun
    -- The second key is compared with the first one before anything else is.
    obtain ⟨answer, hanswer, _⟩ := bind_eq_ok_iff.mp hsorted
    rcases kind_of_keyBefore hanswer htext with hnumber | htext
    · refine .inl fun g hg => ?_
      have hkind : RunSort.ComparesWithin
          (fun a b : Atom × Except Fault String => keyBefore a.1 b.1) fun a => a.1.number?.isSome :=
        fun _ _ _ => keyBefore_isNumber
      have hsame := RunSort.sortRun?_oneKind hkind hsorted _
        (List.mem_map_of_mem (List.mem_cons_of_mem _ List.mem_cons_self)) _ (List.mem_map_of_mem hg)
      exact Option.isSome_iff_exists.mp (hsame.symm.trans hnumber)
    · exact .inr (textKeys_of_writeAt hwrite (List.mem_cons_of_mem _ List.mem_cons_self) htext)

/-! ## Values in another order -/

/-- Where a mapping that can be sorted has a text, the same entries in another order have it. -/
theorem SameTexts.writeAt_of_sortable (h : SameTexts fallback es fs)
    (hseparate : OrderedMap.Separate es) (hkeys : 2 ≤ es.length → ∀ e ∈ es, ¬ e.1.IsNan)
    (hwrite : Json.writeAt compact fallback level (.map es i) = .ok text) :
    Json.writeAt compact fallback level (.map fs j) = .ok text := by
  by_cases hmany : 2 ≤ es.length
  · rcases kinds_of_writeAt hwrite hmany with hnumbers | htexts
    · exact h.writeAt_of_ordered (keysOrdered_of_numbers hnumbers (hkeys hmany) hseparate) hwrite
    · exact h.writeAt_of_ordered (keysOrdered_of_texts htexts hseparate) hwrite
  · -- There is nothing to sort, so the entries stand in one order.
    obtain ⟨mid, hperm, hall⟩ := h
    have hentries := writes_eq hwrite hperm hall
    have hmid : es = mid := by
      match es, hmany with
      | [], _ => exact (List.nil_perm.mp hperm).symm
      | [e], _ => exact List.singleton_perm.mp hperm
      | _ :: _ :: _, hmany => exact absurd (by simp) hmany
    rw [← hwrite, writeAt_map_eq, writeAt_map_eq, ← hentries, hmid]

theorem sameText_list {xs ys : List Value} (h : List.Forall₂ (SameText fallback) xs ys) :
    SameText fallback (.list xs) (.list ys) := by
  intro level text
  rw [writeAt_list_iff, writeAt_list_iff]
  refine exists_congr fun texts => and_congr_left fun _ => ⟨fun hxs => ?_, fun hys => ?_⟩
  · exact forall₂_transfer h hxs fun _ _ _ _ _ hsame => (hsame _ _).mp
  · exact forall₂_transfer h.flip hys fun _ _ _ _ _ hsame => (hsame _ _).mpr

/-- Mappings that can be sorted and have the same entries in another order have the same text. -/
theorem sameText_map_of_sortable (h : SameTexts fallback es fs)
    (hseparate : OrderedMap.Separate es) (hkeys : 2 ≤ es.length → ∀ e ∈ es, ¬ e.1.IsNan) :
    SameText fallback (.map es i) (.map fs j) := by
  have hperm := h.keys_perm
  have hseparate' : OrderedMap.Separate fs := h.separate hseparate
  have hkeys' : 2 ≤ fs.length → ∀ f ∈ fs, ¬ f.1.IsNan := by
    intro hmany f hf
    obtain ⟨e, he, heq⟩ := List.mem_map.mp (hperm.mem_iff.mpr (List.mem_map_of_mem hf))
    have hlength : es.length = fs.length := by simpa using hperm.length_eq
    exact heq ▸ hkeys (hlength ▸ hmany) e he
  exact fun level text => ⟨h.writeAt_of_sortable hseparate hkeys,
    h.symm.writeAt_of_sortable hseparate' hkeys'⟩

end Json

/-- The text of a sortable value does not show the order of its entries. -/
theorem Value.Alike.sameText {fallback : Json.Fallback} {v w : Value} (h : v.Alike w)
    (hv : v.Sortable) : Json.SameText fallback v w := by
  induction hv generalizing w with
  | leaf hlist hmap =>
    cases h with
    | refl => exact .refl
    | list => exact absurd rfl (hlist _)
    | map => exact absurd rfl (hmap _ _)
  | list _ ih =>
    cases h with
    | refl => exact .refl
    | list h => exact Json.sameText_list (forall₂_imp_mem (fun x hx _ hxy => ih x hx hxy) h)
  | map hseparate hkeys _ ih =>
    cases h with
    | refl => exact .refl
    | @map _ mid fs _ _ hperm hnames hvalues =>
      refine Json.sameText_map_of_sortable ⟨mid, hperm, ?_⟩ hseparate hkeys
      have hall := forall₂_of_keys_values hnames hvalues
      exact forall₂_imp_mem (fun e he f hef => ⟨hef.1, ih e (hperm.mem_iff.mpr he) hef.2⟩) hall

end WireShape
