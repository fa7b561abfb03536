import Mathlib.Data.List.Nodup
import WireShape.Proofs.Json.Shapes
import WireShape.Proofs.Reordered

/-!
# JSON text of values in another order

The compact text of a mapping has its keys in their order, so it does not depend on the order in which
they were written. That holds also where a value has no text, for there may be several reasons why it
has none: keys can be sorted only if they are of one sort, so where one of them is a text, all are.

* `Value.Reordered`: values that are the same but for the order of the entries of mappings.
* `Json.SameText`: values that have the same text, or none.
* `Json.sameText_map`: mappings with the same entries in another order have the same text.
-/

namespace WireShape

open Value (Fields)

/-- Values that are the same but for the order of the entries of mappings. -/
inductive Value.Reordered : Value → Value → Prop
  | refl {v : Value} : Reordered v v
  | list {xs ys : List Value} (h : List.Forall₂ Reordered xs ys) : Reordered (list xs) (list ys)
  | map {es mid fs : Fields} {identity : Option Nat} (hperm : es.Perm mid)
      (hkeys : mid.map (·.1) = fs.map (·.1))
      (hvalues : List.Forall₂ Reordered (mid.map (·.2)) (fs.map (·.2))) :
      Reordered (map es identity) (map fs identity)

/-- Entries that agree in their keys have the same keys in the same order. -/
theorem keys_eq {κ α β : Type} {R : κ × α → κ × β → Prop} {es : List (κ × α)} {fs : List (κ × β)}
    (h : List.Forall₂ (fun e f => e.1 = f.1 ∧ R e f) es fs) : es.map (·.1) = fs.map (·.1) := by
  have hmap : List.Forall₂ Eq (es.map (·.1)) (fs.map (·.1)) :=
    List.forall₂_map_left_iff.mpr (List.forall₂_map_right_iff.mpr (h.imp fun _ _ => And.left))
  rwa [List.forall₂_eq_eq_eq] at hmap

/-- Entries whose keys are the same one by one and whose values are related one by one. -/
theorem forall₂_of_keys_values {κ α β : Type} {R : α → β → Prop} {es : List (κ × α)}
    {fs : List (κ × β)} (hkeys : es.map (·.1) = fs.map (·.1))
    (hvalues : List.Forall₂ R (es.map (·.2)) (fs.map (·.2))) :
    List.Forall₂ (fun e f => e.1 = f.1 ∧ R e.2 f.2) es fs := by
  rw [List.forall₂_map_left_iff, List.forall₂_map_right_iff] at hvalues
  induction hvalues with
  | nil => exact .nil
  | cons hvalue _ ih =>
    rw [List.map_cons, List.map_cons, List.cons.injEq] at hkeys
    exact .cons ⟨hkeys.1, hvalue⟩ (ih hkeys.2)

namespace Json

variable {fallback : Fallback} {level : Nat} {es mid fs : Fields} {e : Atom × Value}
  {i j : Option Nat} {text : String} {u v w : Value}

/-! ## Keys of one sort -/

/-- A text can be compared with texts only. -/
theorem keyBefore_kind {a b : Atom} {answer : Bool} (h : keyBefore a b = .ok answer) :
    a.isText = b.isText := by
  unfold keyBefore at h
  split at h
  · rename_i ha hb
    have hnumber : ∀ {a : Atom} {x : Number}, a.number? = some x → a.isText = false := by
      intro a x ha
      cases a <;> first | rfl | cases ha
    rw [hnumber ha, hnumber hb]
  · split at h
    · rfl
    · rfl
    · cases h

/-- Where a mapping has a text and one of its keys is a text, all are. -/
theorem textKeys_of_writeAt (hwrite : writeAt compact fallback level (.map es i) = .ok text)
    (he : e ∈ es) (htext : e.1.isText = true) : ∀ f ∈ es, ∃ s, f.1 = .str s := by
  intro f hf
  rw [writeAt, bind_eq_ok_iff] at hwrite
  obtain ⟨_, harrange, _⟩ := hwrite
  obtain ⟨sorted, hsorted, _⟩ := bind_eq_ok_iff.mp harrange
  have hlt : RunSort.ComparesWithin
      (fun a b : Atom × Except Fault String => keyBefore a.1 b.1) fun a => a.1.isText :=
    fun _ _ _ => keyBefore_kind
  rw [writeEntries_eq] at hsorted
  have hsame := RunSort.sortRun?_oneKind hlt hsorted _ (List.mem_map_of_mem he) _
    (List.mem_map_of_mem hf)
  exact Atom.isText_iff.mp (hsame.symm.trans htext)

/-! ## Keys in their order -/

/-- Keys that stand in a linear order, no two of them in one place. -/
structure KeysOrdered {K : Type} [LinearOrder K] (key : Atom → K) (keys : List Atom) : Prop where
  compares : ∀ a ∈ keys, ∀ b ∈ keys, keyBefore a b = .ok (decide (key a < key b))
  apart : (keys.map key).Nodup

theorem KeysOrdered.perm {K : Type} [LinearOrder K] {key : Atom → K} {keys keys' : List Atom}
    (h : KeysOrdered key keys) (hperm : keys.Perm keys') : KeysOrdered key keys' where
  compares a ha b hb := h.compares a (hperm.mem_iff.mpr ha) b (hperm.mem_iff.mpr hb)
  apart := (hperm.map key).nodup_iff.mp h.apart

/-- Texts stand in the order of their characters. -/
theorem keysOrdered_of_texts (hkeys : ∀ e ∈ es, ∃ s, e.1 = .str s)
    (hseparate : OrderedMap.Separate es) : KeysOrdered keyName (es.map (·.1)) where
  compares a ha b hb := by
    obtain ⟨e, he, rfl⟩ := List.mem_map.mp ha
    obtain ⟨f, hf, rfl⟩ := List.mem_map.mp hb
    obtain ⟨s, hs⟩ := hkeys e he
    obtain ⟨t, ht⟩ := hkeys f hf
    rw [hs, ht]
    rfl
  apart := by
    rw [List.map_map, List.Nodup, List.pairwise_map]
    refine hseparate.imp_of_mem fun {e f} he hf hne heq => ?_
    obtain ⟨s, hs⟩ := hkeys e he
    obtain ⟨t, ht⟩ := hkeys f hf
    have hname : s = t := by simpa only [Function.comp_apply, hs, ht, keyName] using heq
    rw [hs, ht, hname, Atom.str_beq_iff.mpr rfl] at hne
    cases hne

/-- A mapping is written with the entries that sorting gives. -/
theorem writeAt_map_eq : writeAt compact fallback level (.map es i) =
    (RunSort.sortRun? (fun a b => keyBefore a.1 b.1) (es.map fun e =>
      (e.1, writeAt compact fallback (level + 1) e.2)) >>= fun entries => do
        let parts ← entries.mapM fun (k, text) => do
          return (← keyText k) ++ compact.keySeparator ++ (← text)
        return compact.enclose level "\x7b" "\x7d" parts) := by
  rw [writeAt, writeEntries_eq]
  change (do
    let parts ← RunSort.sortRun? _ _ >>= _
    return _) = _
  rw [bind_assoc]

/-- Where a mapping has a text, its keys and its values have. -/
theorem exists_text_of_writeAt (hwrite : writeAt compact fallback level (.map es i) = .ok text)
    (he : e ∈ es) :
    (∃ t, keyText e.1 = .ok t) ∧ ∃ t, writeAt compact fallback (level + 1) e.2 = .ok t := by
  rw [writeAt_map_eq] at hwrite
  obtain ⟨sorted, hsorted, hrest⟩ := bind_eq_ok_iff.mp hwrite
  obtain ⟨parts, htexts, _⟩ := bind_eq_ok_iff.mp hrest
  have hmem := (RunSort.sortRun?_perm hsorted).mem_iff.mpr (List.mem_map_of_mem he)
  obtain ⟨_, _, hentry⟩ := forall₂_left (mapM_eq_ok_iff.mp htexts) hmem
  obtain ⟨key, hkey, hrest⟩ := bind_eq_ok_iff.mp hentry
  obtain ⟨t, ht, _⟩ := bind_eq_ok_iff.mp hrest
  exact ⟨⟨key, hkey⟩, t, ht⟩

/-! ## Values with the same text -/

/-- Values that have the same text at each level, or none. -/
def SameText (fallback : Fallback) (v w : Value) : Prop :=
  ∀ level text, writeAt compact fallback level v = .ok text ↔
    writeAt compact fallback level w = .ok text

namespace SameText

theorem refl : SameText fallback v v := fun _ _ => Iff.rfl

theorem symm (h : SameText fallback v w) : SameText fallback w v :=
  fun level text => (h level text).symm

end SameText

/-- The entries of one mapping have the keys of the other one, in another order, and values with the
same text. -/
def SameTexts (fallback : Fallback) (es fs : Fields) : Prop :=
  ∃ mid, es.Perm mid ∧ List.Forall₂ (fun e f => e.1 = f.1 ∧ SameText fallback e.2 f.2) mid fs

theorem SameTexts.symm (h : SameTexts fallback es fs) : SameTexts fallback fs es := by
  obtain ⟨mid, hperm, hall⟩ := h
  obtain ⟨mid', hall', hperm'⟩ := List.perm_comp_forall₂ hperm hall
  refine ⟨mid', hperm'.symm, (List.Forall₂.flip hall').imp ?_⟩
  exact fun _ _ hsame => ⟨hsame.1.symm, hsame.2.symm⟩

theorem SameTexts.keys_perm (h : SameTexts fallback es fs) :
    (es.map (·.1)).Perm (fs.map (·.1)) := by
  obtain ⟨mid, hperm, hall⟩ := h
  exact keys_eq hall ▸ hperm.map _

theorem SameTexts.separate (h : SameTexts fallback es fs) (hseparate : OrderedMap.Separate es) :
    OrderedMap.Separate fs := by
  refine OrderedMap.separate_iff.mpr
    (h.keys_perm.pairwise (OrderedMap.separate_iff.mp hseparate) ?_)
  intro j k hne
  rwa [BEq.comm]

/-- Entries that take each other's places are written in the same way. -/
theorem writes_eq (hwrite : writeAt compact fallback level (.map es i) = .ok text)
    (hperm : es.Perm mid)
    (hall : List.Forall₂ (fun e f => e.1 = f.1 ∧ SameText fallback e.2 f.2) mid fs) :
    (mid.map fun e => (e.1, writeAt compact fallback (level + 1) e.2)) =
      fs.map fun e => (e.1, writeAt compact fallback (level + 1) e.2) := by
  rw [← List.forall₂_eq_eq_eq, List.forall₂_map_left_iff, List.forall₂_map_right_iff]
  refine forall₂_imp_mem (fun e he f hsame => ?_) hall
  obtain ⟨_, t, ht⟩ := exists_text_of_writeAt hwrite (hperm.mem_iff.mpr he)
  rw [hsame.1, ht, (hsame.2 _ t).mp ht]

/-- Where one of the mappings has a text and its keys have an order, the other one has that text. -/
theorem SameTexts.writeAt_of_ordered {K : Type} [LinearOrder K] {key : Atom → K}
    (h : SameTexts fallback es fs) (hordered : KeysOrdered key (es.map (·.1)))
    (hwrite : Json.writeAt compact fallback level (.map es i) = .ok text) :
    Json.writeAt compact fallback level (.map fs j) = .ok text := by
  obtain ⟨mid, hperm, hall⟩ := h
  have hcompares : RunSort.ComparesBy (fun a b => keyBefore a.1 b.1)
      (fun e : Atom × Except Fault String => key e.1)
      (es.map fun e => (e.1, Json.writeAt compact fallback (level + 1) e.2)) := by
    intro x hx y hy
    obtain ⟨e, he, rfl⟩ := List.mem_map.mp hx
    obtain ⟨f, hf, rfl⟩ := List.mem_map.mp hy
    exact hordered.compares e.1 (List.mem_map_of_mem he) f.1 (List.mem_map_of_mem hf)
  have hsorted := RunSort.sortRun?_perm_eq hcompares (fun x hx y hy heq => ?_) (hperm.map _)
  · rw [← hwrite, writeAt_map_eq, writeAt_map_eq, ← writes_eq hwrite hperm hall, hsorted]
  · obtain ⟨e, he, rfl⟩ := List.mem_map.mp hx
    obtain ⟨f, hf, rfl⟩ := List.mem_map.mp hy
    have hapart := hordered.apart
    rw [List.map_map] at hapart
    rw [List.inj_on_of_nodup_map hapart he hf heq]

/-- Where one of the mappings has a text and a text key, the other one has that text. -/
theorem SameTexts.writeAt (h : SameTexts fallback es fs) (hseparate : OrderedMap.Separate es)
    (htext : ∃ e ∈ es, e.1.isText = true)
    (hwrite : Json.writeAt compact fallback level (.map es i) = .ok text) :
    Json.writeAt compact fallback level (.map fs j) = .ok text := by
  obtain ⟨e, he, htext⟩ := htext
  have hkeys := textKeys_of_writeAt hwrite he htext
  exact h.writeAt_of_ordered (keysOrdered_of_texts hkeys hseparate) hwrite

/-- Mappings with a text key that have the same entries in another order have the same text. -/
theorem sameText_map (h : SameTexts fallback es fs) (hseparate : OrderedMap.Separate es)
    (htext : ∃ e ∈ es, e.1.isText = true) : SameText fallback (.map es i) (.map fs j) := by
  have htext' : ∃ f ∈ fs, f.1.isText = true := by
    obtain ⟨e, he, htext⟩ := htext
    obtain ⟨f, hf, heq⟩ := List.mem_map.mp (h.keys_perm.mem_iff.mp (List.mem_map_of_mem he))
    exact ⟨f, hf, heq ▸ htext⟩
  exact fun level text => ⟨h.writeAt hseparate htext, h.symm.writeAt (h.separate hseparate) htext'⟩

end Json

/-! ## Definitions in another order -/

section Definitions

variable {fallback : Json.Fallback}

theorem OrderedMap.Reordered.value {T : Atom → Prop} {m m' : OrderedMap Atom Value}
    (h : m.Reordered T m') : (Value.ofEntries m).Reordered (.ofEntries m') :=
  .map h.perm rfl (List.forall₂_same.mpr fun _ _ => .refl)

/-- Definitions in another order have the same text, if those are texts whose order differs. -/
theorem OrderedMap.Reordered.sameText {T : Atom → Prop} {m m' : OrderedMap Atom Value}
    (h : m.Reordered T m') (hT : ∀ k, T k → k.isText = true) (hm : m.Separate) :
    Json.SameText fallback (.ofEntries m) (.ofEntries m') := by
  have hperm := h.perm
  obtain ⟨first, first', later, rfl, rfl, hfirst, htexts⟩ := h
  cases first with
  | nil =>
    rw [hfirst.symm.eq_nil]
    exact .refl
  | cons e first =>
    refine Json.sameText_map ⟨_, hperm, List.forall₂_same.mpr fun _ _ => ⟨rfl, .refl⟩⟩ hm ?_
    exact ⟨e, List.mem_cons_self, hT _ (htexts e List.mem_cons_self)⟩

variable {T : Atom → Atom → Prop} {c c' : Components}

theorem Components.Reordered.value (h : c.Reordered T c') : c.toValue.Reordered c'.toValue := by
  obtain ⟨mid, hperm, hall⟩ := h
  refine .map (hperm.map _) ?_ ?_
  · rw [OrderedMap.mapValues, List.map_map, List.map_map]
    exact keys_eq hall
  · rw [OrderedMap.mapValues, List.map_map, List.map_map]
    exact List.forall₂_map_left_iff.mpr (List.forall₂_map_right_iff.mpr
      (hall.imp fun _ _ hentries => hentries.2.value))

/-- Definitions in another order have the same text, bucket by bucket. -/
theorem Components.Reordered.sameText (h : c.Reordered T c') (hc : c.Apart)
    (hT : ∀ b n, T b n → n.isText = true)
    (hschemas : OrderedMap.contains c (.str "schemas") = true) :
    Json.SameText fallback c.toValue c'.toValue := by
  obtain ⟨mid, hperm, hall⟩ := h
  refine Json.sameText_map ⟨_, hperm.map _, ?_⟩ (List.pairwise_map.mpr hc.buckets) ?_
  · refine List.forall₂_map_left_iff.mpr (List.forall₂_map_right_iff.mpr ?_)
    refine forall₂_imp_mem (fun bucket hbucket _ hsame => ?_) hall
    exact ⟨hsame.1, hsame.2.sameText (hT _) (hc.names bucket (hperm.mem_iff.mpr hbucket))⟩
  · obtain ⟨bucket, hbucket, hkey⟩ := OrderedMap.contains_iff.mp hschemas
    refine ⟨_, List.mem_map_of_mem hbucket, ?_⟩
    exact Atom.isText_iff.mpr ⟨_, (Atom.str_beq_iff.mp (BEq.symm hkey))⟩

end Definitions

end WireShape
