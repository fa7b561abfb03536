import WireShape.Proofs.Definitions

/-!
# Maps in another order

Two maps with the same entries in different orders answer all questions in the same way, and a write
leaves such maps. What is written later stands in the same order in both.

* `OrderedMap.insert_perm`: a write into permuted maps.
* `OrderedMap.perm_of_get?`: maps that find the same are permuted.
* `OrderedMap.Reordered`: the same entries, those that were there first in another order.
* `Components.Reordered`: the same for buckets and for the definitions in them.
-/

namespace WireShape

/-- Whether a key is a text. -/
def Atom.isText : Atom → Bool
  | .str _ => true
  | _ => false

theorem Atom.isText_iff {a : Atom} : a.isText = true ↔ ∃ s, a = .str s := by
  cases a <;> simp [isText]

theorem Atom.beq_self {a : Atom} (h : a.isText = true) : (a == a) = true := by
  obtain ⟨s, rfl⟩ := isText_iff.mp h
  exact Atom.str_beq_iff.mpr rfl

/-- A key that is the same as a text is that text. -/
theorem Atom.eq_of_isText {a b : Atom} (h : (a == b) = true) (ha : a.isText = true) : a = b := by
  obtain ⟨s, rfl⟩ := isText_iff.mp ha
  exact (Atom.str_beq_iff.mp h).symm

namespace OrderedMap

section Keys

variable {κ α : Type} [BEq κ] [PartialEquivBEq κ] {m m' : OrderedMap κ α} {k : κ} {a : α}

/-- Permuted maps stay permuted when a write is made into both. -/
theorem insert_perm (hperm : m.Perm m') (h : m.Separate) :
    (m.insert k a).Perm (m'.insert k a) := by
  induction hperm with
  | nil => exact .refl _
  | cons e hperm ih =>
    rw [insert, insert]
    split
    · exact hperm.cons _
    · exact (ih (List.pairwise_cons.mp h).2).cons _
  | swap e f m =>
    have hne : (f.1 == e.1) = false := (List.pairwise_cons.mp h).1 e List.mem_cons_self
    cases he : e.1 == k with
    | true =>
      have hf : (f.1 == k) = false := Bool.eq_false_iff.mpr fun hf =>
        absurd (hne.symm.trans (BEq.trans hf (BEq.symm he))) Bool.false_ne_true
      simp only [insert, he, hf]
      exact .swap _ _ _
    | false =>
      cases hf : f.1 == k <;> simp only [insert, he, hf] <;> exact .swap _ _ _
  | @trans m₁ m₂ _ hperm₁ _ ih₁ ih₂ =>
    refine (ih₁ h).trans (ih₂ (hperm₁.pairwise h fun hne => ?_))
    rwa [BEq.comm]

omit [PartialEquivBEq κ] in
/-- A write goes to the first part of a map if its key stands there, or else to the rest. -/
theorem insert_append {later : OrderedMap κ α} : insert (m ++ later) k a =
    if m.contains k then m.insert k a ++ later else m ++ later.insert k a := by
  induction m with
  | nil => rfl
  | cons e m ih =>
    rw [List.cons_append, insert, insert, contains, get?_cons]
    by_cases hk : (e.1 == k) = true
    · rw [if_pos hk, if_pos hk, if_pos hk]
      rfl
    · rw [if_neg hk, if_neg hk, if_neg hk, ← contains, ih]
      split <;> rfl

/-- The same entries, those that were there first in another order; their keys are of one sort. -/
def Reordered (T : κ → Prop) (m m' : OrderedMap κ α) : Prop :=
  ∃ first first' later : OrderedMap κ α, m = first ++ later ∧ m' = first' ++ later ∧
    first.Perm first' ∧ ∀ e ∈ first, T e.1

namespace Reordered

variable {T : κ → Prop}

omit [BEq κ] [PartialEquivBEq κ] in
theorem refl : Reordered T m m := ⟨[], [], m, rfl, rfl, .refl _, fun _ he => by cases he⟩

omit [BEq κ] [PartialEquivBEq κ] in
theorem perm (h : Reordered T m m') : m.Perm m' := by
  obtain ⟨first, first', later, rfl, rfl, hperm, _⟩ := h
  exact hperm.append_right later

omit [BEq κ] [PartialEquivBEq κ] in
theorem mono {T' : κ → Prop} (h : Reordered T m m') (hT : ∀ k, T k → T' k) : Reordered T' m m' := by
  obtain ⟨first, first', later, hm, hm', hperm, hfirst⟩ := h
  exact ⟨first, first', later, hm, hm', hperm, fun e he => hT e.1 (hfirst e he)⟩

theorem get? (h : Reordered T m m') (hm : m.Separate) : m'.get? k = m.get? k :=
  get?_perm h.perm.symm hm

theorem insert (h : Reordered T m m') (hm : m.Separate) :
    Reordered T (m.insert k a) (m'.insert k a) := by
  obtain ⟨first, first', later, rfl, rfl, hperm, hfirst⟩ := h
  have hseparate : Separate first := (List.pairwise_append.mp hm).1
  have hcontains : first'.contains k = first.contains k := by
    rw [contains, contains, get?_perm hperm.symm hseparate]
  rw [insert_append, insert_append, hcontains]
  split
  · rename_i hk
    refine ⟨_, _, later, rfl, rfl, insert_perm hperm hseparate, fun e he => ?_⟩
    have hkey : e.1 ∈ (first.insert k a).keys := List.mem_map_of_mem he
    rw [keys_insert_of_contains first a hk] at hkey
    obtain ⟨e', he', heq⟩ := List.mem_map.mp hkey
    exact heq ▸ hfirst e' he'
  · exact ⟨first, first', _, rfl, rfl, hperm, hfirst⟩

end Reordered

end Keys

section Texts

/-- A map whose values depend on the keys only. -/
theorem get?_map_keys {κ α β : Type} [BEq κ] {m : OrderedMap κ α} {f : κ → β} {k : κ}
    (hf : ∀ j k, (j == k) = true → f j = f k) :
    OrderedMap.get? (m.map fun e => (e.1, f e.1)) k = (m.get? k).map fun _ => f k := by
  induction m with
  | nil => rfl
  | cons e m ih =>
    rw [List.map_cons, get?_cons, get?_cons, ih]
    split
    · rename_i hk
      rw [hf e.1 k hk]
      rfl
    · rfl

variable {α : Type} {m m' : OrderedMap Atom α}

/-- What stands under a text is what is found under it. -/
theorem Separate.mem_iff (hm : m.Separate) {e : Atom × α} (htexts : ∀ e ∈ m, e.1.isText = true) :
    e ∈ m ↔ e.1.isText = true ∧ m.get? e.1 = some e.2 := by
  constructor
  · exact fun he => ⟨htexts e he, hm.get? he (Atom.beq_self (htexts e he))⟩
  · rintro ⟨_, hget⟩
    obtain ⟨k, hk, hsame⟩ := mem_of_get? hget
    rwa [Atom.eq_of_isText hsame (htexts _ hk)] at hk

theorem Separate.nodup (hm : m.Separate) (htexts : ∀ e ∈ m, e.1.isText = true) : m.Nodup := by
  refine List.Pairwise.imp_of_mem (fun {e f} he _ hne => ?_) hm
  rintro rfl
  exact absurd (hne.symm.trans (Atom.beq_self (htexts e he))) Bool.false_ne_true

/-- Maps with text keys that find the same have the same entries. -/
theorem perm_of_get? (hm : m.Separate) (hm' : m'.Separate) (htexts : ∀ e ∈ m, e.1.isText = true)
    (htexts' : ∀ e ∈ m', e.1.isText = true) (hget : m'.get? = m.get?) : m.Perm m' := by
  refine (List.perm_ext_iff_of_nodup (hm.nodup htexts) (hm'.nodup htexts')).mpr fun e => ?_
  rw [hm.mem_iff htexts, hm'.mem_iff htexts', hget]

end Texts

end OrderedMap

namespace Components

variable {c c' : Components} {b n : Atom} {v : Value}

/-- No bucket has the key of another one, and no definition in a bucket the name of another one. -/
structure Apart (c : Components) : Prop where
  buckets : OrderedMap.Separate c
  names : ∀ bucket ∈ c, OrderedMap.Separate bucket.2

theorem Apart.bucket (h : c.Apart) : OrderedMap.Separate (c.bucket b) := by
  unfold Components.bucket OrderedMap.getD
  cases hget : OrderedMap.get? c b with
  | none => exact .nil
  | some entries =>
    obtain ⟨k, hk, _⟩ := OrderedMap.mem_of_get? hget
    exact h.names _ hk

theorem Apart.define (h : c.Apart) : (c.define b n v).Apart := by
  refine ⟨h.buckets.insert, fun bucket hbucket => ?_⟩
  rcases OrderedMap.mem_insert hbucket with hold | ⟨hnew, _⟩
  · exact h.names bucket hold
  · rw [hnew]
    exact h.bucket.insert

theorem Apart.opened (h : c.Apart) (hb : OrderedMap.contains c b = false) :
    Components.Apart (c ++ [(b, [])]) := by
  have hnone : ∀ bucket ∈ c, (bucket.1 == b) = false := by
    refine fun bucket hbucket => Bool.eq_false_iff.mpr fun hsame => ?_
    rw [OrderedMap.contains_iff.mpr ⟨bucket, hbucket, hsame⟩] at hb
    cases hb
  refine ⟨List.pairwise_append.mpr ⟨h.buckets, List.pairwise_singleton _ _, ?_⟩, ?_⟩
  · intro bucket hbucket opened hopened
    rw [List.mem_singleton.mp hopened]
    exact hnone bucket hbucket
  · intro bucket hbucket
    rcases List.mem_append.mp hbucket with hold | hnew
    · exact h.names bucket hold
    · rw [List.mem_singleton.mp hnew]
      exact .nil

/-- The same buckets in another order, each with the same definitions, those that were there first
in another order; what may stand there first depends on the bucket. -/
def Reordered (T : Atom → Atom → Prop) (c c' : Components) : Prop :=
  ∃ mid : Components, c.Perm mid ∧ List.Forall₂ (fun bucket bucket' =>
    bucket.1 = bucket'.1 ∧ OrderedMap.Reordered (T bucket.1) bucket.2 bucket'.2) mid c'

namespace Reordered

variable {T : Atom → Atom → Prop}

theorem found (h : c.Reordered T c') (hc : c.Apart) :
    (OrderedMap.get? c b = none ∧ OrderedMap.get? c' b = none) ∨
      ∃ j entries entries', (j == b) = true ∧ OrderedMap.get? c b = some entries ∧
        OrderedMap.get? c' b = some entries' ∧ OrderedMap.Reordered (T j) entries entries' := by
  obtain ⟨mid, hperm, hall⟩ := h
  rw [← OrderedMap.get?_perm hperm.symm hc.buckets]
  exact OrderedMap.get?_forall₂ (R := fun j => OrderedMap.Reordered (T j)) hall b

theorem bucket (h : c.Reordered T c') (hc : c.Apart) :
    OrderedMap.Reordered (fun n => ∃ j, (j == b) = true ∧ T j n) (c.bucket b) (c'.bucket b) := by
  unfold Components.bucket OrderedMap.getD
  rcases h.found hc with ⟨hnone, hnone'⟩ | ⟨j, _, _, hj, hsome, hsome', hentries⟩
  · rw [hnone, hnone']
    exact .refl
  · rw [hsome, hsome']
    exact hentries.mono fun n hn => ⟨j, hj, hn⟩

/-- The same definitions are found. -/
theorem find? (h : c.Reordered T c') (hc : c.Apart) : c'.find? b n = c.find? b n :=
  (h.bucket hc).get? hc.bucket

theorem contains (h : c.Reordered T c') (hc : c.Apart) : c'.contains b n = c.contains b n := by
  rw [contains_eq_isSome, contains_eq_isSome, h.find? hc]

theorem contains_bucket (h : c.Reordered T c') (hc : c.Apart) :
    OrderedMap.contains c' b = OrderedMap.contains c b := by
  unfold OrderedMap.contains
  rcases h.found hc with ⟨hnone, hnone'⟩ | ⟨_, _, _, _, hsome, hsome', _⟩
  · rw [hnone, hnone']
  · rw [hsome, hsome']
    rfl

theorem define (h : c.Reordered T c') (hc : c.Apart)
    (hT : ∀ j b n, (j == b) = true → T j n → T b n) :
    (c.define b n v).Reordered T (c'.define b n v) := by
  have hentries := (h.bucket (b := b) hc).insert (k := n) (a := v) hc.bucket
  obtain ⟨mid, hperm, hall⟩ := h
  refine ⟨_, OrderedMap.insert_perm hperm hc.buckets,
    OrderedMap.insert_forall₂ (R := fun j => OrderedMap.Reordered (T j)) hall fun j hj => ?_⟩
  refine hentries.mono ?_
  rintro m ⟨k, hk, hm⟩
  rcases hj with rfl | hj
  · exact hT k j m hk hm
  · exact hT k j m (BEq.trans hk (BEq.symm hj)) hm

theorem opened (h : c.Reordered T c') :
    Components.Reordered T (c ++ [(b, [])]) (c' ++ [(b, [])]) := by
  obtain ⟨mid, hperm, hall⟩ := h
  exact ⟨mid ++ [(b, [])], hperm.append_right _, List.rel_append hall (.cons ⟨rfl, .refl⟩ .nil)⟩

end Reordered

end Components

end WireShape
