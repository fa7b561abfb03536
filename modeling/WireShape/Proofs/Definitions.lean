import WireShape.Proofs.Keys
import WireShape.Compile.Components

/-!
# Definitions by bucket and name

Walks and registries only ever add definitions or write over them, so a name that is defined stays
defined.

* `Components.contains_define`: which names are defined after one more definition.
* `Components.Names`: a name that stands in a bucket, as a key that is the same or the very one.
* `Components.mem_define`: which definitions there are after one more.
-/

namespace WireShape

namespace Components

variable {c : Components} {b b' n n' : Atom} {v : Value}

/-- The definition of a bucket and a name. -/
def find? (c : Components) (b n : Atom) : Option Value := OrderedMap.get? (c.bucket b) n

theorem contains_eq_isSome : c.contains b n = (c.find? b n).isSome := rfl

theorem bucket_define : (c.define b n v).bucket b' =
    if b == b' then OrderedMap.insert (c.bucket b) n v else c.bucket b' := by
  unfold define bucket OrderedMap.getD
  rw [OrderedMap.get?_insert]
  cases b == b' <;> rfl

theorem bucket_congr (h : (b == b') = true) : c.bucket b = c.bucket b' := by
  unfold bucket OrderedMap.getD
  rw [OrderedMap.get?_congr h]

/-- A new bucket that is empty changes none. -/
theorem bucket_append_empty : Components.bucket (c ++ [(b, [])]) b' = c.bucket b' := by
  unfold bucket OrderedMap.getD
  rw [OrderedMap.get?_append]
  cases OrderedMap.get? c b' with
  | some entries => rfl
  | none =>
    rw [OrderedMap.get?_cons]
    split <;> rfl

/-- The keys of a bucket stay different. -/
theorem separate_define (h : OrderedMap.Separate (c.bucket b')) :
    OrderedMap.Separate ((c.define b n v).bucket b') := by
  rw [bucket_define]
  split
  · rename_i hb
    rw [bucket_congr hb]
    exact h.insert
  · exact h

/-- What is found in a bucket stands there. -/
theorem mem_of_find? (hfound : c.find? b n = some v) : ∃ bucket ∈ c, ∃ entry ∈ bucket.2,
    (bucket.1 == b) = true ∧ (entry.1 == n) = true ∧ entry.2 = v := by
  unfold Components.find? Components.bucket OrderedMap.getD at hfound
  cases hget : OrderedMap.get? c b with
  | none =>
    rw [hget] at hfound
    cases hfound
  | some entries =>
    rw [hget] at hfound
    obtain ⟨k, hk, hb⟩ := OrderedMap.mem_of_get? hget
    obtain ⟨k', hk', hn⟩ := OrderedMap.mem_of_get? hfound
    exact ⟨_, hk, _, hk', hb, hn, rfl⟩

/-- What is found after one more definition. -/
theorem find?_define : (c.define b n v).find? b' n' =
    if (b == b') && (n == n') then some v else c.find? b' n' := by
  unfold find?
  rw [bucket_define]
  cases hb : b == b' with
  | false => rfl
  | true =>
    rw [if_pos rfl, OrderedMap.get?_insert, bucket_congr hb]
    rfl

theorem contains_define : (c.define b n v).contains b' n' =
    ((b == b') && (n == n') || c.contains b' n') := by
  rw [contains_eq_isSome, contains_eq_isSome, find?_define]
  cases (b == b') && (n == n') <;> rfl

/-! ## Names that stand in a bucket -/

/-- A key that is the one asked for: the very same, or one that counts as the same. -/
def Matches (k j : Atom) : Prop := k = j ∨ (k == j) = true

/-- A bucket has a definition of a name. -/
def Names (c : Components) (b n : Atom) : Prop :=
  ∃ bucket ∈ c, Matches bucket.1 b ∧ ∃ entry ∈ bucket.2, Matches entry.1 n

theorem Matches.trans {a b c : Atom} (h : Matches a b) (h' : Matches b c) : Matches a c := by
  rcases h with rfl | hab
  · exact h'
  · rcases h' with rfl | hbc
    · exact .inr hab
    · exact .inr (BEq.trans hab hbc)

theorem Names.congr (h : c.Names b n) (hb : Matches b b') (hn : Matches n n') : c.Names b' n' := by
  obtain ⟨bucket, hbucket, hb₁, entry, hentry, hn₁⟩ := h
  exact ⟨bucket, hbucket, hb₁.trans hb, entry, hentry, hn₁.trans hn⟩

/-- A definition goes to the first bucket of its name, or to a new one. -/
theorem define_cons {bucket : Atom × OrderedMap Atom Value} : define (bucket :: c) b n v =
    if bucket.1 == b then (bucket.1, OrderedMap.insert bucket.2 n v) :: c
    else bucket :: define c b n v := by
  unfold define Components.bucket OrderedMap.getD
  rw [OrderedMap.get?_cons, OrderedMap.insert]
  cases bucket.1 == b <;> rfl

/-- What one more definition makes of the buckets. -/
theorem mem_define {bucket : Atom × OrderedMap Atom Value} (h : bucket ∈ c.define b n v) :
    bucket ∈ c ∨ (∃ entries, (bucket.1, entries) ∈ c ∧ bucket.2 = OrderedMap.insert entries n v ∧
      (bucket.1 == b) = true) ∨ bucket = (b, [(n, v)]) := by
  induction c with
  | nil => exact .inr (.inr (List.mem_singleton.mp h))
  | cons first c ih =>
    rw [define_cons] at h
    split at h
    · rename_i hb
      rcases List.mem_cons.mp h with rfl | hmem
      · exact .inr (.inl ⟨first.2, List.mem_cons_self, rfl, hb⟩)
      · exact .inl (List.mem_cons_of_mem _ hmem)
    · rcases List.mem_cons.mp h with rfl | hmem
      · exact .inl List.mem_cons_self
      · rcases ih hmem with hold | ⟨entries, hold, hnew, hb⟩ | hnew
        · exact .inl (List.mem_cons_of_mem _ hold)
        · exact .inr (.inl ⟨entries, List.mem_cons_of_mem _ hold, hnew, hb⟩)
        · exact .inr (.inr hnew)

theorem keys_insert {m : OrderedMap Atom Value} {e : Atom × Value} (h : e ∈ m) :
    ∃ w, (e.1, w) ∈ m.insert n v := by
  induction m with
  | nil => cases h
  | cons first m ih =>
    rw [OrderedMap.insert]
    split
    · rcases List.mem_cons.mp h with rfl | hmem
      · exact ⟨v, List.mem_cons_self⟩
      · exact ⟨e.2, List.mem_cons_of_mem _ hmem⟩
    · rcases List.mem_cons.mp h with rfl | hmem
      · exact ⟨e.2, List.mem_cons_self⟩
      · obtain ⟨w, hw⟩ := ih hmem
        exact ⟨w, List.mem_cons_of_mem _ hw⟩

theorem key_mem_insert {m : OrderedMap Atom Value} : ∃ k, (k, v) ∈ m.insert n v ∧ Matches k n := by
  induction m with
  | nil => exact ⟨n, List.mem_cons_self, .inl rfl⟩
  | cons first m ih =>
    rw [OrderedMap.insert]
    split
    · rename_i hn
      exact ⟨first.1, List.mem_cons_self, .inr hn⟩
    · obtain ⟨k, hk, hmatch⟩ := ih
      exact ⟨k, List.mem_cons_of_mem _ hk, hmatch⟩

/-- A definition has its name. -/
theorem names_define_self : (c.define b n v).Names b n := by
  induction c with
  | nil => exact ⟨(b, [(n, v)]), List.mem_cons_self, .inl rfl, (n, v), List.mem_cons_self, .inl rfl⟩
  | cons first c ih =>
    rw [define_cons]
    split
    · rename_i hb
      obtain ⟨k, hk, hmatch⟩ := key_mem_insert (m := first.2) (n := n) (v := v)
      exact ⟨_, List.mem_cons_self, .inr hb, (k, v), hk, hmatch⟩
    · obtain ⟨bucket, hbucket, hb, hentry⟩ := ih
      exact ⟨bucket, List.mem_cons_of_mem _ hbucket, hb, hentry⟩

/-- No name is lost by one more definition. -/
theorem Names.define (h : c.Names b' n') : (c.define b n v).Names b' n' := by
  obtain ⟨bucket, hbucket, hb, entry, hentry, hn⟩ := h
  induction c with
  | nil => cases hbucket
  | cons first c ih =>
    rw [define_cons]
    split
    · rcases List.mem_cons.mp hbucket with rfl | hmem
      · obtain ⟨w, hw⟩ := keys_insert (n := n) (v := v) hentry
        exact ⟨_, List.mem_cons_self, hb, (entry.1, w), hw, hn⟩
      · exact ⟨bucket, List.mem_cons_of_mem _ hmem, hb, entry, hentry, hn⟩
    · rcases List.mem_cons.mp hbucket with rfl | hmem
      · exact ⟨bucket, List.mem_cons_self, hb, entry, hentry, hn⟩
      · obtain ⟨bucket', hbucket', hrest⟩ := ih hmem
        exact ⟨bucket', List.mem_cons_of_mem _ hbucket', hrest⟩

/-- A name that is found stands in its bucket. -/
theorem names_of_contains (h : c.contains b n = true) : c.Names b n := by
  obtain ⟨_, hfound⟩ := Option.isSome_iff_exists.mp h
  obtain ⟨bucket, hbucket, entry, hentry, hb, hn, _⟩ := mem_of_find? hfound
  exact ⟨bucket, hbucket, .inr hb, entry, hentry, .inr hn⟩

end Components

end WireShape
