/-!
# Maps that remember the order of insertion

An `OrderedMap` is the list of its entries, oldest first. Writing to a key that is already
present keeps the entry where it stands and keeps the key as it was first written; a new key
goes to the end.

* `get?_insert_self`, `get?_insert_of_ne`: reading back after one write.
* `keys_insert_of_contains`, `insert_of_not_contains`: where the written entry stands.
-/

namespace WireShape

/-- A finite map as the list of its entries, oldest first. -/
abbrev OrderedMap (κ α : Type) := List (κ × α)

namespace OrderedMap

variable {κ α β : Type}

/-- The keys, oldest first. -/
def keys (m : OrderedMap κ α) : List κ := m.map Prod.fst

/-- The values, in the order of their keys. -/
def values (m : OrderedMap κ α) : List α := m.map Prod.snd

/-- Applies `f` to every value and keeps keys and order. -/
def mapValues (f : α → β) (m : OrderedMap κ α) : OrderedMap κ β := m.map fun e => (e.1, f e.2)

section Lookup

variable [BEq κ]

/-- The value of the first entry whose key equals `k`. -/
def get? : OrderedMap κ α → κ → Option α
  | [], _ => none
  | (k', a) :: m, k => if k' == k then some a else get? m k

def getD (m : OrderedMap κ α) (k : κ) (fallback : α) : α := (m.get? k).getD fallback

def contains (m : OrderedMap κ α) (k : κ) : Bool := (m.get? k).isSome

/-- Writes `a` under `k`: in place if the key is present, else at the end. -/
def insert : OrderedMap κ α → κ → α → OrderedMap κ α
  | [], k, a => [(k, a)]
  | (k', a') :: m, k, a => if k' == k then (k', a) :: m else (k', a') :: insert m k a

/-- Removes the entries of `k`. -/
def erase (m : OrderedMap κ α) (k : κ) : OrderedMap κ α := m.filter fun e => !(e.1 == k)

/-- Writes the entries of `later` one by one over `m`. -/
def update (m later : OrderedMap κ α) : OrderedMap κ α :=
  later.foldl (fun acc e => acc.insert e.1 e.2) m

/-- The map that results from writing the given entries one by one. -/
def ofEntries (entries : List (κ × α)) : OrderedMap κ α := update [] entries

@[simp] theorem get?_nil (k : κ) : get? ([] : OrderedMap κ α) k = none := rfl

end Lookup

/-! ## Reading back a write -/

variable [BEq κ] [LawfulBEq κ]

theorem get?_insert_self (m : OrderedMap κ α) (k : κ) (a : α) : (m.insert k a).get? k = some a := by
  induction m with
  | nil => simp [insert, get?]
  | cons e m ih =>
    by_cases h : e.1 == k
    · simp [insert, get?, h]
    · simp [insert, get?, h, ih]

theorem get?_insert_of_ne (m : OrderedMap κ α) {k j : κ} (a : α) (h : k ≠ j) :
    (m.insert k a).get? j = m.get? j := by
  induction m with
  | nil => simp [insert, get?, h]
  | cons e m ih =>
    by_cases hk : e.1 = k
    · subst hk
      simp [insert, get?, h]
    · by_cases hj : e.1 = j
      · subst hj
        simp [insert, get?, hk]
      · simp [insert, get?, hk, hj, ih]

omit [LawfulBEq κ] in
theorem keys_insert_of_contains (m : OrderedMap κ α) {k : κ} (a : α) (h : m.contains k = true) :
    (m.insert k a).keys = m.keys := by
  induction m with
  | nil => simp [contains, get?] at h
  | cons e m ih =>
    by_cases hk : (e.1 == k) = true
    · simp [insert, keys, hk]
    · have : contains m k = true := by simpa [contains, get?, hk] using h
      have := ih this
      simp only [keys] at this ⊢
      simp [insert, hk, this]

theorem insert_of_not_contains (m : OrderedMap κ α) {k : κ} (a : α) (h : m.contains k = false) :
    m.insert k a = m ++ [(k, a)] := by
  induction m with
  | nil => rfl
  | cons e m ih =>
    by_cases hk : e.1 = k
    · subst hk
      simp [contains, get?] at h
    · have : contains m k = false := by simpa [contains, get?, hk] using h
      simp [insert, hk, ih this]

end OrderedMap

end WireShape
