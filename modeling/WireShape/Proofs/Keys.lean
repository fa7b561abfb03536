import Mathlib.Algebra.Field.Rat
import Mathlib.Algebra.Order.Ring.Rat
import Mathlib.Data.List.Forall2
import Mathlib.Tactic.NormNum
import Mathlib.Tactic.Ring
import WireShape.Atom

/-!
# When two keys are the same

Keys are compared by value across their forms: `1`, `1.0` and `true` are one key. The comparison is
symmetric and transitive, but a datum that is not a number need not be the same as itself, so it is
no equivalence. Maps with such keys still read back what was written, which is all that walks and
registries rely on.

* `Atom.key?`, `Atom.same_iff`: atoms are the same if they have a key in common.
* `OrderedMap.get?_insert`: what is found after one write.
* `OrderedMap.mem_insert`: which entries there are after one write.
* `OrderedMap.keys_insert_eq`: which keys there are, in order.
* `OrderedMap.Separate`: maps no two of whose keys are the same.
-/

namespace WireShape

/-! ## Numbers by their value -/

namespace Binary64

/-- The value of a finite datum. -/
def rational (negative : Bool) (mantissa : Nat) (exponent : Int) : ℚ :=
  signed negative mantissa * (2 : ℚ) ^ exponent

/-- Scaled integers are compared by their values. -/
theorem compareScaled_eq_compare {a ea b eb : Int} :
    compareScaled a ea b eb = compare ((a : ℚ) * (2 : ℚ) ^ ea) (b * (2 : ℚ) ^ eb) := by
  have htwo : (2 : ℚ) ≠ 0 := two_ne_zero
  have hscale : ∀ x e : Int, min ea eb ≤ e →
      (x : ℚ) * 2 ^ e = ((x * twoTo (e - min ea eb).toNat : Int) : ℚ) * 2 ^ min ea eb := by
    intro x e he
    have hpow : ((twoTo (e - min ea eb).toNat : Nat) : ℚ) = (2 : ℚ) ^ (e - min ea eb) := by
      have hnat : (((e - min ea eb).toNat : Nat) : Int) = e - min ea eb := by omega
      rw [← hnat, zpow_natCast]
      exact Nat.cast_pow 2 _
    rw [Int.cast_mul, Int.cast_natCast, hpow, mul_assoc, ← zpow_add₀ htwo]
    congr 2
    omega
  have hpos : (0 : ℚ) < 2 ^ min ea eb := zpow_pos two_pos _
  have hmono : ∀ x y : Int, (x : ℚ) * 2 ^ min ea eb < y * 2 ^ min ea eb ↔ x < y := fun x y =>
    (mul_lt_mul_iff_left₀ hpos).trans Int.cast_lt
  rw [hscale a ea (min_le_left _ _), hscale b eb (min_le_right _ _)]
  unfold compareScaled
  rw [LinearOrder.compare_eq_compareOfLessAndEq, LinearOrder.compare_eq_compareOfLessAndEq]
  unfold compareOfLessAndEq
  simp only [hmono, mul_left_inj' hpos.ne', Int.cast_inj]

theorem compareScaled_eq_iff {a ea b eb : Int} :
    compareScaled a ea b eb = .eq ↔ (a : ℚ) * (2 : ℚ) ^ ea = b * (2 : ℚ) ^ eb := by
  rw [compareScaled_eq_compare]
  exact compare_eq_iff_eq

end Binary64

namespace Atom

/-- What an atom is told apart by. -/
inductive Key
  | number (q : ℚ)
  | infinite (negative : Bool)
  | notANumber (payload : Nat)
  | callable (identity : Nat)
  | other (a : Atom)
deriving DecidableEq

/-- The key of a number; none for a datum that is not even the same as itself. -/
def numberKey? : Number → Option Key
  | .int i => some (.number i)
  | .float (.finite negative m e) => some (.number (Binary64.rational negative m e))
  | .float (.infinite negative) => some (.infinite negative)
  | .float (.nan payload) => if payload = 0 then none else some (.notANumber payload)

/-- The key of an atom; none for a datum that is not even the same as itself. -/
def key? (a : Atom) : Option Key :=
  match a.number? with
  | some x => numberKey? x
  | none =>
    match a with
    | .callable i _ => some (.callable i)
    | a => some (.other a)

theorem scaled_iff {negative : Bool} {m : Nat} {e i : Int} :
    Binary64.compareScaled (Binary64.signed negative m) e i 0 = .eq ↔
      Binary64.rational negative m e = i := by
  rw [Binary64.compareScaled_eq_iff, zpow_zero, mul_one]
  rfl

theorem sameNumber_iff {x y : Number} :
    x.same y = true ↔ (numberKey? x).isSome = true ∧ numberKey? x = numberKey? y := by
  rcases x with i | p | a | ⟨a, m, e⟩ <;> rcases y with j | q | b | ⟨b, n, f⟩
  case int.float.finite =>
    have hswap : ∀ o : Ordering, o.swap = .eq ↔ o = .eq := by decide
    simp [Number.same, Number.compare?, Binary64.compareInt?, numberKey?, hswap, scaled_iff,
      eq_comm (a := (i : ℚ))]
  case float.finite.int =>
    simp [Number.same, Number.compare?, Binary64.compareInt?, numberKey?, scaled_iff]
  case float.finite.float.finite =>
    simp [Number.same, Number.compare?, Binary64.compare?, numberKey?,
      Binary64.compareScaled_eq_iff, Binary64.rational]
  case float.nan.float.nan =>
    by_cases hp : p = 0 <;> by_cases hq : q = 0 <;> simp [Number.same, numberKey?, hp, hq]
  case int.float.infinite =>
    cases b <;> simp [Number.same, Number.compare?, Binary64.compareInt?, numberKey?]
  case float.infinite.int =>
    cases a <;> simp [Number.same, Number.compare?, Binary64.compareInt?, numberKey?]
  case float.infinite.float.infinite =>
    cases a <;> cases b <;> simp [Number.same, Number.compare?, Binary64.compare?, numberKey?]
  case float.infinite.float.finite =>
    cases a <;> simp [Number.same, Number.compare?, Binary64.compare?, numberKey?]
  case float.finite.float.infinite =>
    cases b <;> simp [Number.same, Number.compare?, Binary64.compare?, numberKey?]
  -- What is left is a datum that is not a number beside one that is, and two integers.
  all_goals
    simp [Number.same, Number.compare?, Binary64.compare?, Binary64.compareInt?, numberKey?]

/-- Two atoms are the same if they have a key in common. -/
theorem same_iff {a b : Atom} :
    a.same b = true ↔ a.key?.isSome = true ∧ a.key? = b.key? := by
  have hnumber : ∀ {x : Number}, numberKey? x ≠ some (.other b) ∧ numberKey? x ≠ some (.other a) ∧
      ∀ i, numberKey? x ≠ some (.callable i) := by
    intro x
    rcases x with i | p | c | ⟨c, m, e⟩
    case float.nan => by_cases hp : p = 0 <;> simp [numberKey?, hp]
    all_goals simp [numberKey?]
  unfold same key?
  cases ha : a.number? with
  | some x =>
    cases hb : b.number? with
    | some y => exact sameNumber_iff
    | none =>
      refine iff_of_false Bool.false_ne_true ?_
      rintro ⟨_, heq⟩
      cases b <;> first | exact hnumber.1 heq | exact hnumber.2.2 _ heq
  | none =>
    cases hb : b.number? with
    | some y =>
      refine iff_of_false Bool.false_ne_true ?_
      rintro ⟨_, heq⟩
      cases a <;> first | exact hnumber.2.1 heq.symm | exact hnumber.2.2 _ heq.symm
    | none => cases a <;> cases b <;> simp

instance : PartialEquivBEq Atom where
  symm := by
    intro a b hab
    obtain ⟨hsome, heq⟩ := same_iff.mp hab
    exact same_iff.mpr ⟨heq ▸ hsome, heq.symm⟩
  trans := by
    intro a b c hab hbc
    obtain ⟨hsome, heq⟩ := same_iff.mp hab
    exact same_iff.mpr ⟨hsome, heq.trans (same_iff.mp hbc).2⟩

/-- Only the text itself is the same key as a text. -/
theorem beq_str_iff {a : Atom} {s : String} : (a == .str s) = true ↔ a = .str s := by
  change same a (.str s) = true ↔ a = .str s
  cases a <;> simp [same, number?]

theorem str_beq_iff {a : Atom} {s : String} : (.str s == a) = true ↔ a = .str s := by
  rw [BEq.comm]
  exact beq_str_iff

end Atom

/-! ## Reading back a write -/

namespace OrderedMap

variable {κ α β : Type} [BEq κ]

theorem get?_cons {e : κ × α} {m : OrderedMap κ α} {k : κ} :
    get? (e :: m) k = if e.1 == k then some e.2 else get? m k := rfl

theorem get?_append {m later : OrderedMap κ α} {k : κ} :
    get? (m ++ later) k = (get? m k).or (get? later k) := by
  induction m with
  | nil => rfl
  | cons e m ih =>
    rw [List.cons_append, get?_cons, get?_cons, ih]
    split <;> rfl

theorem get?_mapValues {m : OrderedMap κ α} {f : α → β} {k : κ} :
    (m.mapValues f).get? k = (m.get? k).map f := by
  unfold mapValues
  induction m with
  | nil => rfl
  | cons e m ih =>
    rw [List.map_cons, get?_cons, get?_cons, ih]
    split <;> rfl

theorem getD_mapValues {m : OrderedMap κ α} {f : α → β} {k : κ} {a : α} :
    (m.mapValues f).getD k (f a) = f (m.getD k a) := by
  unfold getD
  rw [get?_mapValues]
  cases m.get? k <;> rfl

theorem insert_mapValues {m : OrderedMap κ α} {f : α → β} {k : κ} {a : α} :
    (m.mapValues f).insert k (f a) = (m.insert k a).mapValues f := by
  unfold mapValues
  induction m with
  | nil => rfl
  | cons e m ih =>
    rw [List.map_cons, insert, insert, ih]
    split <;> rfl

theorem mem_of_get? {m : OrderedMap κ α} {k : κ} {a : α} (h : m.get? k = some a) :
    ∃ k', (k', a) ∈ m ∧ (k' == k) = true := by
  induction m with
  | nil => cases h
  | cons e m ih =>
    rw [get?_cons] at h
    split at h
    · rename_i hk
      cases h
      exact ⟨e.1, List.mem_cons_self, hk⟩
    · obtain ⟨k', hmem, hk⟩ := ih h
      exact ⟨k', List.mem_cons_of_mem _ hmem, hk⟩

theorem contains_iff {m : OrderedMap κ α} {k : κ} :
    m.contains k = true ↔ ∃ e ∈ m, (e.1 == k) = true := by
  induction m with
  | nil => simp [contains]
  | cons e m ih =>
    rw [contains, get?_cons]
    split
    · rename_i hk
      exact ⟨fun _ => ⟨e, List.mem_cons_self, hk⟩, fun _ => rfl⟩
    · rename_i hk
      rw [← contains, ih]
      constructor
      · rintro ⟨e', hmem, he⟩
        exact ⟨e', List.mem_cons_of_mem _ hmem, he⟩
      · rintro ⟨e', hmem, he⟩
        rcases List.mem_cons.mp hmem with rfl | hmem
        · exact absurd he hk
        · exact ⟨e', hmem, he⟩

/-- Every entry after a write was there before, or has its key from before or from the write and the
value written. -/
theorem mem_insert {m : OrderedMap κ α} {k : κ} {a : α} {e : κ × α} (h : e ∈ m.insert k a) :
    e ∈ m ∨ e.2 = a ∧ (e.1 = k ∨ (∃ b, (e.1, b) ∈ m) ∧ (e.1 == k) = true) := by
  induction m with
  | nil =>
    rw [insert, List.mem_singleton] at h
    subst h
    exact .inr ⟨rfl, .inl rfl⟩
  | cons e' m ih =>
    rw [insert] at h
    split at h
    · rename_i hk
      rcases List.mem_cons.mp h with rfl | hmem
      · exact .inr ⟨rfl, .inr ⟨⟨e'.2, List.mem_cons_self⟩, hk⟩⟩
      · exact .inl (List.mem_cons_of_mem _ hmem)
    · rcases List.mem_cons.mp h with rfl | hmem
      · exact .inl List.mem_cons_self
      · rcases ih hmem with hold | ⟨hv, rfl | ⟨⟨b, hb⟩, hk⟩⟩
        · exact .inl (List.mem_cons_of_mem _ hold)
        · exact .inr ⟨hv, .inl rfl⟩
        · exact .inr ⟨hv, .inr ⟨⟨b, List.mem_cons_of_mem _ hb⟩, hk⟩⟩

/-- An entry under another key stays when a write is made. -/
theorem mem_insert_of_mem {m : OrderedMap κ α} {k : κ} {a : α} {e : κ × α} (h : e ∈ m)
    (hk : (e.1 == k) = false) : e ∈ m.insert k a := by
  induction m with
  | nil => cases h
  | cons e' m ih =>
    rw [insert]
    rcases List.mem_cons.mp h with rfl | hmem
    · rw [hk]
      exact List.mem_cons_self
    · split
      · exact List.mem_cons_of_mem _ hmem
      · exact List.mem_cons_of_mem _ (ih hmem)

/-- Maps with the same keys one by one find what is related, or nothing. -/
theorem get?_forall₂ {R : κ → α → β → Prop} {m : OrderedMap κ α} {m' : OrderedMap κ β}
    (h : List.Forall₂ (fun e f => e.1 = f.1 ∧ R e.1 e.2 f.2) m m') (k : κ) :
    (m.get? k = none ∧ m'.get? k = none) ∨
      ∃ j a b, (j == k) = true ∧ m.get? k = some a ∧ m'.get? k = some b ∧ R j a b := by
  induction h with
  | nil => exact .inl ⟨rfl, rfl⟩
  | @cons e f _ _ hentry _ ih =>
    rw [get?_cons, get?_cons, ← hentry.1]
    split
    · rename_i hk
      exact .inr ⟨e.1, e.2, f.2, hk, rfl, rfl, hentry.2⟩
    · exact ih

/-- A write into both keeps the maps related. -/
theorem insert_forall₂ {R : κ → α → β → Prop} {m : OrderedMap κ α} {m' : OrderedMap κ β} {k : κ}
    {a : α} {b : β} (h : List.Forall₂ (fun e f => e.1 = f.1 ∧ R e.1 e.2 f.2) m m')
    (hab : ∀ j, j = k ∨ (j == k) = true → R j a b) :
    List.Forall₂ (fun e f => e.1 = f.1 ∧ R e.1 e.2 f.2) (m.insert k a) (m'.insert k b) := by
  induction h with
  | nil => exact .cons ⟨rfl, hab k (.inl rfl)⟩ .nil
  | @cons e f _ _ hentry hrest ih =>
    rw [insert, insert, ← hentry.1]
    split
    · rename_i hk
      exact .cons ⟨rfl, hab e.1 (.inr hk)⟩ hrest
    · exact .cons ⟨rfl, hentry.2⟩ ih

/-- A write under a new key goes to the end. -/
theorem insert_eq_append {m : OrderedMap κ α} {k : κ} {a : α} (h : ∀ e ∈ m, (e.1 == k) = false) :
    m.insert k a = m ++ [(k, a)] := by
  induction m with
  | nil => rfl
  | cons e m ih =>
    rw [insert, h e List.mem_cons_self, if_neg Bool.false_ne_true,
      ih fun e' he' => h e' (List.mem_cons_of_mem _ he')]
    rfl

/-- No two keys are the same. -/
def Separate (m : OrderedMap κ α) : Prop := m.Pairwise fun e f => (e.1 == f.1) = false

theorem separate_iff {m : OrderedMap κ α} :
    m.Separate ↔ m.keys.Pairwise fun j k => (j == k) = false := by
  rw [Separate, keys, List.pairwise_map]

omit [BEq κ] in
theorem keys_eq {m : OrderedMap κ α} {m' : OrderedMap κ β}
    (hkeys : List.Forall₂ (fun e f => e.1 = f.1) m m') : m.keys = m'.keys := by
  unfold keys
  rw [← List.forall₂_eq_eq_eq, List.forall₂_map_left_iff, List.forall₂_map_right_iff]
  exact hkeys

theorem Separate.of_keys {m : OrderedMap κ α} {m' : OrderedMap κ β} (h : m.Separate)
    (hkeys : List.Forall₂ (fun e f => e.1 = f.1) m m') : m'.Separate := by
  rwa [separate_iff, ← keys_eq hkeys, ← separate_iff]

theorem Separate.insert {m : OrderedMap κ α} {k : κ} {a : α} (h : m.Separate) :
    Separate (m.insert k a) := by
  induction m with
  | nil => exact List.pairwise_singleton _ _
  | cons e m ih =>
    obtain ⟨hhead, htail⟩ := List.pairwise_cons.mp h
    rw [OrderedMap.insert]
    split
    · exact List.pairwise_cons.mpr ⟨hhead, htail⟩
    · rename_i hk
      refine List.pairwise_cons.mpr ⟨fun f hf => ?_, ih htail⟩
      rcases mem_insert hf with hold | ⟨_, heq | ⟨⟨b, hb⟩, _⟩⟩
      · exact hhead f hold
      · rw [heq]
        exact Bool.eq_false_iff.mpr hk
      · exact hhead (f.1, b) hb

/-- Entries that are apart from each other and from those before them are added in their order. -/
theorem update_eq_append {m later : OrderedMap κ α} (h : Separate (m ++ later)) :
    m.update later = m ++ later := by
  unfold update
  induction later generalizing m with
  | nil => exact (List.append_nil m).symm
  | cons e later ih =>
    have hnew : m.insert e.1 e.2 = m ++ [e] := insert_eq_append fun f hf =>
      (List.pairwise_append.mp h).2.2 f hf e List.mem_cons_self
    rw [List.foldl_cons, hnew, ih, List.append_assoc, List.singleton_append]
    rwa [List.append_assoc, List.singleton_append]

variable [PartialEquivBEq κ]

/-- What stands under a key is found under it. -/
theorem Separate.get? {m : OrderedMap κ α} {k : κ} {e : κ × α} (h : m.Separate) (he : e ∈ m)
    (hk : (e.1 == k) = true) : m.get? k = some e.2 := by
  induction m with
  | nil => cases he
  | cons e' m ih =>
    obtain ⟨hhead, htail⟩ := List.pairwise_cons.mp h
    rw [get?_cons]
    rcases List.mem_cons.mp he with rfl | hmem
    · rw [if_pos hk]
    · rw [if_neg, ih htail hmem]
      intro hk'
      have hsame : (e'.1 == e.1) = true := BEq.trans hk' (BEq.symm hk)
      rw [hhead e hmem] at hsame
      cases hsame

theorem get?_congr {m : OrderedMap κ α} {k j : κ} (h : (k == j) = true) : m.get? k = m.get? j := by
  induction m with
  | nil => rfl
  | cons e m ih => rw [get?_cons, get?_cons, ih, BEq.congr_right h]

/-- What is found after a write. -/
theorem get?_insert {m : OrderedMap κ α} {k j : κ} {a : α} :
    (m.insert k a).get? j = if k == j then some a else m.get? j := by
  induction m with
  | nil => rfl
  | cons e m ih =>
    rw [insert]
    by_cases hk : (e.1 == k) = true
    · rw [if_pos hk, get?_cons, get?_cons, BEq.congr_left hk]
      split <;> rfl
    · rw [if_neg hk, get?_cons, get?_cons, ih]
      split
      · rename_i hj
        rw [if_neg]
        exact fun hkj => hk (BEq.trans hj (BEq.symm hkj))
      · rfl

/-- What is not written over is found as before. -/
theorem get?_update_of_none {m later : OrderedMap κ α} {k : κ} (h : later.get? k = none) :
    (m.update later).get? k = m.get? k := by
  unfold update
  induction later generalizing m with
  | nil => rfl
  | cons e later ih =>
    rw [get?_cons] at h
    split at h
    · cases h
    · rename_i hk
      rw [List.foldl_cons, ih h, get?_insert, if_neg hk]

/-- What is found after other entries have been written, no two of which have the same key. -/
theorem get?_update {m later : OrderedMap κ α} {k : κ} (h : later.Separate) :
    (m.update later).get? k = (later.get? k).or (m.get? k) := by
  unfold update
  induction later generalizing m with
  | nil => rfl
  | cons e later ih =>
    obtain ⟨hhead, htail⟩ := List.pairwise_cons.mp h
    rw [List.foldl_cons, ih htail, get?_insert, get?_cons]
    by_cases hk : (e.1 == k) = true
    · have hnone : OrderedMap.get? later k = none := by
        cases hget : OrderedMap.get? later k with
        | none => rfl
        | some a =>
          obtain ⟨k', hmem, hk'⟩ := mem_of_get? hget
          have hsame : (e.1 == k') = true := BEq.trans hk (BEq.symm hk')
          rw [hhead _ hmem] at hsame
          cases hsame
      rw [if_pos hk, if_pos hk, hnone]
      rfl
    · rw [if_neg hk, if_neg hk]

/-- What is found under a key does not depend on the order of the entries. -/
theorem get?_perm {m m' : OrderedMap κ α} {k : κ} (hperm : m'.Perm m) (h : m.Separate) :
    m'.get? k = m.get? k := by
  have h' : Separate m' := by
    refine hperm.symm.pairwise h fun hne => ?_
    rwa [BEq.comm]
  refine Option.ext fun a => ?_
  constructor
  · intro hget
    obtain ⟨k', hmem, hk⟩ := mem_of_get? hget
    exact h.get? (hperm.mem_iff.mp hmem) hk
  · intro hget
    obtain ⟨k', hmem, hk⟩ := mem_of_get? hget
    exact h'.get? (hperm.mem_iff.mpr hmem) hk

omit [PartialEquivBEq κ] in
theorem get?_erase_self {m : OrderedMap κ α} {k : κ} : (m.erase k).get? k = none := by
  unfold erase
  induction m with
  | nil => rfl
  | cons e m ih =>
    rw [List.filter_cons]
    split
    · rename_i hk
      rw [get?_cons, if_neg (by simpa using hk), ih]
    · exact ih

theorem get?_erase_of_ne {m : OrderedMap κ α} {k j : κ} (h : (k == j) = false) :
    (m.erase k).get? j = m.get? j := by
  unfold erase
  induction m with
  | nil => rfl
  | cons e m ih =>
    rw [List.filter_cons]
    split
    · rw [get?_cons, get?_cons, ih]
    · rename_i hk
      rw [get?_cons, ih, if_neg]
      intro hj
      have hek : (e.1 == k) = true := by simpa using hk
      rw [BEq.trans (BEq.symm hek) hj] at h
      cases h

theorem contains_insert {m : OrderedMap κ α} {k j : κ} {a : α} :
    (m.insert k a).contains j = ((k == j) || m.contains j) := by
  rw [contains, contains, get?_insert]
  cases k == j <;> rfl

/-- A write leaves the keys as they are, or puts its own to the end. -/
theorem keys_insert_eq {m : OrderedMap κ α} {k : κ} {a : α} :
    (m.insert k a).keys = if m.keys.any (k == ·) then m.keys else m.keys ++ [k] := by
  have hany : m.keys.any (k == ·) = m.contains k := by
    rw [Bool.eq_iff_iff, contains_iff, keys, List.any_map, List.any_eq_true]
    exact exists_congr fun e => and_congr_right fun _ => by rw [BEq.comm]; rfl
  rw [hany]
  cases hcontains : m.contains k with
  | true => exact keys_insert_of_contains m a hcontains
  | false =>
    have hnew : ∀ e ∈ m, (e.1 == k) = false := by
      intro e he
      rw [Bool.eq_false_iff]
      intro hk
      rw [contains_iff.mpr ⟨e, he, hk⟩] at hcontains
      cases hcontains
    rw [insert_eq_append hnew, keys, List.map_append]
    rfl

/-- After a write an entry was there before under another key, or it is the one written. -/
theorem mem_insert_of_separate {m : OrderedMap κ α} {k : κ} {a : α} {e : κ × α} (h : m.Separate)
    (he : e ∈ m.insert k a) :
    (e ∈ m ∧ (e.1 == k) = false) ∨ e.2 = a ∧ (e.1 = k ∨ (e.1 == k) = true) := by
  induction m with
  | nil =>
    rw [insert, List.mem_singleton] at he
    rw [he]
    exact .inr ⟨rfl, .inl rfl⟩
  | cons f m ih =>
    obtain ⟨hhead, htail⟩ := List.pairwise_cons.mp h
    rw [insert] at he
    split at he
    · rename_i hk
      rcases List.mem_cons.mp he with rfl | hmem
      · exact .inr ⟨rfl, .inr hk⟩
      · -- The other keys are apart from that of the head, and so from the one written.
        refine .inl ⟨List.mem_cons_of_mem _ hmem, Bool.eq_false_iff.mpr fun hek => ?_⟩
        have hsame := BEq.trans hk (BEq.symm hek)
        rw [hhead e hmem] at hsame
        cases hsame
    · rename_i hk
      rcases List.mem_cons.mp he with rfl | hmem
      · exact .inl ⟨List.mem_cons_self, Bool.eq_false_iff.mpr hk⟩
      · exact (ih htail hmem).imp_left fun hold => ⟨List.mem_cons_of_mem _ hold.1, hold.2⟩

end OrderedMap

end WireShape
