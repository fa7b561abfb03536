import Mathlib.Data.List.Forall2
import WireShape.Proofs.Keys

/-!
# Lists by key

A list is grouped by a key: the keys stand in the order in which they occur first, and under each of
them its elements in the order of the list. To add an element at the end of the list is to write its
group anew, so a map that is built by such writes is the list by its keys. Nothing is lost by it and
nothing doubled: the groups one after the other are the list in another order.

* `grouped`: the elements of a list by key.
* `getD_grouped`: the elements under one key.
* `grouped_concat`: an element at the end of the list.
* `grouped_perm`: all groups together.
-/

namespace WireShape

variable {α β κ : Type} [BEq κ]

def withKey (key : α → κ) (k : κ) (xs : List α) : List α := xs.filter fun y => k == key y

def withoutKey (key : α → κ) (k : κ) (xs : List α) : List α := xs.filter fun y => !(k == key y)

/-- The elements of a list by key: those with the key of the first one, and then the others. -/
def grouped (key : α → κ) : List α → OrderedMap κ (List α)
  | [] => []
  | x :: xs => (key x, x :: withKey key (key x) xs) :: grouped key (withoutKey key (key x) xs)
termination_by xs => xs.length
decreasing_by exact Nat.lt_succ_of_le (List.length_filter_le _ _)

section Groups

variable {key : α → κ} {xs : List α} {x : α} {k : κ}

theorem grouped_cons : grouped key (x :: xs) =
    (key x, x :: withKey key (key x) xs) :: grouped key (withoutKey key (key x) xs) := by
  rw [grouped]

theorem mem_withKey : x ∈ withKey key k xs ↔ x ∈ xs ∧ (k == key x) = true := List.mem_filter

/-- All groups together are the list in another order. -/
theorem grouped_perm : ((grouped key xs).flatMap (·.2)).Perm xs := by
  induction xs using grouped.induct key with
  | case1 =>
    rw [grouped]
    exact .nil
  | case2 x xs ih =>
    rw [grouped_cons, List.flatMap_cons, List.cons_append]
    exact ((ih.append_left _).trans (List.filter_append_perm _ _)).cons x

/-- The elements under a key. -/
theorem getD_grouped [PartialEquivBEq κ] : (grouped key xs).getD k [] = withKey key k xs := by
  unfold OrderedMap.getD
  induction xs using grouped.induct key with
  | case1 =>
    rw [grouped]
    rfl
  | case2 x xs ih =>
    unfold withKey at ih ⊢
    rw [grouped_cons, OrderedMap.get?_cons, List.filter_cons]
    by_cases hx : (key x == k) = true
    · rw [if_pos hx, if_pos (BEq.symm hx), Option.getD_some]
      exact congrArg _ (List.filter_congr fun y _ => BEq.congr_left hx)
    · rw [if_neg hx, if_neg fun hk => hx (BEq.symm hk), ih, withoutKey, List.filter_filter]
      refine List.filter_congr fun y _ => ?_
      by_cases hy : (k == key y) = true
      · have hapart : (key x == key y) = false :=
          Bool.eq_false_iff.mpr fun hxy => hx (BEq.trans hxy (BEq.symm hy))
        rw [hy, hapart]
        rfl
      · rw [Bool.eq_false_iff.mpr hy, Bool.false_and]

theorem mem_keys_grouped {g : κ × List α} (hg : g ∈ grouped key xs) : ∃ x ∈ xs, g.1 = key x := by
  induction xs using grouped.induct key with
  | case1 =>
    rw [grouped] at hg
    cases hg
  | case2 x xs ih =>
    rw [grouped_cons] at hg
    rcases List.mem_cons.mp hg with rfl | hrest
    · exact ⟨x, List.mem_cons_self, rfl⟩
    · obtain ⟨y, hy, hkey⟩ := ih hrest
      exact ⟨y, List.mem_cons_of_mem _ (List.mem_filter.mp hy).1, hkey⟩

/-- No two groups have the same key. -/
theorem grouped_separate : OrderedMap.Separate (grouped key xs) := by
  induction xs using grouped.induct key with
  | case1 =>
    rw [grouped]
    exact .nil
  | case2 x xs ih =>
    rw [grouped_cons]
    refine List.pairwise_cons.mpr ⟨fun g hg => ?_, ih⟩
    obtain ⟨y, hy, hkey⟩ := mem_keys_grouped hg
    rw [hkey]
    simpa using (List.mem_filter.mp hy).2

/-- What holds between elements of the same key holds within each group. -/
theorem pairwise_group [PartialEquivBEq κ] {R : α → α → Prop} {g : κ × List α}
    (h : xs.Pairwise fun x y => (key x == key y) = true → R x y) (hg : g ∈ grouped key xs) :
    g.2.Pairwise R := by
  induction xs using grouped.induct key with
  | case1 =>
    rw [grouped] at hg
    cases hg
  | case2 x xs ih =>
    obtain ⟨hhead, htail⟩ := List.pairwise_cons.mp h
    rw [grouped_cons] at hg
    rcases List.mem_cons.mp hg with rfl | hrest
    · refine List.pairwise_cons.mpr ⟨fun y hy => ?_, ?_⟩
      · obtain ⟨hmem, hsame⟩ := mem_withKey.mp hy
        exact hhead y hmem hsame
      · refine (htail.filter _).imp_of_mem fun hy hz hR => ?_
        exact hR (BEq.trans (BEq.symm (mem_withKey.mp hy).2) (mem_withKey.mp hz).2)
    · exact ih (htail.filter _) hrest

/-- An element at the end of the list is added to its group. -/
theorem grouped_concat [PartialEquivBEq κ] : grouped key (xs ++ [x]) =
    (grouped key xs).insert (key x) ((grouped key xs).getD (key x) [] ++ [x]) := by
  unfold OrderedMap.getD
  induction xs using grouped.induct key with
  | case1 =>
    rw [List.nil_append, grouped_cons, grouped, withKey, withoutKey, List.filter_nil,
      List.filter_nil, grouped]
    rfl
  | case2 y xs ih =>
    rw [List.cons_append, grouped_cons, grouped_cons, OrderedMap.get?_cons, OrderedMap.insert]
    by_cases hy : (key y == key x) = true
    · have hwith : withKey key (key y) (xs ++ [x]) = withKey key (key y) xs ++ [x] := by
        rw [withKey, List.filter_append, List.filter_cons, if_pos hy]
        rfl
      have hwithout : withoutKey key (key y) (xs ++ [x]) = withoutKey key (key y) xs := by
        rw [withoutKey, List.filter_append, List.filter_cons, hy]
        exact List.append_nil _
      rw [if_pos hy, if_pos hy, hwith, hwithout]
      rfl
    · have hwith : withKey key (key y) (xs ++ [x]) = withKey key (key y) xs := by
        rw [withKey, List.filter_append, List.filter_cons, if_neg hy]
        exact List.append_nil _
      have hwithout : withoutKey key (key y) (xs ++ [x]) = withoutKey key (key y) xs ++ [x] := by
        rw [withoutKey, List.filter_append, List.filter_cons, Bool.eq_false_iff.mpr hy]
        rfl
      rw [if_neg hy, if_neg hy, hwith, hwithout, ih]

end Groups

/-- Lists that are related one by one under the same keys have groups that are related one by one. -/
theorem grouped_forall₂ {R : α → β → Prop} {key : α → κ} {key' : β → κ} {xs : List α} {ys : List β}
    (h : List.Forall₂ (fun x y => key x = key' y ∧ R x y) xs ys) :
    List.Forall₂ (fun g g' => g.1 = g'.1 ∧ List.Forall₂ R g.2 g'.2) (grouped key xs)
      (grouped key' ys) := by
  -- A choice by key is made in both lists alike.
  have hchoice : ∀ (p : κ → Bool) {xs : List α} {ys : List β},
      List.Forall₂ (fun x y => key x = key' y ∧ R x y) xs ys →
      List.Forall₂ (fun x y => key x = key' y ∧ R x y) (xs.filter fun x => p (key x))
        (ys.filter fun y => p (key' y)) := by
    intro p xs ys hxy
    refine List.rel_filter (fun x y hR => ?_) hxy
    dsimp only
    rw [hR.1]
  induction xs using grouped.induct key generalizing ys with
  | case1 =>
    cases h
    rw [grouped, grouped]
    exact .nil
  | case2 x xs ih =>
    cases h with
    | @cons _ y _ ys hxy hrest =>
      rw [grouped_cons, grouped_cons, ← hxy.1]
      refine .cons ⟨rfl, .cons hxy.2 ?_⟩ (ih (hchoice (fun k => !(key x == k)) hrest))
      exact (hchoice (fun k => key x == k) hrest).imp fun _ _ hR => hR.2

end WireShape
