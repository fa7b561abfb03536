import Mathlib.Data.List.Chain
import Mathlib.Order.Lattice
import WireShape.Proofs.Runs
import WireShape.RunSort

/-!
# Sorting

Whatever the comparison answers, a sorted list has the elements of the list that was sorted. If it
compares by keys of a linear order, sorting succeeds and the keys of the result rise.

* `RunSort.sortRun?_perm`, `RunSort.sortRun_perm`: the result is a permutation.
* `RunSort.sortRun?_sorted`: by a linear order, sorting succeeds and sorts.
* `RunSort.sortRun?_perm_eq`: the order in which elements with different keys are given is lost.
* `RunSort.sortRun?_isChain`: what has been sorted has been compared with its neighbours.
* `RunSort.sortRun?_oneKind`: what has been sorted is of one kind, if only that can be compared.
* `RunSort.sortRun?_map`: elements that are compared by their images are sorted as these are.
-/

namespace WireShape.RunSort

variable {α ε : Type} {lt : α → α → Except ε Bool}

theorem insertSorted_perm {sorted after : Array α} {x : α}
    (h : insertSorted lt sorted x = .ok after) : after.toList.Perm (x :: sorted.toList) := by
  obtain ⟨place, _, hinsert⟩ := bind_eq_ok_iff.mp h
  cases hinsert
  have hperm : (sorted.toList.take place ++ x :: sorted.toList.drop place).Perm
      (x :: (sorted.toList.take place ++ sorted.toList.drop place)) := List.perm_middle
  rwa [List.take_append_drop] at hperm

theorem foldlM_insertSorted_perm {xs : List α} {start final : Array α}
    (h : xs.foldlM (insertSorted lt) start = .ok final) :
    final.toList.Perm (xs ++ start.toList) := by
  induction xs generalizing start with
  | nil =>
    cases h
    exact .refl _
  | cons x xs ih =>
    rw [List.foldlM_cons] at h
    obtain ⟨next, hnext, hrest⟩ := bind_eq_ok_iff.mp h
    have hstep : (xs ++ next.toList).Perm (xs ++ x :: start.toList) :=
      (insertSorted_perm hnext).append_left xs
    exact (ih hrest).trans (hstep.trans List.perm_middle)

/-- The run at the front, turned round if it falls, and what follows it are the whole list. -/
theorem run_perm {x y : α} {rest : List α} {falling : Bool} {more : Nat} :
    (rest.drop more ++ if falling then (x :: y :: rest.take more).reverse
      else x :: y :: rest.take more).Perm (x :: y :: rest) := by
  have hsplit : (rest.drop more ++ (x :: y :: rest.take more)).Perm (x :: y :: rest) := by
    have hcomm : (rest.drop more ++ (x :: y :: rest.take more)).Perm
        (x :: y :: rest.take more ++ rest.drop more) := List.perm_append_comm
    rwa [List.cons_append, List.cons_append, List.take_append_drop] at hcomm
  cases falling with
  | true => exact ((List.reverse_perm _).append_left _).trans hsplit
  | false => exact hsplit

theorem sortRun?_perm {xs sorted : List α} (h : sortRun? lt xs = .ok sorted) : sorted.Perm xs := by
  match xs with
  | [] =>
    cases h
    exact .refl _
  | [x] =>
    cases h
    exact .refl _
  | x :: y :: rest =>
    obtain ⟨falling, _, hrest⟩ := bind_eq_ok_iff.mp h
    obtain ⟨more, _, hlast⟩ := bind_eq_ok_iff.mp hrest
    obtain ⟨final, hfinal, hsorted⟩ := bind_eq_ok_iff.mp hlast
    cases hsorted
    exact (foldlM_insertSorted_perm hfinal).trans run_perm

theorem sortRun_perm {lt : α → α → Bool} {xs : List α} : (sortRun lt xs).Perm xs := by
  unfold sortRun
  split
  rename_i sorted h
  exact sortRun?_perm h

/-! ## By a linear order -/

section Order

variable {K : Type} [LinearOrder K] {key : α → K} {x y : α} {xs : List α} {sorted : Array α}

/-- The elements at hand are compared by their keys. -/
def ComparesBy (lt : α → α → Except ε Bool) (key : α → K) (xs : List α) : Prop :=
  ∀ x ∈ xs, ∀ y ∈ xs, lt x y = .ok (decide (key x < key y))

/-- The keys rise. -/
abbrev Rises (key : α → K) (xs : List α) : Prop := xs.Pairwise fun x y => key x ≤ key y

theorem Rises.le {i j : Nat} (h : Rises key sorted.toList) (hij : i ≤ j) (hx : sorted[i]? = some x)
    (hy : sorted[j]? = some y) : key x ≤ key y := by
  obtain ⟨hi, rfl⟩ := Array.getElem?_eq_some_iff.mp hx
  obtain ⟨hj, rfl⟩ := Array.getElem?_eq_some_iff.mp hy
  rcases Nat.lt_or_eq_of_le hij with hlt | rfl
  · exact List.pairwise_iff_getElem.mp h i j hi hj hlt
  · exact le_rfl

/-- Bisection finds the place after all elements that are not greater. What stands before the lower
end is not greater, what stands from the upper end on is greater. -/
theorem position_spec {low high : Nat} (hlt : ComparesBy lt key (x :: sorted.toList))
    (hsorted : Rises key sorted.toList) (hhigh : high ≤ sorted.size)
    (hbefore : ∀ i y, i < low → sorted[i]? = some y → key y ≤ key x)
    (hafter : ∀ i y, high ≤ i → sorted[i]? = some y → key x < key y) (hlow : low ≤ high) :
    ∃ place, position lt x sorted low high = .ok place ∧
      (∀ i y, i < place → sorted[i]? = some y → key y ≤ key x) ∧
        ∀ i y, place ≤ i → sorted[i]? = some y → key x < key y := by
  induction hsize : high - low using Nat.strongRecOn generalizing low high with
  | _ size ih =>
    unfold position
    by_cases hless : low < high
    · rw [if_pos hless]
      dsimp only
      generalize hmiddle : low + (high - low) / 2 = middle
      have hin : middle < sorted.size := by omega
      rw [Array.getElem?_eq_getElem hin]
      dsimp only
      have hget : sorted[middle]? = some sorted[middle] := Array.getElem?_eq_getElem hin
      have hmem : sorted[middle] ∈ x :: sorted.toList :=
        List.mem_cons_of_mem _ (Array.getElem_mem_toList hin)
      rw [hlt x List.mem_cons_self _ hmem]
      by_cases hx : key x < key sorted[middle]
      · rw [decide_eq_true hx]
        refine ih (middle - low) (by omega) (by omega) hbefore (fun i y hi hy => ?_) (by omega) rfl
        exact lt_of_lt_of_le hx (hsorted.le hi hget hy)
      · rw [decide_eq_false hx]
        refine ih (high - (middle + 1)) (by omega) hhigh (fun i y hi hy => ?_) hafter (by omega) rfl
        exact (hsorted.le (Nat.le_of_lt_succ hi) hy hget).trans (not_lt.mp hx)
    · rw [if_neg hless]
      have heq : low = high := by omega
      exact ⟨low, rfl, hbefore, heq ▸ hafter⟩

theorem insertSorted_rises (hlt : ComparesBy lt key (x :: sorted.toList))
    (hsorted : Rises key sorted.toList) :
    ∃ after, insertSorted lt sorted x = .ok after ∧ Rises key after.toList := by
  obtain ⟨place, hplace, hbefore, hafter⟩ := position_spec hlt hsorted (Nat.le_refl _)
    (fun i y hi _ => absurd hi (Nat.not_lt_zero i))
    (fun i y hi hy => by
      rw [Array.getElem?_eq_none hi] at hy
      cases hy) (Nat.zero_le _)
  refine ⟨_, bind_eq_ok_iff.mpr ⟨place, hplace, rfl⟩, ?_⟩
  have hfirst : ∀ y ∈ sorted.toList.take place, key y ≤ key x := by
    intro y hy
    obtain ⟨i, hi, rfl⟩ := List.mem_take_iff_getElem.mp hy
    refine hbefore i _ (by omega) ?_
    rw [Array.getElem_toList, Array.getElem?_eq_getElem]
  have hlast : ∀ y ∈ sorted.toList.drop place, key x ≤ key y := by
    intro y hy
    obtain ⟨i, hi, rfl⟩ := List.mem_drop_iff_getElem.mp hy
    refine (hafter (place + i) _ (Nat.le_add_right place i) ?_).le
    rw [Array.getElem_toList, Array.getElem?_eq_getElem]
  rw [Rises, ← List.take_append_drop place sorted.toList] at hsorted
  obtain ⟨htake, hdrop, hacross⟩ := List.pairwise_append.mp hsorted
  refine List.pairwise_append.mpr ⟨htake, List.pairwise_cons.mpr ⟨hlast, hdrop⟩, fun y hy z hz => ?_⟩
  rcases List.mem_cons.mp hz with rfl | hmem
  · exact hfirst y hy
  · exact hacross y hy z hmem

theorem foldlM_insertSorted_rises {start : Array α}
    (hlt : ComparesBy lt key (xs ++ start.toList)) (hstart : Rises key start.toList) :
    ∃ final, xs.foldlM (insertSorted lt) start = .ok final ∧ Rises key final.toList := by
  induction xs generalizing start with
  | nil => exact ⟨start, rfl, hstart⟩
  | cons x xs ih =>
    have hx : ComparesBy lt key (x :: start.toList) := by
      have hsub : ∀ y ∈ x :: start.toList, y ∈ x :: xs ++ start.toList := by
        intro y hy
        rcases List.mem_cons.mp hy with rfl | hmem
        · exact List.mem_cons_self
        · exact List.mem_append_right _ hmem
      exact fun y hy z hz => hlt y (hsub y hy) z (hsub z hz)
    obtain ⟨next, hnext, hrises⟩ := insertSorted_rises hx hstart
    have hrest : ComparesBy lt key (xs ++ next.toList) := by
      have hsub : ∀ y ∈ xs ++ next.toList, y ∈ x :: xs ++ start.toList := by
        intro y hy
        have hperm : (xs ++ next.toList).Perm (x :: xs ++ start.toList) :=
          ((insertSorted_perm hnext).append_left xs).trans List.perm_middle
        exact hperm.mem_iff.mp hy
      exact fun y hy z hz => hlt y (hsub y hy) z (hsub z hz)
    obtain ⟨final, hfinal, hlast⟩ := ih hrest hrises
    exact ⟨final, by rw [List.foldlM_cons, hnext]; exact hfinal, hlast⟩

/-- A run goes on as long as its elements are in order, all rising or all falling. -/
theorem runLength_spec {falling : Bool} {last : α} (hlt : ComparesBy lt key (last :: xs)) :
    ∃ more, runLength lt falling last xs = .ok more ∧ (last :: xs.take more).IsChain fun a b =>
      if falling then key b < key a else key a ≤ key b := by
  induction xs generalizing last with
  | nil => exact ⟨0, rfl, .singleton _⟩
  | cons x xs ih =>
    have hanswer := hlt x (List.mem_cons_of_mem _ List.mem_cons_self) last List.mem_cons_self
    by_cases hgoes : decide (key x < key last) = falling
    · have hrest : ComparesBy lt key (x :: xs) := fun y hy z hz =>
        hlt y (List.mem_cons_of_mem _ hy) z (List.mem_cons_of_mem _ hz)
      obtain ⟨more, hmore, hchain⟩ := ih hrest
      refine ⟨more + 1, ?_, .cons_cons ?_ hchain⟩
      · unfold runLength
        rw [hanswer]
        change (if (decide (key x < key last) == falling) = true then _ else _) = _
        rw [if_pos (beq_iff_eq.mpr hgoes), hmore]
        rfl
      · cases falling with
        | true => exact of_decide_eq_true hgoes
        | false => exact not_lt.mp (of_decide_eq_false hgoes)
    · refine ⟨0, ?_, .singleton _⟩
      unfold runLength
      rw [hanswer]
      change (if (decide (key x < key last) == falling) = true then _ else _) = _
      rw [if_neg (fun h => hgoes (beq_iff_eq.mp h))]
      rfl

/-- By a linear order, sorting succeeds and the keys of the result rise. -/
theorem sortRun?_sorted (hlt : ComparesBy lt key xs) :
    ∃ sorted, sortRun? lt xs = .ok sorted ∧ Rises key sorted := by
  match xs with
  | [] => exact ⟨[], rfl, .nil⟩
  | [x] => exact ⟨[x], rfl, List.pairwise_singleton _ _⟩
  | x :: y :: rest =>
    have hanswer := hlt y (List.mem_cons_of_mem _ List.mem_cons_self) x List.mem_cons_self
    generalize hfalling : decide (key y < key x) = falling at hanswer
    have hrest : ComparesBy lt key (y :: rest) :=
      fun a ha b hb => hlt a (List.mem_cons_of_mem _ ha) b (List.mem_cons_of_mem _ hb)
    obtain ⟨more, hmore, hchain⟩ := @runLength_spec _ _ _ _ _ _ _ falling _ hrest
    have hrun : (x :: y :: rest.take more).IsChain fun a b =>
        if falling then key b < key a else key a ≤ key b := by
      refine .cons_cons ?_ hchain
      cases falling with
      | true => exact of_decide_eq_true hfalling
      | false => exact not_lt.mp (of_decide_eq_false hfalling)
    have hstart : Rises key (if falling then (x :: y :: rest.take more).reverse
        else x :: y :: rest.take more) := by
      cases falling with
      | true =>
        have hfalls : (x :: y :: rest.take more).IsChain fun a b => key b ≤ key a :=
          hrun.imp fun _ _ hab => le_of_lt hab
        exact List.pairwise_reverse.mpr hfalls.pairwise
      | false => exact List.IsChain.pairwise hrun
    have hall : ComparesBy lt key (rest.drop more ++ if falling then
        (x :: y :: rest.take more).reverse else x :: y :: rest.take more) :=
      fun a ha b hb => hlt a (run_perm.mem_iff.mp ha) b (run_perm.mem_iff.mp hb)
    obtain ⟨final, hfinal, hlast⟩ :=
      @foldlM_insertSorted_rises _ _ _ _ _ _ _ (if falling then (x :: y :: rest.take more).reverse
        else x :: y :: rest.take more).toArray hall hstart
    exact ⟨final.toList, bind_eq_ok_iff.mpr ⟨falling, hanswer, bind_eq_ok_iff.mpr
      ⟨more, hmore, bind_eq_ok_iff.mpr ⟨final, hfinal, rfl⟩⟩⟩, hlast⟩

/-- Elements with different keys are sorted into one list, in whatever order they are given. -/
theorem sortRun?_perm_eq {ys : List α} (hlt : ComparesBy lt key xs)
    (hkey : ∀ x ∈ xs, ∀ y ∈ xs, key x = key y → x = y) (hperm : xs.Perm ys) :
    sortRun? lt xs = sortRun? lt ys := by
  obtain ⟨sorted, hsorted, hrises⟩ := sortRun?_sorted hlt
  have hlt' : ComparesBy lt key ys := fun x hx y hy =>
    hlt x (hperm.mem_iff.mpr hx) y (hperm.mem_iff.mpr hy)
  obtain ⟨sorted', hsorted', hrises'⟩ := sortRun?_sorted hlt'
  have hmem := sortRun?_perm hsorted
  have hmem' := (sortRun?_perm hsorted').trans hperm.symm
  have heq : sorted = sorted' := by
    refine List.Perm.eq_of_pairwise (fun x y hx hy hle hle' => ?_) hrises hrises'
      (hmem.trans hmem'.symm)
    exact hkey x (hmem.mem_iff.mp hx) y (hmem'.mem_iff.mp hy) (le_antisymm hle hle')
  rw [hsorted, hsorted', heq]

end Order

/-! ## Neighbours -/

section Neighbours

variable {x y : α} {xs : List α}

/-- A comparison has found that the first element goes before the second one. -/
def Precedes (lt : α → α → Except ε Bool) (x y : α) : Prop :=
  lt y x = .ok false ∨ lt x y = .ok true

/-- To find its place, an element is compared with both neighbours that it will have. -/
theorem position_neighbours {sorted : Array α} {low high place : Nat} (hlow : low ≤ high)
    (hhigh : high ≤ sorted.size)
    (hbefore : ∀ i y, i + 1 = low → sorted[i]? = some y → Precedes lt y x)
    (hafter : ∀ y, sorted[high]? = some y → Precedes lt x y)
    (hplace : position lt x sorted low high = .ok place) :
    place ≤ sorted.size ∧ (∀ i y, i + 1 = place → sorted[i]? = some y → Precedes lt y x) ∧
      ∀ y, sorted[place]? = some y → Precedes lt x y := by
  induction hsize : high - low using Nat.strongRecOn generalizing low high with
  | _ size ih =>
    unfold position at hplace
    by_cases hless : low < high
    · rw [if_pos hless] at hplace
      dsimp only at hplace
      generalize hmiddle : low + (high - low) / 2 = middle at hplace
      have hin : middle < sorted.size := by omega
      rw [Array.getElem?_eq_getElem hin] at hplace
      have hget : sorted[middle]? = some sorted[middle] := Array.getElem?_eq_getElem hin
      obtain ⟨answer, hanswer, hrest⟩ := bind_eq_ok_iff.mp hplace
      cases answer with
      | true =>
        refine ih (middle - low) (by omega) (by omega) hin.le hbefore (fun y hy => ?_) hrest rfl
        cases hget.symm.trans hy
        exact .inr hanswer
      | false =>
        refine ih (high - (middle + 1)) (by omega) (by omega) hhigh (fun i y hi hy => ?_) hafter
          hrest rfl
        cases Nat.succ.inj hi
        cases hget.symm.trans hy
        exact .inl hanswer
    · rw [if_neg hless] at hplace
      have heq : low = high := by omega
      subst heq
      cases hplace
      exact ⟨hhigh, hbefore, hafter⟩

theorem insertSorted_isChain {sorted after : Array α} (h : sorted.toList.IsChain (Precedes lt))
    (hinsert : insertSorted lt sorted x = .ok after) : after.toList.IsChain (Precedes lt) := by
  obtain ⟨place, hplace, hafter⟩ := bind_eq_ok_iff.mp hinsert
  cases hafter
  obtain ⟨hsize, hbefore, hnext⟩ := position_neighbours (Nat.zero_le _) le_rfl
    (fun i y hi => absurd hi (Nat.succ_ne_zero i)) (fun y hy => by
      rw [Array.getElem?_eq_none le_rfl] at hy
      cases hy) hplace
  refine List.isChain_append.mpr ⟨h.take place,
    List.isChain_cons.mpr ⟨fun y hy => ?_, h.drop place⟩, fun y hy z hz => ?_⟩
  · rw [List.head?_drop, Array.getElem?_toList] at hy
    exact hnext y hy
  · rw [List.head?_cons] at hz
    cases hz
    rw [List.getLast?_take] at hy
    split at hy
    · cases hy
    · rename_i hne
      have hin : place - 1 < sorted.toList.length := by
        rw [Array.length_toList]
        omega
      rw [List.getElem?_eq_getElem hin, Option.some_or] at hy
      refine hbefore (place - 1) y (by omega) ?_
      rw [← Array.getElem?_toList, List.getElem?_eq_getElem hin]
      exact hy

theorem foldlM_insertSorted_isChain {start final : Array α}
    (h : start.toList.IsChain (Precedes lt))
    (hrun : xs.foldlM (insertSorted lt) start = .ok final) :
    final.toList.IsChain (Precedes lt) := by
  induction xs generalizing start with
  | nil =>
    cases hrun
    exact h
  | cons x xs ih =>
    rw [List.foldlM_cons] at hrun
    obtain ⟨next, hnext, hrest⟩ := bind_eq_ok_iff.mp hrun
    exact ih (insertSorted_isChain h hnext) hrest

theorem runLength_isChain {falling : Bool} {more : Nat}
    (hrun : runLength lt falling x xs = .ok more) :
    (x :: xs.take more).IsChain fun a b => lt b a = .ok falling := by
  induction xs generalizing x more with
  | nil => 
    rw [List.take_nil]
    exact .singleton _
  | cons y xs ih =>
    obtain ⟨answer, hanswer, hrest⟩ := bind_eq_ok_iff.mp hrun
    split at hrest
    · rename_i hgoes
      obtain ⟨more, hmore, heq⟩ := bind_eq_ok_iff.mp hrest
      cases heq
      rw [List.take_succ_cons]
      exact .cons_cons (beq_iff_eq.mp hgoes ▸ hanswer) (ih hmore)
    · cases hrest
      exact .singleton _

/-- Whatever the comparison is, what has been sorted has been compared with its neighbours. -/
theorem sortRun?_isChain {sorted : List α} (hrun : sortRun? lt xs = .ok sorted) :
    sorted.IsChain (Precedes lt) := by
  match xs with
  | [] =>
    cases hrun
    exact .nil
  | [x] =>
    cases hrun
    exact .singleton _
  | x :: y :: rest =>
    obtain ⟨falling, hanswer, hrun⟩ := bind_eq_ok_iff.mp hrun
    obtain ⟨more, hmore, hrun⟩ := bind_eq_ok_iff.mp hrun
    obtain ⟨final, hfinal, hsorted⟩ := bind_eq_ok_iff.mp hrun
    cases hsorted
    have hfirst : (x :: y :: rest.take more).IsChain fun a b => lt b a = .ok falling :=
      .cons_cons hanswer (runLength_isChain hmore)
    refine foldlM_insertSorted_isChain ?_ hfinal
    cases falling with
    | true => exact List.isChain_reverse.mpr (hfirst.imp fun _ _ hab => .inr hab)
    | false => exact hfirst.imp fun _ _ hab => .inl hab

end Neighbours

/-! ## Of one kind -/

section Kinds

variable {K : Type} {kind : α → K} {x y : α} {xs : List α} {k : K}

/-- Only elements of one kind can be compared. -/
def ComparesWithin (lt : α → α → Except ε Bool) (kind : α → K) : Prop :=
  ∀ x y answer, lt x y = .ok answer → kind x = kind y

variable (hlt : ComparesWithin lt kind)
include hlt

/-- To find its place, an element is compared with the one in the middle. -/
theorem position_kind {sorted : Array α} {low high place : Nat} (hlow : low < high)
    (hhigh : high ≤ sorted.size) (hplace : position lt x sorted low high = .ok place) :
    ∃ y ∈ sorted.toList, kind x = kind y := by
  unfold position at hplace
  rw [if_pos hlow] at hplace
  dsimp only at hplace
  have hmiddle : low + (high - low) / 2 < sorted.size := by omega
  rw [Array.getElem?_eq_getElem hmiddle] at hplace
  obtain ⟨answer, hanswer, _⟩ := bind_eq_ok_iff.mp hplace
  exact ⟨_, Array.getElem_mem_toList hmiddle, hlt _ _ _ hanswer⟩

theorem foldlM_insertSorted_kind {start final : Array α} (hne : start.toList ≠ [])
    (hstart : ∀ y ∈ start.toList, kind y = k)
    (hrun : xs.foldlM (insertSorted lt) start = .ok final) : ∀ x ∈ xs, kind x = k := by
  induction xs generalizing start with
  | nil => exact fun x hx => by cases hx
  | cons x xs ih =>
    rw [List.foldlM_cons] at hrun
    obtain ⟨next, hnext, hrest⟩ := bind_eq_ok_iff.mp hrun
    obtain ⟨place, hplace, _⟩ := bind_eq_ok_iff.mp hnext
    have hsize : 0 < start.size := by
      rw [← Array.length_toList]
      exact List.length_pos_iff.mpr hne
    obtain ⟨y, hy, hxy⟩ := position_kind hlt hsize le_rfl hplace
    have hx : kind x = k := hxy.trans (hstart y hy)
    have hperm := insertSorted_perm hnext
    refine List.forall_mem_cons.mpr ⟨hx, ih (fun hempty => ?_) (fun z hz => ?_) hrest⟩
    · rw [hempty] at hperm
      exact List.cons_ne_nil _ _ hperm.symm.eq_nil
    · rcases List.mem_cons.mp (hperm.mem_iff.mp hz) with rfl | hold
      · exact hx
      · exact hstart z hold

theorem runLength_kind {falling : Bool} {more : Nat}
    (hrun : runLength lt falling x xs = .ok more) : ∀ y ∈ xs.take more, kind y = kind x := by
  induction xs generalizing x more with
  | nil =>
    intro y hy
    rw [List.take_nil] at hy
    cases hy
  | cons z xs ih =>
    obtain ⟨answer, hanswer, hrest⟩ := bind_eq_ok_iff.mp hrun
    have hz := hlt _ _ _ hanswer
    split at hrest
    · obtain ⟨more, hmore, heq⟩ := bind_eq_ok_iff.mp hrest
      cases heq
      rw [List.take_succ_cons]
      exact List.forall_mem_cons.mpr ⟨hz, fun y hy => (ih hmore y hy).trans hz⟩
    · cases hrest
      exact fun y hy => by cases hy

/-- What has been sorted is of one kind. -/
theorem sortRun?_oneKind {sorted : List α} (hrun : sortRun? lt xs = .ok sorted) :
    ∀ x ∈ xs, ∀ y ∈ xs, kind x = kind y := by
  match xs with
  | [] => exact fun x hx => by cases hx
  | [x] =>
    intro y hy z hz
    rw [List.mem_singleton.mp hy, List.mem_singleton.mp hz]
  | x :: y :: rest =>
    obtain ⟨falling, hanswer, hrun⟩ := bind_eq_ok_iff.mp hrun
    obtain ⟨more, hmore, hrun⟩ := bind_eq_ok_iff.mp hrun
    obtain ⟨final, hfinal, _⟩ := bind_eq_ok_iff.mp hrun
    have hy := hlt _ _ _ hanswer
    have hrunKind : ∀ z ∈ x :: y :: rest.take more, kind z = kind x := by
      refine List.forall_mem_cons.mpr ⟨rfl, List.forall_mem_cons.mpr ⟨hy, fun z hz => ?_⟩⟩
      exact (runLength_kind hlt hmore z hz).trans hy
    have hstart : ∀ z ∈ (if falling then (x :: y :: rest.take more).reverse
        else x :: y :: rest.take more), kind z = kind x := by
      intro z hz
      split at hz
      · exact hrunKind z (List.mem_reverse.mp hz)
      · exact hrunKind z hz
    have hrest : ∀ z ∈ rest.drop more, kind z = kind x := by
      refine foldlM_insertSorted_kind hlt ?_ hstart hfinal
      cases falling with
      | true => exact List.reverse_ne_nil_iff.mpr (List.cons_ne_nil _ _)
      | false => exact List.cons_ne_nil _ _
    have hall : ∀ z ∈ x :: y :: rest, kind z = kind x := by
      intro z hz
      rcases List.mem_append.mp ((@run_perm _ _ _ rest falling more).mem_iff.mpr hz)
        with hlater | hfirst
      · exact hrest z hlater
      · exact hstart z hfirst
    exact fun a ha b hb => (hall a ha).trans (hall b hb).symm

end Kinds

/-! ## Of images -/

section Map
variable {β : Type} {lt : β → β → Except ε Bool} {f : α → β} {x : α} {xs : List α}
  {sorted : Array α}

theorem position_map {low high : Nat} :
    position lt (f x) (sorted.map f) low high =
      position (fun a b => lt (f a) (f b)) x sorted low high := by
  induction hsize : high - low using Nat.strongRecOn generalizing low high with
  | _ size ih =>
    unfold position
    simp only [Array.getElem?_map]
    by_cases hless : low < high
    · rw [if_pos hless, if_pos hless]
      cases hget : sorted[low + (high - low) / 2]? with
      | none => rfl
      | some y =>
        dsimp only [Option.map_some]
        refine bind_congr fun answer => ?_
        rw [ih _ (by omega) rfl, ih _ (by omega) rfl]
    · rw [if_neg hless, if_neg hless]

theorem insertSorted_map : insertSorted lt (sorted.map f) (f x) =
    (insertSorted (fun a b => lt (f a) (f b)) sorted x).map (Array.map f) := by
  unfold insertSorted
  rw [Array.size_map, position_map]
  cases position (fun a b => lt (f a) (f b)) x sorted 0 sorted.size with
  | error => rfl
  | ok place =>
    refine congrArg Except.ok ?_
    simp

theorem foldlM_insertSorted_map {start : Array α} :
    (xs.map f).foldlM (insertSorted lt) (start.map f) =
      (xs.foldlM (insertSorted fun a b => lt (f a) (f b)) start).map (Array.map f) := by
  induction xs generalizing start with
  | nil => rfl
  | cons x xs ih =>
    rw [List.map_cons, List.foldlM_cons, List.foldlM_cons, insertSorted_map]
    cases insertSorted (fun a b => lt (f a) (f b)) start x with
    | error => rfl
    | ok next => exact ih

theorem runLength_map {falling : Bool} : runLength lt falling (f x) (xs.map f) =
    runLength (fun a b => lt (f a) (f b)) falling x xs := by
  induction xs generalizing x with
  | nil => rfl
  | cons y xs ih =>
    rw [List.map_cons]
    unfold runLength
    simp only [ih]

/-- Sorting looks at its elements only to compare them. -/
theorem sortRun?_map : sortRun? lt (xs.map f) =
    (sortRun? (fun a b => lt (f a) (f b)) xs).map (List.map f) := by
  match xs with
  | [] => rfl
  | [x] => rfl
  | x :: y :: rest =>
    rw [List.map_cons, List.map_cons, sortRun?, sortRun?]
    cases lt (f y) (f x) with
    | error => rfl
    | ok falling =>
      change (runLength lt falling (f y) (rest.map f) >>= _) = Except.map _ (runLength _ _ _ _ >>= _)
      rw [runLength_map]
      cases runLength (fun a b => lt (f a) (f b)) falling y rest with
      | error => rfl
      | ok more =>
        change (List.foldlM _ _ _ >>= _) = Except.map _ (List.foldlM _ _ _ >>= _)
        have hstart : (if falling then (f x :: f y :: (rest.map f).take more).reverse
              else f x :: f y :: (rest.map f).take more).toArray =
            (if falling then (x :: y :: rest.take more).reverse
              else x :: y :: rest.take more).toArray.map f := by
          cases falling <;> simp
        rw [hstart, ← List.map_drop, foldlM_insertSorted_map]
        cases List.foldlM (insertSorted fun a b => lt (f a) (f b)) _ (rest.drop more) with
        | error => rfl
        | ok sorted => exact congrArg Except.ok (Array.toList_map)
end Map

end WireShape.RunSort
