import Mathlib.Tactic.Linarith
import WireShape.Binary64.Decimal
import WireShape.Proofs.Keys

/-!
# The fewest digits stand for one datum

The decimal that is written for a datum lies in its rounding interval: of the grids that are tried the
finest is finer than the interval is wide, so the search ends on a point inside. The rounding
intervals of two data have no number in common. So a decimal is written for one datum only.

* `Binary64.Rounds`: the numbers in the rounding interval of a datum.
* `Binary64.shortest_rounds`: the decimal that is written lies in the interval.
* `Binary64.Rounds.unique`: no number lies in two intervals.
-/

namespace WireShape.Binary64

variable {m m' c : Nat} {e e' k p : Int} {q : ℚ}

/-! ## Powers of two and of ten -/

theorem cast_twoTo {n : Nat} : ((twoTo n : Nat) : ℚ) = 2 ^ n := Nat.cast_pow 2 n

theorem cast_tenTo {n : Nat} : ((tenTo n : Nat) : ℚ) = 10 ^ n := Nat.cast_pow 10 n

/-- A power is a quotient of powers of which one exponent is zero. -/
theorem pow_toNat {x : ℚ} (hx : x ≠ 0) (n : Int) : x ^ n.toNat = x ^ (-n).toNat * x ^ n := by
  rw [← zpow_natCast, ← zpow_natCast, ← zpow_add₀ hx]
  congr 1
  omega

theorem reachesPower_iff : reachesPower m e p = true ↔ (10 : ℚ) ^ p ≤ m * 2 ^ e := by
  have hscale : (0 : ℚ) < 10 ^ (-p).toNat * 2 ^ (-e).toNat := by positivity
  have hpower : ((tenTo p.toNat * twoTo (-e).toNat : Nat) : ℚ) =
      10 ^ (-p).toNat * 2 ^ (-e).toNat * 10 ^ p := by
    rw [Nat.cast_mul, cast_tenTo, cast_twoTo, pow_toNat (by norm_num) p]
    ring
  have hdatum : ((m * twoTo e.toNat * tenTo (-p).toNat : Nat) : ℚ) =
      10 ^ (-p).toNat * 2 ^ (-e).toNat * (m * 2 ^ e) := by
    rw [Nat.cast_mul, Nat.cast_mul, cast_tenTo, cast_twoTo, pow_toNat two_ne_zero e]
    ring
  unfold reachesPower
  rw [decide_eq_true_iff, ← Nat.cast_le (α := ℚ), hpower, hdatum, mul_le_mul_iff_right₀ hscale]

/-! ## Rounding intervals -/

/-- The unit in which rounding intervals are given. -/
def quarter (e : Int) : ℚ := 2 ^ (e - 2)

theorem quarter_pos : 0 < quarter e := zpow_pos two_pos _

theorem four_quarters : 4 * quarter e = 2 ^ e := by
  have hfour : (4 : ℚ) = 2 ^ (2 : Int) := by norm_num
  rw [quarter, hfour, ← zpow_add₀ two_ne_zero]
  congr 1
  omega

/-- A number between the ends of the rounding interval of a datum. The ends themselves count if the
mantissa is even. -/
structure Rounds (m : Nat) (e : Int) (q : ℚ) : Prop where
  low : (interval m e).low * quarter e ≤ q
  high : q ≤ (interval m e).high * quarter e
  inner : m % 2 = 1 → (interval m e).low * quarter e < q ∧ q < (interval m e).high * quarter e

/-- The units of the interval and of the grid are on one scale. -/
theorem exists_gridScale : ∃ r : ℚ, 0 < r ∧ ((gridScale e k).1 : ℚ) = r * quarter e ∧
    ((gridScale e k).2 : ℚ) = r * 10 ^ k := by
  have htwo := pow_toNat (x := 2) two_ne_zero (e - 2)
  have hten := pow_toNat (x := 10) (by norm_num) k
  rw [neg_sub] at htwo
  refine ⟨2 ^ (2 - e).toNat * 10 ^ (-k).toNat, by positivity, ?_, ?_⟩
  · unfold gridScale quarter
    push_cast [cast_twoTo, cast_tenTo]
    rw [htwo]
    ring
  · unfold gridScale
    push_cast [cast_twoTo, cast_tenTo]
    rw [hten]
    ring

section Grid

variable {x : Nat}

/-- Counting in units of the interval or of the grid comes to the same. -/
theorem scaled_le_iff : x * (gridScale e k).1 ≤ c * (gridScale e k).2 ↔
    (x : ℚ) * quarter e ≤ c * 10 ^ k := by
  obtain ⟨r, hr, hunit, hgrid⟩ := exists_gridScale (e := e) (k := k)
  rw [← Nat.cast_le (α := ℚ), Nat.cast_mul, Nat.cast_mul, hunit, hgrid, mul_left_comm,
    mul_left_comm (c : ℚ), mul_le_mul_iff_right₀ hr]

theorem le_scaled_iff : c * (gridScale e k).2 ≤ x * (gridScale e k).1 ↔
    (c : ℚ) * 10 ^ k ≤ x * quarter e := by
  obtain ⟨r, hr, hunit, hgrid⟩ := exists_gridScale (e := e) (k := k)
  rw [← Nat.cast_le (α := ℚ), Nat.cast_mul, Nat.cast_mul, hunit, hgrid, mul_left_comm,
    mul_left_comm (x : ℚ), mul_le_mul_iff_right₀ hr]

theorem scaled_lt_iff : x * (gridScale e k).1 < c * (gridScale e k).2 ↔
    (x : ℚ) * quarter e < c * 10 ^ k := by
  rw [← not_le, ← not_le, le_scaled_iff]

theorem lt_scaled_iff : c * (gridScale e k).2 < x * (gridScale e k).1 ↔
    (c : ℚ) * 10 ^ k < x * quarter e := by
  rw [← not_le, ← not_le, scaled_le_iff]

end Grid

/-- Whether a point of a grid lies in the rounding interval. -/
def gridInside (m : Nat) (e k : Int) (c : Nat) : Bool :=
  let i := interval m e
  let (a, b) := gridScale e k
  if i.closed then i.low * a ≤ c * b && c * b ≤ i.high * a
  else i.low * a < c * b && c * b < i.high * a

theorem gridInside_iff : gridInside m e k c = true ↔ Rounds m e (c * 10 ^ k) := by
  unfold gridInside
  dsimp only
  split
  · rename_i hclosed
    have heven : m % 2 = 0 := beq_iff_eq.mp hclosed
    rw [Bool.and_eq_true, decide_eq_true_iff, decide_eq_true_iff, scaled_le_iff, le_scaled_iff]
    exact ⟨fun h => ⟨h.1, h.2, fun hodd => by omega⟩, fun h => ⟨h.low, h.high⟩⟩
  · rename_i hopen
    have hodd : m % 2 = 1 := by
      have hne : m % 2 ≠ 0 := fun heven => hopen (beq_iff_eq.mpr heven)
      omega
    rw [Bool.and_eq_true, decide_eq_true_iff, decide_eq_true_iff, scaled_lt_iff, lt_scaled_iff]
    exact ⟨fun h => ⟨h.1.le, h.2.le, fun _ => h⟩, fun h => h.inner hodd⟩

/-- The point of a grid below a datum. -/
def gridBelow (m : Nat) (e k : Int) : Nat :=
  (interval m e).value * (gridScale e k).1 / (gridScale e k).2

/-- A point of a grid that is chosen lies in the interval. One is chosen if the point below the datum
or the one above it lies there. -/
theorem gridPoint?_cases :
    (∃ c, gridPoint? m e k = some c ∧ gridInside m e k c = true) ∨
      gridPoint? m e k = none ∧ gridInside m e k (gridBelow m e k) = false ∧
        gridInside m e k (gridBelow m e k + 1) = false := by
  have hunfold : gridPoint? m e k =
      if gridInside m e k (gridBelow m e k) && gridInside m e k (gridBelow m e k + 1) then
        let r := (interval m e).value * (gridScale e k).1 % (gridScale e k).2
        if 2 * r < (gridScale e k).2 then some (gridBelow m e k)
        else if (gridScale e k).2 < 2 * r then some (gridBelow m e k + 1)
        else if gridBelow m e k % 2 = 0 then some (gridBelow m e k)
        else some (gridBelow m e k + 1)
      else if gridInside m e k (gridBelow m e k) then some (gridBelow m e k)
      else if gridInside m e k (gridBelow m e k + 1) then some (gridBelow m e k + 1)
      else none := rfl
  rw [hunfold]
  cases hdown : gridInside m e k (gridBelow m e k) <;>
    cases hup : gridInside m e k (gridBelow m e k + 1)
  · exact .inr ⟨rfl, rfl, rfl⟩
  · exact .inl ⟨_, rfl, hup⟩
  · exact .inl ⟨_, rfl, hdown⟩
  · rw [Bool.and_self, if_pos rfl]
    dsimp only
    split
    · exact .inl ⟨_, rfl, hdown⟩
    split
    · exact .inl ⟨_, rfl, hup⟩
    split
    · exact .inl ⟨_, rfl, hdown⟩
    · exact .inl ⟨_, rfl, hup⟩

/-! ## The leading digit -/

/-- The guess is at most one too high for the powers of two. -/
theorem reachesPower_guess {t : Int} (hlow : -1074 ≤ t) (hhigh : t ≤ 1023) :
    reachesPower 1 t (t * 30103 / 100000 - 1) = true := by
  have hall : ((List.range 2098).all fun j =>
      reachesPower 1 ((j : Int) - 1074) (((j : Int) - 1074) * 30103 / 100000 - 1)) = true := by
    decide +kernel
  have hpower := List.all_eq_true.mp hall (t + 1074).toNat (List.mem_range.mpr (by omega))
  rwa [Int.toNat_of_nonneg (by omega), Int.add_sub_cancel] at hpower

/-- The leading digit stands no higher than it may. -/
theorem leadingExponent_le (hm : m ≠ 0) (hlow : -1074 ≤ (m.log2 : Int) + e)
    (hhigh : (m.log2 : Int) + e ≤ 1023) : (10 : ℚ) ^ leadingExponent m e ≤ m * 2 ^ e := by
  unfold leadingExponent
  dsimp only
  split
  · exact reachesPower_iff.mp ‹_›
  split
  · exact reachesPower_iff.mp ‹_›
  · have hguess := reachesPower_iff.mp (reachesPower_guess hlow hhigh)
    have hlog : (2 : ℚ) ^ m.log2 ≤ m := by exact_mod_cast Nat.log2_self_le hm
    calc _ ≤ (2 : ℚ) ^ ((m.log2 : Int) + e) := by simpa using hguess
      _ = 2 ^ m.log2 * 2 ^ e := by rw [zpow_add₀ two_ne_zero, zpow_natCast]
      _ ≤ m * 2 ^ e := mul_le_mul_of_nonneg_right hlog (zpow_pos two_pos _).le

/-! ## The search -/

/-- A grid that is finer than the interval is wide has a point inside. -/
theorem exists_gridPoint? (hm : m ≠ 0)
    (hfine : (10 : ℚ) ^ k < ((interval m e).high - (interval m e).low : ℚ) * quarter e) :
    ∃ c, gridPoint? m e k = some c ∧ Rounds m e (c * 10 ^ k) := by
  rcases gridPoint?_cases (m := m) (e := e) (k := k) with ⟨c, hc, hinside⟩ | ⟨_, hdown, hup⟩
  · exact ⟨c, hc, gridInside_iff.mp hinside⟩
  exfalso
  have hpos : 0 < (gridScale e k).2 := Nat.mul_pos (Nat.pow_pos (by decide)) (Nat.pow_pos (by decide))
  have hbelow : (gridBelow m e k : ℚ) * 10 ^ k ≤ (interval m e).value * quarter e :=
    le_scaled_iff.mp (Nat.div_mul_le_self _ _)
  have habove : ((interval m e).value : ℚ) * quarter e < (gridBelow m e k + 1 : Nat) * 10 ^ k :=
    scaled_lt_iff.mp (Nat.lt_mul_of_div_lt (Nat.lt_succ_self _) hpos)
  have hquarter := quarter_pos (e := e)
  have hlow : ((interval m e).low : ℚ) < (interval m e).value := by
    rw [Nat.cast_lt]
    unfold interval
    dsimp only
    split <;> omega
  have hhigh : ((interval m e).value : ℚ) < (interval m e).high := by
    rw [Nat.cast_lt]
    unfold interval
    dsimp only
    omega
  have hlow' := mul_lt_mul_of_pos_right hlow hquarter
  have hhigh' := mul_lt_mul_of_pos_right hhigh hquarter
  -- The point below is under the interval and the one above is over it, so the grid is too wide.
  have hunder : (gridBelow m e k : ℚ) * 10 ^ k ≤ (interval m e).low * quarter e := by
    by_contra hnot
    rw [not_le] at hnot
    refine Bool.false_ne_true (hdown.symm.trans (gridInside_iff.mpr ⟨hnot.le, ?_, fun _ => ⟨hnot, ?_⟩⟩))
    · linarith
    · linarith
  have hover : ((interval m e).high : ℚ) * quarter e ≤ (gridBelow m e k + 1 : Nat) * 10 ^ k := by
    by_contra hnot
    rw [not_le] at hnot
    refine Bool.false_ne_true (hup.symm.trans (gridInside_iff.mpr ⟨?_, hnot.le, fun _ => ⟨?_, hnot⟩⟩))
    · linarith
    · linarith
  rw [Nat.cast_add, Nat.cast_one] at hover
  linarith

/-- The search ends inside the interval, if a grid that it comes to has a point there. -/
theorem searchGrid_rounds {fuel j : Nat} (hj : j < fuel)
    (h : ∃ c, gridPoint? m e (k - j) = some c) :
    Rounds m e ((searchGrid m e fuel k).1 * 10 ^ (searchGrid m e fuel k).2) := by
  induction fuel generalizing j k with
  | zero => cases hj
  | succ fuel ih =>
    rw [searchGrid]
    rcases gridPoint?_cases (m := m) (e := e) (k := k) with ⟨c, hc, hinside⟩ | ⟨hnone, _⟩
    · rw [hc]
      exact gridInside_iff.mp hinside
    · rw [hnone]
      cases j with
      | zero =>
        obtain ⟨c, hc⟩ := h
        rw [Nat.cast_zero, sub_zero, hnone] at hc
        cases hc
      | succ j =>
        refine ih (Nat.lt_of_succ_lt_succ hj) ?_
        obtain ⟨c, hc⟩ := h
        refine ⟨c, ?_⟩
        rw [← hc]
        congr 1
        push_cast
        ring

section Canonical

variable {negative : Bool} (hx : (finite negative m e).Canonical)
include hx

/-- Seventeen digits tell a datum from its neighbours. -/
theorem shortest_rounds (hm : m ≠ 0) :
    Rounds m e ((shortest m e).1 * 10 ^ (shortest m e).2) := by
  obtain ⟨hmantissa, hlow, hhigh, _⟩ := hx
  have hlog : m.log2 < 53 := (Nat.log2_lt hm).mpr hmantissa
  have hmin : minExponent = -1074 := rfl
  have hmax : maxExponent = 971 := rfl
  have hlead : (10 : ℚ) ^ leadingExponent m e ≤ m * 2 ^ e := by
    apply leadingExponent_le hm
    · omega
    · omega
  have hwide : 4 * m < 10 ^ 16 * ((interval m e).high - (interval m e).low) := by
    have hbound : m < 9007199254740992 := hmantissa
    have hpower : twoTo 52 = 4503599627370496 := rfl
    unfold interval
    dsimp only
    split <;> omega
  have hsub : ((interval m e).high - (interval m e).low : ℚ) =
      ((interval m e).high - (interval m e).low : Nat) := by
    refine (Nat.cast_sub ?_).symm
    unfold interval
    dsimp only
    omega
  have hj : 16 < maxDigits := by decide
  obtain ⟨c, hc, _⟩ := exists_gridPoint? (k := leadingExponent m e - 16) hm <| by
    have hstep : (10 : ℚ) ^ leadingExponent m e = 10 ^ 16 * 10 ^ (leadingExponent m e - 16) := by
      rw [← zpow_natCast, ← zpow_add₀ (by norm_num)]
      congr 1
      push_cast
      ring
    have hwide' : (4 * m : ℚ) < 10 ^ 16 * ((interval m e).high - (interval m e).low : Nat) := by
      exact_mod_cast hwide
    have hquarter := quarter_pos (e := e)
    have hscaled := mul_lt_mul_of_pos_right hwide' hquarter
    rw [hsub]
    rw [hstep, ← four_quarters] at hlead
    have hten : (0 : ℚ) < 10 ^ 16 := by positivity
    refine lt_of_mul_lt_mul_left ?_ hten.le
    calc (10 : ℚ) ^ 16 * 10 ^ (leadingExponent m e - 16) ≤ m * (4 * quarter e) := hlead
      _ = 4 * m * quarter e := by ring
      _ < _ := hscaled
      _ = _ := by ring
  exact searchGrid_rounds hj ⟨c, hc⟩

end Canonical

/-! ## Intervals of different data -/

/-- Where one interval ends before another one begins, a number in both is the end of both, and both
mantissas are even. -/
theorem Rounds.touch (h : Rounds m e q) (h' : Rounds m' e' q)
    (hends : (interval m e).high * quarter e ≤ (interval m' e').low * quarter e') :
    m % 2 = 0 ∧ m' % 2 = 0 ∧ (interval m e).high * quarter e = (interval m' e').low * quarter e' := by
  have hhigh := h.high
  have hlow := h'.low
  refine ⟨?_, ?_, by linarith⟩
  · rcases Nat.mod_two_eq_zero_or_one m with heven | hodd
    · exact heven
    · have hinner := (h.inner hodd).2
      exfalso
      linarith
  · rcases Nat.mod_two_eq_zero_or_one m' with heven | hodd
    · exact heven
    · have hinner := (h'.inner hodd).1
      exfalso
      linarith

/-- Mantissas under one exponent have intervals of their own. -/
theorem Rounds.not_lt_mantissa (h : Rounds m e q) (h' : Rounds m' e q) : ¬ m < m' := by
  intro hlt
  have hquarter := quarter_pos (e := e)
  have hends : (interval m e).high ≤ (interval m' e).low := by
    unfold interval
    dsimp only
    split <;> omega
  obtain ⟨heven, heven', hequal⟩ :=
    h.touch h' (mul_le_mul_of_nonneg_right (Nat.cast_le.mpr hends) hquarter.le)
  have hsame : (interval m e).high = (interval m' e).low := by
    exact_mod_cast (mul_left_inj' hquarter.ne').mp hequal
  unfold interval at hsame
  dsimp only at hsame
  split at hsame <;> omega

/-- So have data under different exponents, if they are canonical. -/
theorem Rounds.not_lt_exponent (h : Rounds m e q) (h' : Rounds m' e' q) (hm : m < 2 ^ 53)
    (hm' : 2 ^ 52 ≤ m') (hmin : minExponent ≤ e) : ¬ e < e' := by
  intro hlt
  have hquarter := quarter_pos (e := e)
  have hdouble : 2 * quarter e ≤ quarter e' := by
    unfold quarter
    rw [← zpow_one_add₀ two_ne_zero]
    exact zpow_le_zpow_right₀ one_le_two (by omega)
  -- Twice the least end of an interval of 53 bits is the greatest end of one.
  obtain ⟨least, hleast⟩ : ∃ least : Nat, least + 1 = 2 ^ 54 := ⟨2 ^ 54 - 1, rfl⟩
  have hlow : least ≤ (interval m' e').low := by
    have hpower : twoTo 52 = 2 ^ 52 := rfl
    unfold interval
    dsimp only
    split <;> omega
  have hhigh : (interval m e).high ≤ 2 * least := by
    unfold interval
    dsimp only
    omega
  have hlow' : (least : ℚ) ≤ (interval m' e').low := by exact_mod_cast hlow
  have hhigh' : ((interval m e).high : ℚ) ≤ 2 * least := by exact_mod_cast hhigh
  have hsteps : (2 * least : ℚ) * quarter e ≤ (interval m' e').low * quarter e' := by
    calc (2 * least : ℚ) * quarter e = least * (2 * quarter e) := by ring
      _ ≤ least * quarter e' := mul_le_mul_of_nonneg_left hdouble (Nat.cast_nonneg _)
      _ ≤ _ := mul_le_mul_of_nonneg_right hlow' quarter_pos.le
  obtain ⟨heven, _, hequal⟩ :=
    h.touch h' ((mul_le_mul_of_nonneg_right hhigh' hquarter.le).trans hsteps)
  -- Where they meet, the lower mantissa is the greatest one, which is odd.
  have hend : (2 * least : ℚ) ≤ (interval m e).high :=
    le_of_mul_le_mul_right (hsteps.trans hequal.ge) hquarter
  have hend' : 2 * least ≤ (interval m e).high := by exact_mod_cast hend
  unfold interval at hend'
  dsimp only at hend'
  omega

/-- No number rounds to two data. -/
theorem Rounds.unique {negative negative' : Bool} (hx : (finite negative m e).Canonical)
    (hy : (finite negative' m' e').Canonical) (h : Rounds m e q) (h' : Rounds m' e' q) :
    m = m' ∧ e = e' := by
  obtain ⟨hm, hmin, _, hnormal⟩ := hx
  obtain ⟨hm', hmin', _, hnormal'⟩ := hy
  have hexponent : e = e' := by
    rcases lt_trichotomy e e' with hlt | heq | hgt
    · have hleast : e' ≠ minExponent := by omega
      exact absurd hlt (h.not_lt_exponent h' hm (hnormal'.resolve_right hleast) hmin)
    · exact heq
    · have hleast : e ≠ minExponent := by omega
      exact absurd hgt (h'.not_lt_exponent h hm' (hnormal.resolve_right hleast) hmin')
  subst hexponent
  have hle := Nat.le_of_not_lt (h.not_lt_mantissa h')
  have hge := Nat.le_of_not_lt (h'.not_lt_mantissa h)
  exact ⟨Nat.le_antisymm hge hle, rfl⟩

/-- What rounds to a positive datum is positive. -/
theorem Rounds.pos (h : Rounds m e q) (hm : m ≠ 0) : 0 < q := by
  have hlow : 0 < (interval m e).low := by
    unfold interval
    dsimp only
    split <;> omega
  exact (mul_pos (Nat.cast_pos.mpr hlow) quarter_pos).trans_le h.low

/-- A datum rounds to itself. -/
theorem rounds_self (hm : m ≠ 0) : Rounds m e (m * 2 ^ e) := by
  have hquarter := quarter_pos (e := e)
  have hlow : ((interval m e).low : ℚ) < 4 * m := by
    have hnat : (interval m e).low < 4 * m := by
      unfold interval
      dsimp only
      split <;> omega
    exact_mod_cast hnat
  have hhigh : (4 * m : ℚ) < (interval m e).high := by
    have hnat : 4 * m < (interval m e).high := by
      unfold interval
      dsimp only
      omega
    exact_mod_cast hnat
  have hlow' := mul_lt_mul_of_pos_right hlow hquarter
  have hhigh' := mul_lt_mul_of_pos_right hhigh hquarter
  have hvalue : (m * 2 ^ e : ℚ) = 4 * m * quarter e := by
    rw [← four_quarters]
    ring
  rw [hvalue]
  exact ⟨hlow'.le, hhigh'.le, fun _ => ⟨hlow', hhigh'⟩⟩

end WireShape.Binary64
