import Mathlib
import WireShape.Proofs.Json.Exact

/-!
# Equality and text

Two standard values with the same text are equal. The converse fails, as equality takes numbers by
their value: `1`, `1.0` and `true` are equal and have three texts. This is the only difference. A value
whose numbers are written by value, whole ones as integers, has the text of all values that are equal
to it.

* `Atom.byValue`, `Value.byValue`: booleans and whole decimals as integers.
* `Atom.IsStandard.same_iff`: atoms are equal if they are one atom by value.
* `Value.IsStandard.same_iff`: values are equal if they are the same data by value.
* `Json.same_iff_texts`: what equality says about texts.
-/

namespace WireShape

/-! ## Whole decimals -/

namespace Binary64

variable {negative negative' : Bool} {m m' : Nat} {e e' i : Int}

/-- The integer that a finite datum is, if it is a whole number. -/
def toInt? : Binary64 → Option Int
  | .finite negative m e =>
    if 0 ≤ e then some (signed negative (m * twoTo e.toNat))
    else if m % twoTo (-e).toNat = 0 then some (signed negative (m / twoTo (-e).toNat))
    else none
  | _ => none

theorem cast_signed : ((signed negative m : Int) : ℚ) = if negative then -(m : ℚ) else m := by
  unfold signed
  split
  · rw [Int.cast_neg, Int.cast_natCast]
  · exact Int.cast_natCast m

theorem rational_eq : rational negative m e = if negative then -(m * 2 ^ e : ℚ) else m * 2 ^ e := by
  rw [rational, cast_signed]
  split
  · exact neg_mul _ _
  · rfl

theorem abs_rational : |rational negative m e| = m * 2 ^ e := by
  have hnonneg : (0 : ℚ) ≤ m * 2 ^ e := by positivity
  rw [rational_eq]
  split
  · rw [abs_neg, abs_of_nonneg hnonneg]
  · exact abs_of_nonneg hnonneg

theorem toInt?_eq_some_iff :
    (finite negative m e).toInt? = some i ↔ rational negative m e = i := by
  unfold toInt?
  dsimp only
  split
  · rename_i he
    have hvalue : ((signed negative (m * twoTo e.toNat) : Int) : ℚ) = rational negative m e := by
      have hpower : (2 : ℚ) ^ e.toNat = 2 ^ e := by
        rw [← zpow_natCast, Int.toNat_of_nonneg he]
      rw [cast_signed, rational_eq, Nat.cast_mul, cast_twoTo, hpower]
    rw [Option.some_inj, ← hvalue, Int.cast_inj]
  · rename_i he
    have hpower : (2 : ℚ) ^ e * 2 ^ (-e).toNat = 1 := by
      have hnat : (((-e).toNat : Nat) : Int) = -e := by omega
      rw [← zpow_natCast, hnat, ← zpow_add₀ two_ne_zero, add_neg_cancel, zpow_zero]
    split
    · rename_i hwhole
      obtain ⟨d, rfl⟩ := Nat.dvd_of_mod_eq_zero hwhole
      have hdiv : twoTo (-e).toNat * d / twoTo (-e).toNat = d :=
        Nat.mul_div_cancel_left d (Nat.pow_pos (by decide))
      have hvalue : ((signed negative d : Int) : ℚ) =
          rational negative (twoTo (-e).toNat * d) e := by
        have hscaled : ((twoTo (-e).toNat * d : Nat) : ℚ) * 2 ^ e = d := by
          rw [Nat.cast_mul, cast_twoTo, mul_comm, ← mul_assoc, hpower, one_mul]
        rw [cast_signed, rational_eq, hscaled]
      rw [hdiv, Option.some_inj, ← hvalue, Int.cast_inj]
    · rename_i hpart
      refine ⟨nofun, fun heq => absurd ?_ hpart⟩
      have habs := @abs_rational negative m e
      rw [heq] at habs
      have hmantissa : (m : ℚ) = (i.natAbs * twoTo (-e).toNat : Nat) := by
        rw [Nat.cast_mul, cast_twoTo, Nat.cast_natAbs, Int.cast_abs, habs, mul_assoc, hpower,
          mul_one]
      rw [Nat.cast_inj.mp hmantissa, Nat.mul_mod_left]

/-- Canonical data of one value are one datum, if the value is no whole number. -/
theorem finite_of_rational_eq (hx : (finite negative m e).Canonical)
    (hy : (finite negative' m' e').Canonical) (hpart : (finite negative m e).toInt? = none)
    (h : rational negative m e = rational negative' m' e') :
    finite negative m e = finite negative' m' e' := by
  have hne : rational negative m e ≠ 0 := by
    intro hzero
    have hwhole : (finite negative m e).toInt? = some 0 :=
      toInt?_eq_some_iff.mpr (hzero.trans Int.cast_zero.symm)
    cases hpart.symm.trans hwhole
  have hsize : (m : ℚ) * 2 ^ e = m' * 2 ^ e' := by rw [← abs_rational, h, abs_rational]
  have hpos : (0 : ℚ) < m * 2 ^ e := by
    rw [← @abs_rational negative]
    exact abs_pos.mpr hne
  have hm : m ≠ 0 := by
    rintro rfl
    rw [Nat.cast_zero, zero_mul] at hpos
    exact lt_irrefl 0 hpos
  have hm' : m' ≠ 0 := by
    rintro rfl
    rw [hsize, Nat.cast_zero, zero_mul] at hpos
    exact lt_irrefl 0 hpos
  have hrounds := rounds_self (e := e') hm'
  rw [← hsize] at hrounds
  obtain ⟨rfl, rfl⟩ := (rounds_self hm).unique hx hy hrounds
  rw [rational_eq, rational_eq] at h
  cases negative <;> cases negative'
  · rfl
  · simp only [if_true, Bool.false_eq_true, if_false] at h
    linarith
  · simp only [if_true, Bool.false_eq_true, if_false] at h
    linarith
  · rfl

end Binary64

/-! ## Atoms -/

namespace Atom

open Binary64 (toInt?_eq_some_iff)

variable {a b : Atom}

/-- Booleans and whole decimals as integers, all else as it is. -/
def byValue : Atom → Atom
  | .bool b => .int (if b then 1 else 0)
  | .float x =>
    match x.toInt? with
    | some i => .int i
    | none => .float x
  | a => a

/-- By value an atom is the same key. -/
theorem key?_byValue : a.byValue.key? = a.key? := by
  cases a with
  | float x =>
    rcases x with p | negative | ⟨negative, m, e⟩
    · rfl
    · rfl
    · unfold byValue
      dsimp only
      split
      · rename_i i hi
        change some (Key.number i) = some (Key.number (Binary64.rational negative m e))
        rw [toInt?_eq_some_iff.mp hi]
      · rfl
  | _ => rfl

namespace IsStandard

theorem byValue (ha : a.IsStandard) : a.byValue.IsStandard := by
  cases ha with
  | null => exact .null
  | bool b => exact .int _
  | int i => exact .int i
  | float h =>
    unfold Atom.byValue
    dsimp only
    split
    · exact .int _
    · exact .float h
  | str s => exact .str s

/-- By value a standard atom is an integer, a decimal that is no whole number, or no number. -/
theorem cases_byValue (ha : a.IsStandard) :
    (∃ i : Int, a.key? = some (.number i) ∧ a.byValue = .int i) ∨
      (∃ negative m e, (Binary64.finite negative m e).Canonical ∧
        (Binary64.finite negative m e).toInt? = none ∧ a = .float (.finite negative m e) ∧
          a.byValue = a) ∨
      a.key? = some (.other a) ∧ a.byValue = a := by
  cases ha with
  | null => exact .inr (.inr ⟨rfl, rfl⟩)
  | bool b => exact .inl ⟨_, rfl, rfl⟩
  | int i => exact .inl ⟨i, rfl, rfl⟩
  | @float negative m e h =>
    have hkey := key?_byValue (a := .float (.finite negative m e))
    cases hwhole : (Binary64.finite negative m e).toInt? with
    | none =>
      refine .inr (.inl ⟨negative, m, e, h, hwhole, rfl, ?_⟩)
      unfold Atom.byValue
      dsimp only
      rw [hwhole]
    | some i =>
      have hvalue : (Atom.float (.finite negative m e)).byValue = .int i := by
        unfold Atom.byValue
        dsimp only
        rw [hwhole]
      rw [hvalue] at hkey
      exact .inl ⟨i, hkey.symm, hvalue⟩
  | str s => exact .inr (.inr ⟨rfl, rfl⟩)

/-- Standard atoms equal themselves. -/
theorem isSome_key? (ha : a.IsStandard) : a.key?.isSome = true := by
  cases ha <;> rfl

/-- Standard atoms are equal if they are one atom by value. -/
theorem same_iff (ha : a.IsStandard) (hb : b.IsStandard) :
    a.same b = true ↔ a.byValue = b.byValue := by
  rw [Atom.same_iff]
  constructor
  · rintro ⟨_, hkey⟩
    rcases ha.cases_byValue with ⟨i, hi, hvalue⟩ | ⟨negative, m, e, hx, hpart, rfl, hvalue⟩ |
        ⟨hother, hvalue⟩ <;>
      rcases hb.cases_byValue with ⟨j, hj, hvalue'⟩ | ⟨negative', m', e', hy, hpart', rfl, hvalue'⟩ |
        ⟨hother', hvalue'⟩
    · rw [hi, hj, Option.some_inj, Key.number.injEq, Int.cast_inj] at hkey
      rw [hvalue, hvalue', hkey]
    · rw [hi] at hkey
      have hwhole := toInt?_eq_some_iff.mpr (Key.number.inj (Option.some.inj hkey)).symm
      cases hpart'.symm.trans hwhole
    · cases hi.symm.trans (hkey.trans hother')
    · rw [hj] at hkey
      have hwhole := toInt?_eq_some_iff.mpr (Key.number.inj (Option.some.inj hkey))
      cases hpart.symm.trans hwhole
    · have hrational := Key.number.inj (Option.some.inj hkey)
      rw [Binary64.finite_of_rational_eq hx hy hpart hrational]
    · cases hkey.trans hother'
    · cases hj.symm.trans (hkey.symm.trans hother)
    · cases hkey.symm.trans hother
    · rw [hother, hother', Option.some_inj, Key.other.injEq] at hkey
      rw [hkey]
  · intro h
    refine ⟨ha.isSome_key?, ?_⟩
    rw [← key?_byValue, h, key?_byValue]

end IsStandard

end Atom

/-! ## Values -/

namespace Value

theorem optionRel_map_iff {α β α' β' : Type} {R : α' → β' → Prop} {f : α → α'} {g : β → β'}
    {a : Option α} {b : Option β} :
    Option.Rel R (a.map f) (b.map g) ↔ Option.Rel (fun x y => R (f x) (g y)) a b := by
  cases a with
  | none =>
    rw [Option.map_none, optionRel_none_iff, optionRel_none_iff, Option.map_eq_none_iff]
  | some x =>
    rw [Option.map_some, optionRel_some_iff, optionRel_some_iff]
    constructor
    · rintro ⟨c, hc, hR⟩
      obtain ⟨y, hy, rfl⟩ := Option.map_eq_some_iff.mp hc
      exact ⟨y, hy, hR⟩
    · rintro ⟨y, rfl, hR⟩
      exact ⟨g y, rfl, hR⟩

variable {v w : Value} {xs : List Value} {es : List (Atom × Value)} {i j : Option Nat}

mutual

/-- A value with booleans and whole decimals as integers. -/
def byValue : Value → Value
  | .atom a => .atom a.byValue
  | .list xs => .list (itemsByValue xs)
  | .map es i => .map (entriesByValue es) i
  | v => v

def itemsByValue : List Value → List Value
  | [] => []
  | x :: xs => byValue x :: itemsByValue xs

def entriesByValue : List (Atom × Value) → List (Atom × Value)
  | [] => []
  | (k, v) :: es => (k, byValue v) :: entriesByValue es

end

theorem byValue_atom {a : Atom} : (atom a).byValue = atom a.byValue := by rw [byValue]

theorem byValue_list : (list xs).byValue = list (xs.map byValue) := by
  have hitems : ∀ xs, itemsByValue xs = xs.map byValue := by
    intro xs
    induction xs with
    | nil => rfl
    | cons x xs ih => rw [itemsByValue, ih, List.map_cons]
  rw [byValue, hitems]

theorem byValue_map : (map es i).byValue = map (OrderedMap.mapValues byValue es) i := by
  have hentries : ∀ es, entriesByValue es = OrderedMap.mapValues byValue es := by
    intro es
    unfold OrderedMap.mapValues
    induction es with
    | nil => rfl
    | cons e es ih => rw [entriesByValue, ih, List.map_cons]
  rw [byValue, hentries]

/-- What stands under a text key by value. -/
theorem field?_byValue {name : String} : v.byValue.field? name = (v.field? name).map byValue := by
  cases v with
  | map es i =>
    rw [byValue_map]
    exact OrderedMap.get?_mapValues
  | atom a => rfl
  | list xs => rfl
  | _ => rfl

namespace IsStandard

theorem byValue (h : v.IsStandard) : v.byValue.IsStandard := by
  induction h with
  | atom ha =>
    rw [byValue_atom]
    exact .atom ha.byValue
  | list _ ih =>
    rw [byValue_list]
    exact .list (List.forall_mem_map.mpr ih)
  | @map es identity hkeys hseparate _ ih =>
    rw [byValue_map]
    refine .map (List.forall_mem_map.mpr hkeys) ?_ (List.forall_mem_map.mpr ih)
    exact hseparate.of_keys (List.forall₂_map_right_iff.mpr (List.forall₂_same.mpr fun _ _ => rfl))

theorem proper (h : v.IsStandard) : v.Proper := h.writable.proper

theorem keyed (h : (Value.map es i).IsStandard) : Fields.Keyed es := h.writable.keyed

/-- Standard values are alike if they are the same data by value. -/
theorem alike_iff (hv : v.IsStandard) (hw : w.IsStandard) :
    v.alike w = true ↔ v.byValue.SameData w.byValue := by
  induction hv generalizing w with
  | @atom a ha =>
    cases hw with
    | @atom b hb =>
      rw [byValue_atom, byValue_atom, sameData_atom_iff, ← ha.same_iff hb]
      refine Atom.alike_iff.trans ⟨?_, .inr⟩
      rintro (rfl | hsame)
      · exact (ha.same_iff ha).mpr rfl
      · exact hsame
    | list =>
      rw [byValue_atom, byValue_list]
      exact ⟨fun h => (by cases h), fun h => (by cases h)⟩
    | map =>
      rw [byValue_atom, byValue_map]
      exact ⟨fun h => (by cases h), fun h => (by cases h)⟩
  | @list xs _ ih =>
    rw [byValue_list]
    cases hw with
    | atom =>
      rw [byValue_atom]
      exact ⟨fun h => (by cases h), fun h => (by cases h)⟩
    | list hys =>
      rw [byValue_list, sameData_list_iff, alike_list_iff, List.forall₂_map_left_iff,
        List.forall₂_map_right_iff]
      constructor
      · exact forall₂_imp_mem₂ fun x hx y hy => (ih x hx (hys y hy)).mp
      · exact forall₂_imp_mem₂ fun x hx y hy => (ih x hx (hys y hy)).mpr
    | map =>
      rw [byValue_map]
      exact ⟨fun h => (by cases h), fun h => (by cases h)⟩
  | @map es identity hkeys hseparate hes ih =>
    rw [byValue_map]
    cases w with
    | map fs =>
      have hmap : (Value.map es identity).IsStandard := .map hkeys hseparate hes
      rw [byValue_map, sameData_map_iff, hmap.keyed.alike_iff hw.keyed]
      refine forall_congr' fun k => ?_
      rw [OrderedMap.get?_mapValues, OrderedMap.get?_mapValues, optionRel_map_iff]
      have hfound : ∀ x, OrderedMap.get? es k = some x → ∀ y, OrderedMap.get? fs k = some y →
          (x.alike y = true ↔ x.byValue.SameData y.byValue) := by
        intro x hx y hy
        obtain ⟨k', hmem, _⟩ := OrderedMap.mem_of_get? hx
        exact ih (k', x) hmem (hw.found hy)
      constructor
      · exact fun h => optionRel_imp h fun x hx y hy => (hfound x hx y hy).mp
      · exact fun h => optionRel_imp h fun x hx y hy => (hfound x hx y hy).mpr
    | atom =>
      rw [byValue_atom]
      exact ⟨fun h => (by cases h), fun h => (by cases h)⟩
    | list =>
      rw [byValue_list]
      exact ⟨fun h => (by cases h), fun h => (by cases h)⟩
    | _ => cases hw

theorem selfEqual (h : v.IsStandard) : v.SelfEqual := by
  induction h with
  | atom ha => exact .atom ((ha.same_iff ha).mpr rfl)
  | list _ ih => exact .list ih
  | map _ _ _ ih => exact .map ih

/-- Standard values are equal if they are the same data by value. -/
theorem same_iff (hv : v.IsStandard) (hw : w.IsStandard) :
    v.same w = true ↔ v.byValue.SameData w.byValue :=
  Iff.trans ⟨hv.proper.alike_of_same, hv.selfEqual.same_of_alike⟩ (hv.alike_iff hw)

/-- The same data are the same by value. -/
theorem sameData_byValue (hv : v.IsStandard) (h : v.SameData w) :
    v.byValue.SameData w.byValue := by
  induction hv generalizing w with
  | atom =>
    cases h with
    | atom => exact .atom _
  | list _ ih =>
    cases h with
    | list h =>
      rw [byValue_list, byValue_list, sameData_list_iff, List.forall₂_map_left_iff,
        List.forall₂_map_right_iff]
      exact forall₂_imp_mem (fun x hx _ => ih x hx) h
  | map _ _ _ ih =>
    cases h with
    | map h =>
      rw [byValue_map, byValue_map, sameData_map_iff]
      intro k
      rw [OrderedMap.get?_mapValues, OrderedMap.get?_mapValues, optionRel_map_iff]
      refine optionRel_imp (h k) fun x hx y _ hsame => ?_
      obtain ⟨k', hmem, _⟩ := OrderedMap.mem_of_get? hx
      exact ih (k', x) hmem hsame

end IsStandard

/-- The same data are the same but for their titles. -/
theorem SameData.butTitle (h : v.SameData w) : v.SameButTitle w := by
  cases h with
  | map h => exact fun k _ => h k
  | atom a => exact .atom a
  | list h => exact .list h

/-- Without titles it is all the same whether titles count. -/
theorem sameButTitle_iff (hv : v.field? "title" = none) (hw : w.field? "title" = none) :
    v.SameButTitle w ↔ v.SameData w := by
  refine ⟨fun h => ?_, SameData.butTitle⟩
  cases v with
  | map es i =>
    cases w with
    | map fs j =>
      refine sameData_map_iff.mpr fun k => ?_
      by_cases hk : k = .str "title"
      · have hleft : OrderedMap.get? es (.str "title") = none := hv
        have hright : OrderedMap.get? fs (.str "title") = none := hw
        rw [hk, hleft, hright]
        exact .none
      · exact h k hk
    | _ => exact h
  | _ => exact h

end Value

/-! ## Texts -/

namespace Json

variable {describe : Describe} {v w : Value}

/-- Standard schemas without titles that have the same text are equal, and they are equal if and only
if they have the same text by value. -/
theorem same_iff_texts (hv : v.IsStandard) (hw : w.IsStandard)
    (htitle : v.field? "title" = none) (htitle' : w.field? "title" = none) :
    ∃ a b a' b', canonical describe v = .ok a ∧ canonical describe w = .ok b ∧
      canonical describe v.byValue = .ok a' ∧ canonical describe w.byValue = .ok b' ∧
        (a = b → v.same w = true) ∧ (v.same w = true ↔ a' = b') := by
  obtain ⟨a, b, ha, hb, hab⟩ := @standard_shape_iff _ _ describe hv hw
  obtain ⟨a', b', ha', hb', hab'⟩ := @standard_shape_iff _ _ describe hv.byValue hw.byValue
  rw [Value.sameButTitle_iff htitle htitle'] at hab
  rw [Value.sameButTitle_iff (by rw [Value.field?_byValue, htitle]; rfl)
    (by rw [Value.field?_byValue, htitle']; rfl), ← hv.same_iff hw] at hab'
  exact ⟨a, b, a', b', ha, hb, ha', hb',
    fun heq => (hv.same_iff hw).mpr (hv.sameData_byValue (hab.mp heq)), hab'.symm⟩

end Json

end WireShape
