import Mathlib.Data.List.Chain
import WireShape.Proofs.Equality
import WireShape.Proofs.Sorting
import WireShape.Proofs.Validation.Data
import WireShape.Value.Strict

/-!
# Repeated elements

To find out whether a list repeats an element, it is sorted, if that is possible, and neighbours are
compared. The order takes booleans for numbers, and the comparison does not, so a list may stand
between two equal ones and hide the repetition. This is the only way in which a repetition of data
without floating point numbers can be missed: where equal lists are strictly equal, neighbours in
the sorted list that are not equal rise, the order is transitive, and so no two elements are equal.

* `Value.Unmixed`: data in no list of which a boolean makes two lists equal that are not.
* `Unmixed.before?_congr`, `Unmixed.same_or_before?`, `Unmixed.before?_trans`: an order of data.
* `Unmixed.allDistinct_eq`: the test for distinct elements compares all pairs.
-/

namespace WireShape.Value

variable {u v v' w w' : Value} {xs xs' ys ys' zs : List Value} {es fs : List (Atom × Value)}
  {i j : Option Nat} {answer : Bool}

/-- Data without floating point numbers, in no list of which two lists are equal only because
booleans count as numbers. -/
inductive Unmixed : Value → Prop
  | null : Unmixed .null
  | bool (b : Bool) : Unmixed (.bool b)
  | int (i : Int) : Unmixed (.int i)
  | str (s : String) : Unmixed (.str s)
  | list {xs : List Value} (hxs : ∀ x ∈ xs, Unmixed x)
      (hequal : ∀ ys zs, .list ys ∈ xs → .list zs ∈ xs → (Value.list ys).same (.list zs) = true →
        (Value.list ys).sameStrict (.list zs) = true) : Unmixed (.list xs)
  | map {es : List (Atom × Value)} {identity : Option Nat} (hkeys : ∀ e ∈ es, ∃ s, e.1 = .str s)
      (hseparate : OrderedMap.Separate es) (hes : ∀ e ∈ es, Unmixed e.2) :
      Unmixed (.map es identity)

namespace Unmixed

theorem isJson (h : v.Unmixed) : v.IsJson := by
  induction h with
  | null => exact .null
  | bool b => exact .bool b
  | int i => exact .int i
  | str s => exact .str s
  | list _ _ ih => exact .list ih
  | map hkeys hseparate _ ih => exact .map hkeys hseparate ih

theorem proper (h : v.Unmixed) : v.Proper := by
  induction h with
  | list _ _ ih => exact .list ih
  | map hkeys hseparate _ ih =>
    refine .map ⟨hseparate, fun e he => ?_⟩ ih
    obtain ⟨s, hs⟩ := hkeys e he
    rw [hs]
    exact Atom.str_beq_iff.mpr rfl
  | _ => exact .atom

theorem item (h : (Value.list xs).Unmixed) {x : Value} (hx : x ∈ xs) : x.Unmixed := by
  cases h with
  | list hxs _ => exact hxs x hx

theorem entry (h : (Value.map es i).Unmixed) {e : Atom × Value} (he : e ∈ es) : e.2.Unmixed := by
  cases h with
  | map _ _ hes => exact hes e he

theorem ofFields {fields : List (String × Value)} (hkeys : (fields.map (·.1)).Nodup)
    (h : ∀ e ∈ fields, e.2.Unmixed) : (Value.ofFields fields).Unmixed := by
  obtain ⟨htext, hseparate⟩ := keys_ofFields hkeys
  refine .map htext hseparate fun e he => ?_
  obtain ⟨f, hf, rfl⟩ := List.mem_map.mp he
  exact h f hf

/-! ## Equality -/

theorem selfEqual (h : v.Unmixed) : v.SelfEqual := by
  induction h with
  | null => exact .atom rfl
  | bool b => exact .atom (by cases b <;> rfl)
  | int i => exact .atom (int_beq_iff.mpr rfl)
  | str s => exact .atom (Atom.str_beq_iff.mpr rfl)
  | list _ _ ih => exact .list ih
  | map _ _ _ ih => exact .map ih

theorem same_of_alike (h : v.Unmixed) (hvw : v.alike w = true) : v.same w = true :=
  h.selfEqual.same_of_alike hvw

theorem same_refl (h : v.Unmixed) : v.same v = true := h.same_of_alike h.proper.alike_refl

theorem same_symm (h : v.Unmixed) (hw : w.Unmixed) (hvw : v.same w = true) : w.same v = true :=
  h.proper.same_symm hw.proper hvw

theorem same_trans (hu : u.Unmixed) (hv : v.Unmixed) (huv : u.same v = true)
    (hvw : v.same w = true) : u.same w = true :=
  hu.same_of_alike (hv.proper.alike_trans (hu.proper.alike_of_same huv)
    (hv.proper.alike_of_same hvw))

/-- Equal values are equal to the same values. -/
theorem same_congr (hv : v.Unmixed) (hv' : v'.Unmixed) (hw : w.Unmixed) (hw' : w'.Unmixed)
    (h : v.same v' = true) (h' : w.same w' = true) : v.same w = v'.same w' := by
  rw [Bool.eq_iff_iff]
  constructor
  · exact fun hvw => same_trans hv' hw (same_trans hv' hv (same_symm hv hv' h) hvw) h'
  · exact fun hvw => same_trans hv hw' (same_trans hv hv' h hvw) (same_symm hw hw' h')

end Unmixed

theorem sameAtomStrict_same {a b : Atom} (h : sameAtomStrict a b = true) : a.same b = true := by
  unfold sameAtomStrict at h
  split at h
  · obtain rfl := beq_iff_eq.mp h
    rename_i b
    cases b <;> rfl
  · cases h
  · cases h
  · exact h

theorem sameStrict_list_iff : (list xs).sameStrict (list ys) = true ↔
    List.Forall₂ (fun x y => x.sameStrict y = true) xs ys := by
  rw [sameStrict]
  induction xs generalizing ys with
  | nil => cases ys <;> simp [sameItemsStrict]
  | cons x xs ih =>
    cases ys with
    | nil => simp [sameItemsStrict]
    | cons y ys => rw [sameItemsStrict, Bool.and_eq_true, ih, List.forall₂_cons]

theorem sameStrict_map_iff : (map es i).sameStrict (map fs j) = true ↔ es.length = fs.length ∧
    ∀ e ∈ es, ∃ w, OrderedMap.get? fs e.1 = some w ∧ e.2.sameStrict w = true := by
  have hentries : sameEntriesStrict es fs = true ↔
      ∀ e ∈ es, ∃ w, OrderedMap.get? fs e.1 = some w ∧ e.2.sameStrict w = true := by
    induction es with
    | nil => simp [sameEntriesStrict]
    | cons e es ih =>
      rw [sameEntriesStrict, Bool.and_eq_true, ih, List.forall_mem_cons]
      refine and_congr_left fun _ => ?_
      cases OrderedMap.get? fs e.1 <;> simp
  rw [sameStrict, Bool.and_eq_true, beq_iff_eq, hentries]

/-- Strictly equal data are equal. -/
theorem IsJson.same_of_sameStrict (h : v.IsJson) (hw : w.IsJson) (hvw : v.sameStrict w = true) :
    v.same w = true := by
  induction h generalizing w with
  | list _ ih =>
    cases w with
    | list ys =>
      exact same_list_iff.mpr (forall₂_imp_mem₂ (fun x hx y hy => ih x hx (hw.item hy))
        (sameStrict_list_iff.mp hvw))
    | atom b => cases hw <;> cases hvw
    | _ => cases hvw
  | map _ _ _ ih =>
    cases w with
    | map fs =>
      obtain ⟨hlength, hall⟩ := sameStrict_map_iff.mp hvw
      refine same_map_iff.mpr ⟨hlength, fun e he => ?_⟩
      obtain ⟨w, hget, hstrict⟩ := hall e he
      obtain ⟨hmem, _⟩ := hw.mem_of_get? hget
      exact ⟨w, hget, ih e he (hw.entry hmem).1 hstrict⟩
    | _ => cases hvw
  | _ =>
    cases w with
    | atom b => exact sameAtomStrict_same hvw
    | _ => cases hvw

/-! ## Order -/

/-- What the answer to a comparison is due to: numbers, texts or lists. -/
inductive Compared (answer : Bool) : Value → Value → Prop
  | numbers {a b : Atom} {m n : Int} (ha : a.number? = some (.int m))
      (hb : b.number? = some (.int n)) (hanswer : answer = decide (m < n)) :
      Compared answer (.atom a) (.atom b)
  | texts {s t : String} (hanswer : answer = decide (s < t)) : Compared answer (.str s) (.str t)
  | lists {xs ys : List Value} (h : beforeItems? xs ys = some answer) :
      Compared answer (.list xs) (.list ys)

theorem lt_int {m n : Int} : Number.lt (.int m) (.int n) = decide (m < n) := by
  change (some (compare m n) == some .lt) = _
  rw [Bool.eq_iff_iff, beq_iff_eq, Option.some_inj, Int.compare_eq_lt, decide_eq_true_iff]

theorem before?_numbers {a b : Atom} {m n : Int} (ha : a.number? = some (.int m))
    (hb : b.number? = some (.int n)) : before? (.atom a) (.atom b) = some (decide (m < n)) := by
  rw [before?]
  unfold beforeAtom?
  rw [ha, hb]
  exact congrArg some lt_int

namespace Unmixed

theorem compared (hv : v.Unmixed) (hw : w.Unmixed) (h : before? v w = some answer) :
    Compared answer v w := by
  cases hv with
  | null => cases hw <;> cases h
  | bool b =>
    cases hw with
    | bool _ => exact .numbers rfl rfl ((Option.some.inj h).symm.trans lt_int)
    | int _ => exact .numbers rfl rfl ((Option.some.inj h).symm.trans lt_int)
    | _ => cases h
  | int m =>
    cases hw with
    | bool _ => exact .numbers rfl rfl ((Option.some.inj h).symm.trans lt_int)
    | int _ => exact .numbers rfl rfl ((Option.some.inj h).symm.trans lt_int)
    | _ => cases h
  | str s =>
    cases hw with
    | str t => exact .texts (Option.some.inj h).symm
    | _ => cases h
  | list _ _ =>
    cases hw with
    | list _ _ => exact .lists h
    | _ => cases h
  | map _ _ _ => cases hw <;> cases h

/-- Atoms that are equal are one and the same, or they count as the same number. -/
theorem eq_or_number {a b : Atom} (ha : (Value.atom a).Unmixed) (hb : (Value.atom b).Unmixed)
    (h : a.same b = true) : a = b ∨ ∃ n, a.number? = some n ∧ b.number? = some n := by
  have hnumber : ∀ {m n : Int}, Number.same (.int m) (.int n) = true → m = n := fun h =>
    int_beq_iff.mp h
  cases ha with
  | null => cases hb <;> first | exact .inl rfl | cases h
  | str s =>
    cases hb with
    | str t => exact .inl (congrArg Atom.str (Atom.str.inj (of_decide_eq_true h)))
    | _ => cases h
  | bool b =>
    cases hb with
    | bool _ => exact .inr ⟨_, rfl, by rw [hnumber h]; rfl⟩
    | int _ => exact .inr ⟨_, rfl, by rw [hnumber h]; rfl⟩
    | _ => cases h
  | int m =>
    cases hb with
    | bool _ => exact .inr ⟨_, rfl, by rw [hnumber h]; rfl⟩
    | int _ => exact .inr ⟨_, rfl, by rw [hnumber h]; rfl⟩
    | _ => cases h

end Unmixed

theorem beforeAtom?_of_left {a b : Atom} {x : Number} (ha : a.number? = some x) :
    beforeAtom? a b = b.number?.map x.lt := by
  unfold beforeAtom?
  rw [ha]
  cases hb : b.number? with
  | some y => rfl
  | none =>
    dsimp only
    cases a <;> first | rfl | cases ha

theorem beforeAtom?_of_right {a b : Atom} {y : Number} (hb : b.number? = some y) :
    beforeAtom? a b = a.number?.map fun x => x.lt y := by
  unfold beforeAtom?
  rw [hb]
  cases ha : a.number? with
  | some y => rfl
  | none =>
    dsimp only
    cases b <;> first | cases hb; done | cases a <;> rfl

namespace Unmixed

theorem beforeAtom?_congr {a a' b b' : Atom} (ha : (Value.atom a).Unmixed)
    (ha' : (Value.atom a').Unmixed) (hb : (Value.atom b).Unmixed) (hb' : (Value.atom b').Unmixed)
    (h : a.same a' = true) (h' : b.same b' = true) : beforeAtom? a b = beforeAtom? a' b' := by
  have hleft : beforeAtom? a b = beforeAtom? a' b := by
    rcases eq_or_number ha ha' h with rfl | ⟨x, hx, hx'⟩
    · rfl
    · rw [beforeAtom?_of_left hx, beforeAtom?_of_left hx']
  rcases eq_or_number hb hb' h' with rfl | ⟨y, hy, hy'⟩
  · exact hleft
  · rw [hleft, beforeAtom?_of_right hy, beforeAtom?_of_right hy']

theorem beforeItems?_congr (hitems : ∀ x ∈ xs, ∀ x' ∈ xs', ∀ y ∈ ys, ∀ y' ∈ ys',
      x.same x' = true → y.same y' = true →
        x.same y = x'.same y' ∧ before? x y = before? x' y')
    (h : List.Forall₂ (fun x x' => x.same x' = true) xs xs')
    (h' : List.Forall₂ (fun y y' => y.same y' = true) ys ys') :
    beforeItems? xs ys = beforeItems? xs' ys' := by
  induction h generalizing ys ys' with
  | nil => cases h' <;> rfl
  | cons hx _ ih =>
    cases h' with
    | nil => rfl
    | cons hy hys =>
      obtain ⟨hsame, hbefore⟩ := hitems _ List.mem_cons_self _ List.mem_cons_self _
        List.mem_cons_self _ List.mem_cons_self hx hy
      have hrest := ih (fun x hx x' hx' y hy y' hy' => hitems x (List.mem_cons_of_mem _ hx) x'
        (List.mem_cons_of_mem _ hx') y (List.mem_cons_of_mem _ hy) y' (List.mem_cons_of_mem _ hy'))
        hys
      rw [beforeItems?, beforeItems?, hsame, hbefore, hrest]

/-- Equal values have the same place in the order. -/
theorem before?_congr (hv : v.Unmixed) (hv' : v'.Unmixed) (hw : w.Unmixed) (hw' : w'.Unmixed)
    (h : v.same v' = true) (h' : w.same w' = true) : before? v w = before? v' w' := by
  induction hv generalizing v' w w' with
  | @list xs hxs _ ih =>
    obtain ⟨ys, rfl⟩ : ∃ ys, v' = .list ys := by
      cases v' with
      | list ys => exact ⟨ys, rfl⟩
      | _ => cases h
    cases w with
    | list zs =>
      obtain ⟨zs', rfl⟩ : ∃ zs', w' = .list zs' := by
        cases w' with
        | list zs' => exact ⟨zs', rfl⟩
        | _ => cases h'
      refine beforeItems?_congr (fun x hx y hy z hz z' hz' hxy hzz => ?_) (same_list_iff.mp h)
        (same_list_iff.mp h')
      have hz := hw.item hz
      have hz' := hw'.item hz'
      exact ⟨same_congr (hxs x hx) (hv'.item hy) hz hz' hxy hzz,
        ih x hx (hv'.item hy) hz hz' hxy hzz⟩
    | atom => cases w' <;> first | rfl | cases h'
    | map => cases w' <;> first | rfl | cases h'
    | _ => cases hw
  | map =>
    cases v' with
    | map => cases w <;> cases w' <;> rfl
    | _ => cases h
  | _ =>
    cases v' with
    | atom a' =>
      cases w with
      | atom b =>
        cases w' with
        | atom b' => exact beforeAtom?_congr (by constructor) hv' hw hw' h h'
        | _ => cases h'
      | _ => cases w' <;> first | rfl | cases h'
    | _ => cases h

/-- Nothing goes before what it equals. -/
theorem before?_self (hv : v.Unmixed) : before? v v ≠ some true := by
  intro h
  cases hv.compared hv h with
  | numbers ha hb hanswer =>
    cases ha.symm.trans hb
    exact lt_irrefl _ (of_decide_eq_true hanswer.symm)
  | texts hanswer => exact String.lt_irrefl _ (of_decide_eq_true hanswer.symm)
  | @lists xs _ hitems =>
    have hself : ∀ {xs : List Value}, (∀ x ∈ xs, x.Unmixed) → beforeItems? xs xs = some false := by
      intro xs hxs
      induction xs with
      | nil => rfl
      | cons x xs ih =>
        obtain ⟨hx, hxs⟩ := List.forall_mem_cons.mp hxs
        rw [beforeItems?, if_pos hx.same_refl, ih hxs]
    cases (hself fun x hx => hv.item hx).symm.trans hitems

theorem not_same (hv : v.Unmixed) (hw : w.Unmixed) (h : before? v w = some true) :
    v.same w = false := by
  refine Bool.eq_false_iff.mpr fun hsame => hv.before?_self ?_
  rw [before?_congr hv hv hv hw hv.same_refl hsame, h]

theorem same_or_beforeItems? (hitems : ∀ x ∈ xs, x.Unmixed ∧ ∀ y, y.Unmixed →
      before? y x = some false → x.same y = true ∨ before? x y = some true)
    (hys : ∀ y ∈ ys, y.Unmixed) (h : beforeItems? ys xs = some false) :
    List.Forall₂ (fun x y => x.same y = true) xs ys ∨ beforeItems? xs ys = some true := by
  induction xs generalizing ys with
  | nil =>
    cases ys with
    | nil => exact .inl .nil
    | cons => exact .inr rfl
  | cons x xs ih =>
    cases ys with
    | nil => cases h
    | cons y ys =>
      obtain ⟨⟨hx, htotal⟩, hitems⟩ := List.forall_mem_cons.mp hitems
      obtain ⟨hy, hys⟩ := List.forall_mem_cons.mp hys
      rw [beforeItems?] at h ⊢
      by_cases hsame : x.same y = true
      · rw [if_pos (same_symm hx hy hsame)] at h
        rw [if_pos hsame]
        exact (ih hitems hys h).imp_left (.cons hsame)
      · rw [if_neg fun hyx => hsame (same_symm hy hx hyx)] at h
        rw [if_neg hsame]
        exact .inr ((htotal y hy h).resolve_left hsame)

theorem same_or_before?_number {a : Atom} {m : Int} (hv : (Value.atom a).Unmixed)
    (ha : a.number? = some (.int m)) (hw : w.Unmixed) (h : before? w (.atom a) = some false) :
    (Value.atom a).same w = true ∨ before? (.atom a) w = some true := by
  cases hw.compared hv h with
  | @numbers b _ n m hb ha' hanswer =>
    cases ha.symm.trans ha'
    rcases eq_or_lt_of_le (not_lt.mp (of_decide_eq_false hanswer.symm)) with rfl | hlt
    · refine .inl ?_
      change Atom.same a b = true
      unfold Atom.same
      rw [ha, hb]
      exact int_beq_iff.mpr rfl
    · exact .inr ((before?_numbers ha hb).trans (congrArg some (decide_eq_true hlt)))
  | texts => cases ha

/-- The order is total on what it compares. -/
theorem same_or_before? (hv : v.Unmixed) (hw : w.Unmixed) (h : before? w v = some false) :
    v.same w = true ∨ before? v w = some true := by
  induction hv generalizing w with
  | null => cases hw <;> cases h
  | bool b => exact same_or_before?_number (.bool b) rfl hw h
  | int n => exact same_or_before?_number (.int n) rfl hw h
  | str s =>
    cases hw.compared (.str s) h with
    | numbers ha hb => cases hb
    | @texts t _ hanswer =>
      have hle : s ≤ t := String.not_lt.mp (of_decide_eq_false hanswer.symm)
      by_cases hlt : s < t
      · exact .inr (congrArg some (decide_eq_true hlt))
      · rw [String.le_antisymm (String.not_lt.mp hlt) hle]
        exact .inl (Unmixed.str _).same_refl
  | list hxs hequal ih =>
    cases hw.compared (.list hxs hequal) h with
    | lists hitems =>
      exact (same_or_beforeItems? (fun x hx => ⟨hxs x hx, fun y => ih x hx⟩)
        (fun y hy => hw.item hy) hitems).imp_left same_list_iff.mpr
  | map => cases w <;> cases h

theorem beforeItems?_trans (hxs : ∀ x ∈ xs, x.Unmixed) (hys : ∀ y ∈ ys, y.Unmixed)
    (hzs : ∀ z ∈ zs, z.Unmixed) (htrans : ∀ x ∈ xs, ∀ y ∈ ys, ∀ z ∈ zs, before? x y = some true →
      before? y z = some true → before? x z = some true)
    (h : beforeItems? xs ys = some true) (h' : beforeItems? ys zs = some true) :
    beforeItems? xs zs = some true := by
  induction xs generalizing ys zs with
  | nil =>
    cases zs with
    | nil => cases ys <;> cases h'
    | cons => rfl
  | cons x xs ih =>
    cases ys with
    | nil => cases h
    | cons y ys =>
      cases zs with
      | nil => cases h'
      | cons z zs =>
        obtain ⟨hx, hxs⟩ := List.forall_mem_cons.mp hxs
        obtain ⟨hy, hys⟩ := List.forall_mem_cons.mp hys
        obtain ⟨hz, hzs⟩ := List.forall_mem_cons.mp hzs
        rw [beforeItems?] at h h' ⊢
        by_cases hxy : x.same y = true
        · rw [same_congr hx hy hz hz hxy hz.same_refl, before?_congr hx hy hz hz hxy hz.same_refl]
          rw [if_pos hxy] at h
          by_cases hyz : y.same z = true
          · rw [if_pos hyz] at h' ⊢
            exact ih hxs hys hzs (fun x hx y hy z hz => htrans x (List.mem_cons_of_mem _ hx) y
              (List.mem_cons_of_mem _ hy) z (List.mem_cons_of_mem _ hz)) h h'
          · rw [if_neg hyz] at h' ⊢
            exact h'
        · rw [if_neg hxy] at h
          by_cases hyz : y.same z = true
          · have hzy := same_symm hy hz hyz
            rw [same_congr hx hx hz hy hx.same_refl hzy, before?_congr hx hx hz hy hx.same_refl hzy,
              if_neg hxy, h]
          · rw [if_neg hyz] at h'
            have hxz := htrans x List.mem_cons_self y List.mem_cons_self z List.mem_cons_self h h'
            rw [hx.not_same hz hxz, if_neg Bool.false_ne_true, hxz]

theorem before?_trans_atom {a : Atom} (hu : (Value.atom a).Unmixed) (hv : v.Unmixed)
    (hw : w.Unmixed) (h : before? (.atom a) v = some true) (h' : before? v w = some true) :
    before? (.atom a) w = some true := by
  cases hu.compared hv h with
  | numbers ha hb hanswer =>
    cases hv.compared hw h' with
    | numbers hb' hc hanswer' =>
      cases hb.symm.trans hb'
      have hlt := (of_decide_eq_true hanswer.symm).trans (of_decide_eq_true hanswer'.symm)
      exact (before?_numbers ha hc).trans (congrArg some (decide_eq_true hlt))
    | texts => cases hb
  | texts hanswer =>
    cases hv.compared hw h' with
    | numbers hb => cases hb
    | texts hanswer' =>
      have hlt := String.lt_trans (of_decide_eq_true hanswer.symm)
        (of_decide_eq_true hanswer'.symm)
      exact congrArg some (decide_eq_true hlt)

/-- The order is transitive. -/
theorem before?_trans (hu : u.Unmixed) (hv : v.Unmixed) (hw : w.Unmixed)
    (h : before? u v = some true) (h' : before? v w = some true) : before? u w = some true := by
  induction hu generalizing v w with
  | @list xs hxs hequal ih =>
    cases compared (.list hxs hequal) hv h with
    | lists hitems =>
      cases hv.compared hw h' with
      | lists hitems' =>
        exact beforeItems?_trans hxs (fun y hy => hv.item hy) (fun z hz => hw.item hz)
          (fun x hx y hy z hz => ih x hx (hv.item hy) (hw.item hz)) hitems hitems'
  | map => cases v <;> cases h
  | null => exact before?_trans_atom .null hv hw h h'
  | bool b => exact before?_trans_atom (.bool b) hv hw h h'
  | int n => exact before?_trans_atom (.int n) hv hw h h'
  | str s => exact before?_trans_atom (.str s) hv hw h h'

end Unmixed

/-! ## Distinct elements -/

theorem neighboursDistinct_iff :
    neighboursDistinct xs = true ↔ xs.IsChain fun x y => x.sameStrict y = false := by
  induction xs with
  | nil => exact ⟨fun _ => .nil, fun _ => rfl⟩
  | cons x xs ih =>
    cases xs with
    | nil => exact ⟨fun _ => .singleton x, fun _ => rfl⟩
    | cons y xs =>
      rw [neighboursDistinct, Bool.and_eq_true, Bool.not_eq_true', ih, List.isChain_cons_cons]

theorem pairsDistinct_iff_seen {seen : List Value} : pairsDistinct seen xs = true ↔
    (∀ y ∈ seen, ∀ x ∈ xs, y.sameStrict x = false) ∧
      xs.Pairwise fun x y => x.sameStrict y = false := by
  induction xs generalizing seen with
  | nil => exact ⟨fun _ => ⟨fun _ _ => nofun, .nil⟩, fun _ => rfl⟩
  | cons x xs ih =>
    rw [pairsDistinct, Bool.and_eq_true, ih, List.pairwise_cons, Bool.not_eq_true',
      List.any_eq_false]
    simp only [List.forall_mem_append, List.forall_mem_cons, Bool.not_eq_true]
    constructor
    · rintro ⟨hseen, ⟨hrest, hx, _⟩, hxs⟩
      exact ⟨fun y hy => ⟨hseen y hy, hrest y hy⟩, hx, hxs⟩
    · rintro ⟨hseen, hx, hxs⟩
      exact ⟨fun y hy => (hseen y hy).1, ⟨fun y hy => (hseen y hy).2, hx, nofun⟩, hxs⟩

/-- No two elements are strictly equal. -/
theorem pairsDistinct_iff :
    pairsDistinct [] xs = true ↔ xs.Pairwise fun x y => x.sameStrict y = false :=
  pairsDistinct_iff_seen.trans ⟨And.right, fun h => ⟨nofun, h⟩⟩

/-- Data that can be sorted. -/
inductive Comparable : Value → Prop
  | int (n : Int) : Comparable (.int n)
  | str (s : String) : Comparable (.str s)
  | list (xs : List Value) : Comparable (.list xs)

namespace Unmixed

theorem comparable_of_number {a : Atom} {x : Number} (hv : (Value.atom a).Unmixed)
    (ha : a.number? = some x) (hbool : (Value.atom a).isBool = false) :
    (Value.atom a).Comparable := by
  cases hv with
  | int n => exact .int n
  | bool b => cases hbool
  | _ => cases ha

theorem comparable (hv : v.Unmixed) (hw : w.Unmixed) (h : sortOrder v w = .ok answer) :
    (v.Comparable ∧ w.Comparable) ∧ before? v w = some answer := by
  obtain ⟨hbool, hbefore⟩ : (v.isBool || w.isBool) = false ∧ before? v w = some answer := by
    unfold sortOrder at h
    split at h
    · cases h
    · rename_i hbool
      refine ⟨Bool.eq_false_iff.mpr hbool, ?_⟩
      split at h
      · cases h
        assumption
      · cases h
  obtain ⟨hv', hw'⟩ := Bool.or_eq_false_iff.mp hbool
  refine ⟨?_, hbefore⟩
  cases hv.compared hw hbefore with
  | numbers ha hb => exact ⟨hv.comparable_of_number ha hv', hw.comparable_of_number hb hw'⟩
  | texts => exact ⟨.str _, .str _⟩
  | lists => exact ⟨.list _, .list _⟩

/-- Of two neighbours that have been sorted, the first one goes before the second, if they are not
equal. -/
theorem of_precedes (hv : v.Unmixed) (hw : w.Unmixed) (h : RunSort.Precedes sortOrder v w) :
    (v.Comparable ∧ w.Comparable) ∧ (v.same w = true ∨ before? v w = some true) := by
  rcases h with hback | hforth
  · obtain ⟨hcomparable, hbefore⟩ := hw.comparable hv hback
    exact ⟨hcomparable.symm, hv.same_or_before? hw hbefore⟩
  · obtain ⟨hcomparable, hbefore⟩ := hv.comparable hw hforth
    exact ⟨hcomparable, .inr hbefore⟩

/-- Among the elements of a list that can be sorted, equality is strict. -/
theorem sameStrict_eq (h : (Value.list xs).Unmixed) (hmem : v ∈ xs ∧ w ∈ xs)
    (hcomparable : v.Comparable ∧ w.Comparable) : v.sameStrict w = v.same w := by
  obtain ⟨hv, hw⟩ := hcomparable
  cases hv with
  | int m => cases hw <;> rfl
  | str s => cases hw <;> rfl
  | list ys =>
    cases hw with
    | list zs =>
      rw [Bool.eq_iff_iff]
      refine ⟨(h.item hmem.1).isJson.same_of_sameStrict (h.item hmem.2).isJson, fun hsame => ?_⟩
      cases h with
      | list _ hequal => exact hequal ys zs hmem.1 hmem.2 hsame
    | _ => rfl

theorem not_sameStrict (hv : v.Unmixed) (hw : w.Unmixed) (h : v.same w = false) :
    v.sameStrict w = false := by
  refine Bool.eq_false_iff.mpr fun hstrict => ?_
  exact Bool.false_ne_true (h.symm.trans (hv.isJson.same_of_sameStrict hw.isJson hstrict))

/-- In whatever order data are given, the same ones are equal. -/
theorem pairwise_same_perm (hxs : ∀ x ∈ xs, x.Unmixed) (hperm : xs.Perm ys)
    (h : xs.Pairwise fun x y => x.same y = false) : ys.Pairwise fun x y => x.same y = false := by
  have hboth : xs.Pairwise fun x y => x.Unmixed → y.Unmixed → x.same y = false :=
    h.imp fun hxy _ _ => hxy
  have hsymm : ∀ {x y : Value}, (x.Unmixed → y.Unmixed → x.same y = false) →
      y.Unmixed → x.Unmixed → y.same x = false := by
    refine fun hxy hy hx => Bool.eq_false_iff.mpr fun hyx => ?_
    exact Bool.false_ne_true ((hxy hx hy).symm.trans (hy.same_symm hx hyx))
  have hys : ∀ y ∈ ys, y.Unmixed := fun y hy => hxs y (hperm.mem_iff.mpr hy)
  exact ((hperm.pairwise_iff hsymm).mp hboth).imp_of_mem fun hx hy hxy => hxy (hys _ hx) (hys _ hy)

end Unmixed

/-- Where two or more elements stand in a chain, each has a neighbour. -/
theorem forall_of_isChain {α : Type} {R : α → α → Prop} {P : α → Prop} {x y : α} {xs : List α}
    (hR : ∀ x y, R x y → P x ∧ P y) (h : (x :: y :: xs).IsChain R) : ∀ z ∈ x :: y :: xs, P z := by
  induction xs generalizing x y with
  | nil =>
    obtain ⟨hxy, _⟩ := List.isChain_cons_cons.mp h
    exact List.forall_mem_cons.mpr ⟨(hR x y hxy).1,
      List.forall_mem_cons.mpr ⟨(hR x y hxy).2, nofun⟩⟩
  | cons z xs ih =>
    obtain ⟨hxy, hrest⟩ := List.isChain_cons_cons.mp h
    exact List.forall_mem_cons.mpr ⟨(hR x y hxy).1, ih hrest⟩

/-- Data of which the first goes before the second. -/
def Rising (v w : Value) : Prop := (v.Unmixed ∧ w.Unmixed) ∧ before? v w = some true

instance : Trans Rising Rising Rising where
  trans h h' := ⟨⟨h.1.1, h'.1.2⟩, h.1.1.before?_trans h.1.2 h'.1.2 h.2 h'.2⟩

namespace Unmixed

/-- The test for distinct elements compares all pairs of them, as it were. -/
theorem allDistinct_eq (h : (Value.list xs).Unmixed) : allDistinct xs = pairsDistinct [] xs := by
  unfold allDistinct
  split
  · rename_i sorted hrun
    have hperm := RunSort.sortRun?_perm hrun
    have hmem : ∀ x ∈ sorted, x ∈ xs := fun x hx => hperm.mem_iff.mp hx
    have hsorted : ∀ x ∈ sorted, x.Unmixed := fun x hx => h.item (hmem x hx)
    have hchain : sorted.IsChain fun x y => (x.Comparable ∧ y.Comparable) ∧
        (x.same y = true ∨ before? x y = some true) :=
      (RunSort.sortRun?_isChain hrun).imp_of_mem_imp fun x y hx hy hxy =>
        of_precedes (hsorted x hx) (hsorted y hy) hxy
    rw [Bool.eq_iff_iff, neighboursDistinct_iff, pairsDistinct_iff]
    constructor
    · intro hdistinct
      -- Neighbours are not equal, so they rise, and then all elements do.
      have hrises : sorted.IsChain Rising := by
        refine List.isChain_iff_getElem.mpr fun i hi => ?_
        have hx := List.getElem_mem (Nat.lt_of_succ_lt hi)
        have hy := List.getElem_mem hi
        obtain ⟨hcomparable, hor⟩ := List.isChain_iff_getElem.mp hchain i hi
        have hnot := List.isChain_iff_getElem.mp hdistinct i hi
        rw [h.sameStrict_eq ⟨hmem _ hx, hmem _ hy⟩ hcomparable] at hnot
        exact ⟨⟨hsorted _ hx, hsorted _ hy⟩, hor.resolve_left (Bool.eq_false_iff.mp hnot)⟩
      have hnone : sorted.Pairwise fun x y => x.same y = false :=
        hrises.pairwise.imp fun hxy => hxy.1.1.not_same hxy.1.2 hxy.2
      exact (pairwise_same_perm hsorted hperm hnone).imp_of_mem fun hx hy =>
        not_sameStrict (h.item hx) (h.item hy)
    · intro hdistinct
      match sorted, hperm, hsorted, hchain with
      | [], _, _, _ => exact .nil
      | [x], _, _, _ => exact .singleton x
      | x :: y :: rest, hperm, hsorted, hchain =>
        have hcomparable : ∀ z ∈ xs, z.Comparable := fun z hz =>
          forall_of_isChain (fun _ _ hxy => hxy.1) hchain z (hperm.mem_iff.mpr hz)
        have hnone : xs.Pairwise fun x y => x.same y = false :=
          hdistinct.imp_of_mem fun {x y} hx hy hxy =>
            (h.sameStrict_eq ⟨hx, hy⟩ ⟨hcomparable x hx, hcomparable y hy⟩).symm.trans hxy
        have hnone' := pairwise_same_perm (fun x hx => h.item hx) hperm.symm hnone
        exact hnone'.isChain.imp_of_mem_imp fun x y hx hy =>
          not_sameStrict (hsorted x hx) (hsorted y hy)
  · rfl

end Unmixed

end WireShape.Value
