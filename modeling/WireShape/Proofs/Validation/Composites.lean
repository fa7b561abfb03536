import WireShape.Proofs.Validation.Assertions

/-!
# Keywords with schemas in them

Keywords about what is in a mapping or in a list, and keywords with branches. They decide about data
if the schemas in their values do.

* `Checker.required_decides`, `Checker.properties_decides`, `Checker.additionalSchema_decides`: mappings.
* `Checker.items_decides`: lists.
* `Checker.not_decides`, `Checker.oneOf_decides`: one schema that must fail, several of which one
  must hold.
-/

namespace WireShape

open Value (Fields IsJson Shown)

namespace Checker

variable {c : Checker} {x : Value} {p : Prop}

section Composite

variable {schema v : Value} (htypes : schema.NamesTypes) (hx : x.IsJson)
include hx

include htypes in
theorem required_decides {extent : Extent} {fields : Fields}
    (hform : Keyword.Form c.describe .required v) :
    Outcome.Decides x (c.required ⟨.required, schema, x⟩ v extent)
      (c.KeywordHolds fields .required v x) := by
  obtain ⟨keys, rfl, hshown⟩ := hform
  cases x with
  | map es identity =>
    have hall : Outcome.Decides (.map es identity)
        (Outcome.all extent (fun name =>
          .ofStep ((Value.map es identity).holds name) fun present =>
            if present then .valid
            else Site.outcome ⟨.required, schema, .map es identity⟩ do
              return some ((← name.quoted c.describe) ++ " is a required property"))
          (keys.map .atom))
        (∀ name ∈ keys.map Value.atom, ∀ k, name = .atom k → OrderedMap.contains es k = true) := by
      refine Outcome.Decides.all fun name hname => ?_
      obtain ⟨k, hk, rfl⟩ := List.mem_map.mp hname
      obtain ⟨text, htext⟩ := hshown k hk
      have hholds : (Value.map es identity).holds (.atom k) = .ok (OrderedMap.contains es k) := rfl
      rw [hholds]
      have hiff : OrderedMap.contains es k = true ↔
          ∀ k', Value.atom k = .atom k' → OrderedMap.contains es k' = true := by
        constructor
        · rintro htrue k' heq
          cases heq
          exact htrue
        · exact fun hk' => hk' k rfl
      refine Outcome.Decides.iff ?_ hiff
      cases hpresent : OrderedMap.contains es k with
      | true => exact Outcome.decides_valid rfl
      | false =>
        refine outcome_decides htypes (fun hp => absurd hp Bool.false_ne_true) fun _ => ?_
        rw [htext]
        exact ⟨_, rfl⟩
    refine hall.iff ?_
    constructor
    · rintro hnames es' identity' heq keys' hkeys k hk
      cases heq
      have hlist : keys.map Value.atom = keys'.map Value.atom := Value.list.inj hkeys
      exact hnames (.atom k) (hlist ▸ List.mem_map_of_mem hk) k rfl
    · rintro hkeys name hname k rfl
      obtain ⟨k', hk', heq⟩ := List.mem_map.mp hname
      cases heq
      exact hkeys es identity rfl keys rfl k hk'
  | _ => exact Outcome.decides_valid fun _ _ heq => by cases heq

/-- The outcome of a check for what is found under a key. -/
def foundOutcome (k : Atom) (judge : Value → Outcome) : Option Value → Outcome
  | some v => (judge v).under k
  | none => .valid

omit hx in
theorem mapFields_eq {props : Fields} : c.mapFields props = props.map fun p => (p.1, c.schema p.2) := by
  induction props with
  | nil => rfl
  | cons p props ih => rw [mapFields, ih, List.map_cons]

theorem properties_decides {extent : Extent} {fields props : Fields} {identity : Option Nat}
    (hprops : ∀ p ∈ props, ∀ y, y.IsJson → Outcome.Decides y (c.schema p.2 extent y) (c.Accepts p.2 y)) :
    Outcome.Decides x (properties (c.fieldsOf (.map props identity)) extent x)
      (c.KeywordHolds fields .properties (.map props identity) x) := by
  have hfields : c.fieldsOf (.map props identity) = .ok (props.map fun p => (p.1, c.schema p.2)) := by
    rw [fieldsOf, mapFields_eq]
  rw [hfields]
  cases x with
  | map es identity' =>
    change Outcome.Decides _ (Outcome.all extent (fun f : Atom × Check =>
      foundOutcome f.1 (f.2 extent) (OrderedMap.get? es f.1)) (props.map fun p => (p.1, c.schema p.2))) _
    rw [Outcome.all_map]
    have hall : Outcome.Decides (.map es identity') (Outcome.all extent (fun p : Atom × Value =>
        foundOutcome p.1 (c.schema p.2 extent) (OrderedMap.get? es p.1)) props)
        (∀ p ∈ props, ∀ y, OrderedMap.get? es p.1 = some y → c.Accepts p.2 y) := by
      refine Outcome.Decides.all fun p hp => ?_
      cases hget : OrderedMap.get? es p.1 with
      | none => exact Outcome.decides_valid fun _ hy => by cases hy
      | some y =>
        obtain ⟨hmem, s, hs⟩ := hx.mem_of_get? hget
        have hy : Outcome.Decides y (c.schema p.2 extent y) (c.Accepts p.2 y) :=
          hprops p hp y (hx.entry hmem).1
        have hnull : p.1 ≠ .null := fun hnull => by
          rw [hs] at hnull
          cases hnull
        refine (hy.under hnull fun _ _ hpath => .field hmem hpath).iff ?_
        constructor
        · rintro haccepts _ hfound
          cases hfound
          exact haccepts
        · exact fun hfound => hfound y rfl
    refine hall.iff ?_
    constructor
    · rintro hprops es' _ heq props' _ heq'
      cases heq
      cases heq'
      exact hprops
    · exact fun hholds => hholds es identity' rfl props identity rfl
  | _ => exact Outcome.decides_valid fun _ _ heq => by cases heq

omit hx in
theorem filterM_ok {α : Type} {ask : α → Except Fault Bool} {test : α → Bool} {xs : List α}
    (hask : ∀ a ∈ xs, ask a = .ok (test a)) : xs.filterM ask = .ok (xs.filter test) := by
  have hfrom : ∀ (xs kept : List α), (∀ a ∈ xs, ask a = .ok (test a)) →
      xs.filterAuxM ask kept = .ok ((xs.filter test).reverse ++ kept) := by
    intro xs
    induction xs with
    | nil => exact fun _ _ => rfl
    | cons a xs ih =>
      intro kept hask
      have hrest := fun kept => ih kept fun b hb => hask b (List.mem_cons_of_mem _ hb)
      rw [List.filterAuxM, List.filter_cons, hask a List.mem_cons_self]
      simp only [bind, Except.bind, hrest]
      cases test a with
      | true => simp
      | false => simp
  unfold List.filterM
  rw [hfrom xs [] hask]
  simp [bind, Except.bind, pure, Except.pure]

omit hx in
/-- Keys that are not described can be told. -/
theorem refuseExtra_ok {keys : List Atom} (hkeys : ∀ k ∈ keys, ∃ s, k = .str s) (hsome : keys ≠ []) :
    ∃ message, c.refuseExtra keys = .ok (some message) := by
  have hempty : keys.isEmpty = false := by
    rw [Bool.eq_false_iff, ne_eq, List.isEmpty_iff]
    exact hsome
  have hdisplay : ∀ k ∈ keys, ∃ p : String × Atom,
      (do return (← k.display c.describe, k) : Except Fault (String × Atom)) = .ok p := by
    intro k hk
    obtain ⟨s, rfl⟩ := hkeys k hk
    exact ⟨_, rfl⟩
  obtain ⟨shown, hshown, hall⟩ := mapM_ok hdisplay
  have htext : ∀ p ∈ shown, ∃ s, p.2 = .str s := by
    intro p hp
    obtain ⟨k, hk, hpair⟩ := forall₂_right hall hp
    obtain ⟨s, rfl⟩ := hkeys k hk
    cases hpair
    exact ⟨s, rfl⟩
  have hsorted : ∃ sorted : List Atom, c.sortKeys keys = .ok sorted ∧
      ∀ k ∈ sorted, ∃ s, k = .str s := by
    unfold sortKeys
    rw [hshown]
    refine ⟨_, rfl, fun k hk => ?_⟩
    obtain ⟨p, hp, rfl⟩ := List.mem_map.mp hk
    exact htext p (RunSort.sortRun_perm.mem_iff.mp hp)
  obtain ⟨sorted, hsorted, htexts⟩ := hsorted
  have hquoted : ∀ k ∈ sorted, ∃ text, k.quoted c.describe = .ok text := by
    intro k hk
    obtain ⟨s, rfl⟩ := htexts k hk
    exact ⟨_, rfl⟩
  obtain ⟨texts, htexts, _⟩ := mapM_ok hquoted
  unfold refuseExtra
  simp only [hempty, Bool.false_eq_true, ↓reduceIte, hsorted, htexts, bind, Except.bind, pure,
    Except.pure]
  exact ⟨_, rfl⟩

omit hx in
/-- The keys that a schema does not describe. -/
theorem extraKeys_eq {props es : OrderedMap Atom Value} {identity : Option Nat}
    (hprops : (schema.field? "properties").getD (.ofEntries []) = .map props identity) :
    extraKeys schema es =
      .ok ((OrderedMap.keys es).filter fun key => !OrderedMap.contains props key) := by
  unfold extraKeys
  dsimp only
  rw [hprops]
  exact filterM_ok fun _ _ => rfl

include htypes in
theorem additionalProperties_decides {extent : Extent} {part : Part} (hpart : part.value = .bool false)
    (hschema : ((schema.field? "properties").getD (.ofEntries [])).isMap = true) {fields : Fields}
    (hfields : OrderedMap.get? fields (.str "properties") = schema.field? "properties") :
    Outcome.Decides x (c.additionalProperties ⟨.additionalProperties, schema, x⟩ part extent)
      (c.KeywordHolds fields .additionalProperties (.bool false) x) := by
  cases x with
  | map es identity =>
    cases hprops : (schema.field? "properties").getD (.ofEntries []) with
    | map props identity' =>
      have hextra := @extraKeys_eq schema props es _ hprops
      have hholds : c.KeywordHolds fields .additionalProperties (.bool false) (.map es identity) ↔
          ((OrderedMap.keys es).filter fun key => !OrderedMap.contains props key) = [] := by
        rw [List.filter_eq_nil_iff]
        constructor
        · intro hall key hkey
          obtain ⟨e, he, rfl⟩ := List.mem_map.mp hkey
          rcases hall es identity rfl props identity' (hfields ▸ hprops) e he with
            hcontains | ⟨hmap, _⟩
          · rw [hcontains]
            exact Bool.false_ne_true
          · cases hmap
        · rintro hall es' _ heq props' identity'' heq' e he
          cases heq
          rw [hfields, hprops] at heq'
          cases heq'
          have hnot := hall e.1 (List.mem_map_of_mem he)
          rw [Bool.not_eq_true', Bool.not_eq_false] at hnot
          exact .inl hnot
      have hstep : c.additionalProperties ⟨.additionalProperties, schema, .map es identity⟩ part
          extent = Site.outcome ⟨.additionalProperties, schema, .map es identity⟩ (c.refuseExtra
            ((OrderedMap.keys es).filter fun key => !OrderedMap.contains props key)) := by
        unfold additionalProperties
        dsimp only [entriesOf?]
        rw [hextra, hpart]
        rfl
      rw [hstep]
      refine outcome_decides htypes (fun hp => ?_) fun hp => ?_
      · rw [hholds.mp hp]
        rfl
      · refine refuseExtra_ok (fun k hk => ?_) fun hempty => hp (hholds.mpr hempty)
        obtain ⟨e, he, rfl⟩ := List.mem_map.mp (List.mem_of_mem_filter hk)
        exact (hx.entry he).2
    | _ =>
      rw [hprops] at hschema
      cases hschema
  | _ => exact Outcome.decides_valid fun _ _ heq => by cases heq

/-- What stands under keys that are not described must satisfy a schema. -/
theorem additionalSchema_decides {extent : Extent} {part : Part} (hpart : part.value = v)
    (hmap : v.isMap = true) (hcheck : part.check = c.schema v)
    (hschema : ((schema.field? "properties").getD (.ofEntries [])).isMap = true) {fields : Fields}
    (hfields : OrderedMap.get? fields (.str "properties") = schema.field? "properties")
    (hentry : ∀ y, y.IsJson → Outcome.Decides y (c.schema v extent y) (c.Accepts v y)) :
    Outcome.Decides x (c.additionalProperties ⟨.additionalProperties, schema, x⟩ part extent)
      (c.KeywordHolds fields .additionalProperties v x) := by
  cases x with
  | map es identity =>
    cases hprops : (schema.field? "properties").getD (.ofEntries []) with
    | map props identity' =>
      have hextra := @extraKeys_eq schema props es _ hprops
      -- Under each key of the datum there stands what is found under it.
      have hfound : ∀ e ∈ es, (∃ s, e.1 = .str s) ∧ OrderedMap.getD es e.1 .null = e.2 := by
        intro e he
        obtain ⟨s, hs⟩ := (hx.entry he).2
        refine ⟨⟨s, hs⟩, ?_⟩
        cases hx with
        | map _ hseparate _ =>
          unfold OrderedMap.getD
          rw [hseparate.get? he (by rw [hs]; exact Atom.beq_str_iff.mpr rfl)]
          rfl
      have hstep : c.additionalProperties ⟨.additionalProperties, schema, .map es identity⟩ part
          extent = Outcome.all extent (fun key =>
            (c.schema v extent (OrderedMap.getD es key .null)).under key)
              ((OrderedMap.keys es).filter fun key => !OrderedMap.contains props key) := by
        unfold additionalProperties
        dsimp only [entriesOf?]
        rw [hextra]
        change (if part.value.isMap then _ else _ : Outcome) = _
        rw [hpart, hmap, hcheck]
        rfl
      rw [hstep]
      have hall : Outcome.Decides (.map es identity) (Outcome.all extent (fun key =>
          (c.schema v extent (OrderedMap.getD es key .null)).under key)
            ((OrderedMap.keys es).filter fun key => !OrderedMap.contains props key))
          (∀ key ∈ (OrderedMap.keys es).filter fun key => !OrderedMap.contains props key,
            c.Accepts v (OrderedMap.getD es key .null)) := by
        refine Outcome.Decides.all fun key hkey => ?_
        obtain ⟨e, he, rfl⟩ := List.mem_map.mp (List.mem_of_mem_filter hkey)
        obtain ⟨⟨s, hs⟩, hget⟩ := hfound e he
        rw [hget]
        refine (hentry e.2 (hx.entry he).1).under ?_ fun _ _ hpath => .field he hpath
        rw [hs]
        exact nofun
      refine hall.iff ⟨?_, fun hholds key hkey => ?_⟩
      · rintro haccepts es' _ ⟨⟩ props' identity'' heq e he
        rw [hfields, hprops] at heq
        cases heq
        cases hcontains : OrderedMap.contains props e.1 with
        | true => exact .inl rfl
        | false =>
          refine .inr ⟨hmap, ?_⟩
          have haccept := haccepts e.1 (List.mem_filter.mpr ⟨List.mem_map_of_mem he, by
            rw [hcontains]
            rfl⟩)
          rwa [(hfound e he).2] at haccept
      · obtain ⟨hmem, hnot⟩ := List.mem_filter.mp hkey
        obtain ⟨e, he, rfl⟩ := List.mem_map.mp hmem
        rw [(hfound e he).2]
        rcases hholds es identity rfl props identity' (hfields ▸ hprops) e he with
          hcontains | ⟨_, haccepts⟩
        · rw [hcontains] at hnot
          cases hnot
        · exact haccepts
    | _ =>
      rw [hprops] at hschema
      cases hschema
  | _ => exact Outcome.decides_valid fun _ _ heq => by cases heq

omit hx in
theorem itemsFrom_decides {extent : Extent} {all xs : List Value} {index : Nat} {check : Check}
    {P : Value → Prop} (hall : ∀ i y, xs[i]? = some y → all[index + i]? = some y)
    (hcheck : ∀ y ∈ xs, Outcome.Decides y (check extent y) (P y)) :
    Outcome.Decides (.list all) (itemsFrom check extent index xs) (∀ y ∈ xs, P y) := by
  induction xs generalizing index with
  | nil => exact Outcome.decides_valid fun _ hy => by cases hy
  | cons y xs ih =>
    have hy : Outcome.Decides (.list all) ((check extent y).under (.int index)) (P y) := by
      refine (hcheck y List.mem_cons_self).under (by simp) fun _ _ hpath => ?_
      exact .item (hall 0 y rfl) hpath
    have hrest : Outcome.Decides (.list all) (itemsFrom check extent (index + 1) xs)
        (∀ y ∈ xs, P y) := by
      refine ih (fun i z hz => ?_) fun z hz => hcheck z (List.mem_cons_of_mem _ hz)
      have hshift := hall (i + 1) z hz
      rwa [Nat.add_comm i 1, ← Nat.add_assoc] at hshift
    exact (hy.andThen hrest).iff List.forall_mem_cons.symm

theorem items_decides {extent : Extent} {part : Part} {fields : Fields} (hform : v.isMap = true)
    (hpart : part.value = v) (hcheck : part.check = c.schema v)
    (hitem : ∀ y, y.IsJson → Outcome.Decides y (c.schema v extent y) (c.Accepts v y)) :
    Outcome.Decides x (c.items ⟨.items, schema, x⟩ part extent) (c.KeywordHolds fields .items v x) := by
  have hnot : part.value.isFalse = false := by
    rw [hpart]
    cases v with
    | map => rfl
    | _ => cases hform
  cases x with
  | list xs =>
    have hfrom : Outcome.Decides (.list xs) (itemsFrom part.check extent 0 xs)
        (∀ y ∈ xs, c.Accepts v y) := by
      rw [hcheck]
      exact itemsFrom_decides (fun i y hy => by rwa [Nat.zero_add])
        fun y hy => hitem y (hx.item hy)
    have hitems : c.items ⟨.items, schema, .list xs⟩ part extent = itemsFrom part.check extent 0 xs := by
      cases xs with
      | nil => rfl
      | cons y xs =>
        unfold items
        dsimp only
        rw [hnot, if_neg Bool.false_ne_true]
    rw [hitems]
    refine hfrom.iff ?_
    constructor
    · rintro hall ys heq
      cases heq
      exact hall
    · exact fun hholds => hholds xs rfl
  | _ => exact Outcome.decides_valid fun _ heq => by cases heq

include htypes in
theorem not_decides {part : Part} {fields : Fields} (hform : Keyword.Form c.describe .not v)
    (hpart : part.value = v) (hcheck : part.check = c.schema v)
    (hinner : Outcome.Decides x (c.schema v .first x) (c.Accepts v x)) :
    Outcome.Decides x (Site.outcome ⟨.not, schema, x⟩ (c.not part x))
      (c.KeywordHolds fields .not v x) := by
  obtain ⟨b, hb, hiff⟩ := hinner.holds
  have hadmits : admits part.value part.check x = .ok b := by
    rw [hpart, hcheck]
    unfold admits
    cases v with
    | map => exact hb
    | _ => cases hform.1
  refine outcome_decides htypes (fun hp => ?_) fun hp => ?_
  · have hfalse : b = false := Bool.eq_false_iff.mpr fun htrue => hp (hiff.mp htrue)
    unfold Checker.not
    simp only [hadmits, bind, Except.bind, hfalse, Bool.false_eq_true, ↓reduceIte]
    rfl
  · have htrue : b = true := hiff.mpr (by_contra hp)
    obtain ⟨text, htext⟩ := hform.2
    unfold Checker.not
    rw [hpart] at hadmits ⊢
    simp only [hadmits, bind, Except.bind, htrue, ↓reduceIte, htext]
    exact refuse_ok hx.shown

/-! ## Branches -/

omit hx in
theorem listMembers_eq {xs : List Value} :
    c.listMembers xs = xs.map fun s => (s, c.schema s) := by
  induction xs with
  | nil => rfl
  | cons s xs ih => rw [listMembers, ih, List.map_cons]

omit hx in
/-- Branches are tried up to the first one that accepts a datum. -/
theorem tryBranches_cases {xs : List Value}
    (hxs : ∀ s ∈ xs, Outcome.Decides x (c.schema s .full x) (c.Accepts s x)) :
    (∃ context, tryBranches x (c.listMembers xs) = .ok (.refused context) ∧
      (∀ s ∈ xs, ¬ c.Accepts s x) ∧ ∀ w ∈ context, w.Clear x) ∨
    ∃ before s after, xs = before ++ s :: after ∧
      tryBranches x (c.listMembers xs) = .ok (.found s (c.listMembers after)) ∧ c.Accepts s x ∧
        ∀ t ∈ before, ¬ c.Accepts t x := by
  induction xs with
  | nil => exact .inl ⟨[], rfl, fun _ hs => (by cases hs), fun _ hw => (by cases hw)⟩
  | cons s xs ih =>
    have hs := hxs s List.mem_cons_self
    have hviolations : (c.schema s .full x).toExcept = .ok (c.schema s .full x).violations := by
      unfold Outcome.toExcept
      rw [hs.fault]
    rw [listMembers, tryBranches]
    simp only [hviolations, bind, Except.bind]
    by_cases haccepts : c.Accepts s x
    · have hempty : (c.schema s .full x).violations.isEmpty = true :=
        List.isEmpty_iff.mpr haccepts
      rw [hempty]
      exact .inr ⟨[], s, xs, rfl, rfl, haccepts, fun _ ht => by cases ht⟩
    · have hsome : (c.schema s .full x).violations.isEmpty = false :=
        List.isEmpty_eq_false_iff.mpr haccepts
      rw [hsome]
      rcases ih fun t ht => hxs t (List.mem_cons_of_mem _ ht) with
        ⟨context, htry, hnone, hclear⟩ | ⟨before, t, after, rfl, htry, ht, hbefore⟩
      · rw [htry]
        refine .inl ⟨_, rfl, List.forall_mem_cons.mpr ⟨haccepts, hnone⟩, fun w hw => ?_⟩
        exact (List.mem_append.mp hw).elim (hs.clear w) (hclear w)
      · rw [htry]
        exact .inr ⟨s :: before, t, after, rfl, rfl, ht,
          List.forall_mem_cons.mpr ⟨haccepts, hbefore⟩⟩

omit hx in
/-- The branches after the first one that accept a datum as well. -/
theorem furtherBranches_ok {xs : List Value} (hmaps : ∀ s ∈ xs, s.isMap = true)
    (hxs : ∀ s ∈ xs, Outcome.Decides x (c.schema s .first x) (c.Accepts s x)) :
    ∃ further : List (Value × Check),
      (c.listMembers xs).filterM (fun (s, check) => admits s check x) = .ok further ∧
        (∀ p ∈ further, p.1 ∈ xs) ∧ (further = [] ↔ ∀ s ∈ xs, ¬ c.Accepts s x) := by
  rw [listMembers_eq]
  have hask : ∀ p ∈ xs.map fun s => (s, c.schema s), admits p.1 p.2 x =
      .ok ((fun p : Value × Check => (p.2 .first x).violations.isEmpty) p) := by
    intro p hp
    obtain ⟨s, hs, rfl⟩ := List.mem_map.mp hp
    obtain ⟨b, hb, hiff⟩ := (hxs s hs).holds
    have hadmits : admits s (c.schema s) x = (c.schema s .first x).holds := by
      cases s with
      | map => rfl
      | _ => cases hmaps _ hs
    rw [hadmits, hb]
    congr 1
    rw [Bool.eq_iff_iff, hiff, List.isEmpty_iff]
    exact (hxs s hs).empty.symm
  refine ⟨_, filterM_ok hask, fun p hp => ?_, ?_⟩
  · obtain ⟨s, hs, rfl⟩ := List.mem_map.mp (List.mem_of_mem_filter hp)
    exact hs
  · rw [List.filter_eq_nil_iff]
    constructor
    · intro hall s hs haccepts
      exact hall _ (List.mem_map_of_mem hs) (List.isEmpty_iff.mpr ((hxs s hs).empty.mpr haccepts))
    · rintro hnone _ hp hempty
      obtain ⟨s, hs, rfl⟩ := List.mem_map.mp hp
      exact hnone s hs ((hxs s hs).empty.mp (List.isEmpty_iff.mp hempty))

include htypes in
theorem oneOf_decides {part : Part} {fields : Fields} (hform : Keyword.Form c.describe .oneOf v)
    (hpart : part.members = c.membersOf v)
    (hbranch : ∀ xs, v = .list xs → ∀ s ∈ xs, ∀ extent,
      Outcome.Decides x (c.schema s extent x) (c.Accepts s x)) :
    Outcome.Decides x (c.oneOf ⟨.oneOf, schema, x⟩ part) (c.KeywordHolds fields .oneOf v x) := by
  obtain ⟨xs, rfl, hforms⟩ := hform
  have hxs := hbranch xs rfl
  have hholds : c.KeywordHolds fields .oneOf (.list xs) x ↔ ExactlyOne (fun s => c.Accepts s x) xs :=
    ⟨fun hall => hall xs rfl, fun hone _ heq => (Value.list.inj heq) ▸ hone⟩
  have hmembers : part.members = .ok (c.listMembers xs) := by rw [hpart, membersOf]
  refine Outcome.Decides.iff ?_ hholds.symm
  unfold oneOf
  rw [hmembers]
  change Outcome.Decides x (.ofStep (tryBranches x (c.listMembers xs)) _) _
  rcases tryBranches_cases fun s hs => hxs s hs .full with
    ⟨context, htry, hnone, hclear⟩ | ⟨before, s, after, rfl, htry, hs, hbefore⟩
  · rw [htry]
    obtain ⟨message, hmessage⟩ := @refuse_ok x c.describe hx.shown
      "is not valid under any of the given schemas"
    change Outcome.Decides x (c.refuseBranches ⟨.oneOf, schema, x⟩ context) _
    unfold refuseBranches
    rw [hmessage]
    refine Outcome.decides_single (.intro .here htypes hclear) ?_
    rintro ⟨before, s, after, rfl, hs, _⟩
    exact hnone s (List.mem_append_right _ List.mem_cons_self) hs
  · have hafter : ∀ t ∈ after, t ∈ before ++ s :: after := fun t ht =>
      List.mem_append_right _ (List.mem_cons_of_mem _ ht)
    obtain ⟨further, hfurther, hmem, hempty⟩ := furtherBranches_ok
      (fun t ht => (hforms t (hafter t ht)).1) fun t ht => hxs t (hafter t ht) .first
    rw [htry]
    change Outcome.Decides x (Site.outcome _ _) _
    rw [hfurther]
    change Outcome.Decides x (Site.outcome _ (c.refuseFurther x s (further.map (·.1)))) _
    have hdecides : Outcome.Decides x
        (Site.outcome ⟨.oneOf, schema, x⟩ (c.refuseFurther x s (further.map (·.1))))
        (∀ t ∈ after, ¬ c.Accepts t x) := by
      refine outcome_decides htypes (fun hp => ?_) fun hp => ?_
      · rw [hempty.mpr hp]
        rfl
      · have hsome : (further.map (·.1)).isEmpty = false :=
          List.isEmpty_eq_false_iff.mpr fun hnil => hp (hempty.mp (List.map_eq_nil_iff.mp hnil))
        have hshown : ∀ t ∈ further.map (·.1) ++ [s], t.Shown c.describe := by
          intro t ht
          rcases List.mem_append.mp ht with ht | ht
          · obtain ⟨p, hp, rfl⟩ := List.mem_map.mp ht
            exact (hforms _ (hafter _ (hmem p hp))).2
          · obtain rfl := List.mem_singleton.mp ht
            exact (hforms _ (List.mem_append_right _ List.mem_cons_self)).2
        obtain ⟨texts, htexts⟩ := Value.quotedItems_ok hshown
        unfold refuseFurther
        simp only [hsome, Bool.false_eq_true, ↓reduceIte, htexts, bind, Except.bind]
        exact refuse_ok hx.shown
    refine hdecides.iff ⟨fun hnone => ⟨before, s, after, rfl, hs, hbefore, hnone⟩, ?_⟩
    -- The member with the property is the first one that accepts the datum.
    rintro ⟨before', s', after', heq, hs', hbefore', hafter'⟩ t ht haccepts
    rcases List.append_eq_append_iff.mp heq with ⟨more, rfl, hmore⟩ | ⟨more, rfl, hmore⟩
    · cases more with
      | nil =>
        cases hmore
        exact hafter' t ht haccepts
      | cons u more =>
        cases hmore
        exact hbefore' s (List.mem_append_right _ List.mem_cons_self) hs
    · cases more with
      | nil =>
        cases hmore
        exact hafter' t ht haccepts
      | cons u more =>
        cases hmore
        exact hbefore s' (List.mem_append_right _ List.mem_cons_self) hs'

end Composite

end Checker

end WireShape
