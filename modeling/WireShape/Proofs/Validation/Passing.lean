import WireShape.Proofs.Validation.Refusals

/-!
# Data that pass

A datum passes a check that finds no violation and that no fault ends. Of checks one after another it
has to pass each, however far they go; so it passes a schema exactly if it passes every keyword of the
schema, and nothing is reported about it exactly if it passes.

* `Outcome.Passes`: outcomes that let a datum pass.
* `Checker.LetsThrough`: branches that let a datum through.
* `Checker.passes_schema_iff`: a datum passes a schema exactly if it passes its keywords.
* `Checker.passes_branches_iff`: a datum passes branches exactly if they let it through.
* `Validator.error_eq_none_iff`: nothing is reported about data that pass.
-/

namespace WireShape

open Value (Fields)
open NullTypes (Tidy)

namespace Outcome

/-- No violation is found, and no fault ends the check. -/
def Passes (o : Outcome) : Prop := o.violations = [] ∧ o.fault = none

variable {o : Outcome} {extent : Extent}

theorem not_refuses_iff : ¬ o.Refuses ↔ o.Passes := by
  unfold Refuses Passes
  rw [not_or, not_not, not_not]

theorem passes_valid : valid.Passes := ⟨rfl, rfl⟩

theorem not_passes_failed {fault : Fault} : ¬ (failed fault).Passes := fun h => nomatch h.2

theorem not_passes_single {v : Violation} : ¬ (single v).Passes := fun h => nomatch h.1

theorem passes_andThen_iff {next : Unit → Outcome} :
    (o.andThen extent next).Passes ↔ o.Passes ∧ (next ()).Passes := by
  unfold andThen
  by_cases hdone : o.isDone extent = true
  · have hnot : ¬ o.Passes := by
      rintro ⟨hviolations, hfault⟩
      unfold isDone at hdone
      rw [hviolations, hfault] at hdone
      simp at hdone
    rw [if_pos hdone]
    exact iff_of_false hnot fun h => hnot h.1
  · rw [if_neg hdone]
    have hfault : o.fault = none := by
      unfold isDone at hdone
      rw [Bool.or_eq_true, not_or] at hdone
      exact Option.not_isSome_iff_eq_none.mp hdone.1
    unfold Passes
    rw [List.append_eq_nil_iff, hfault]
    tauto

theorem passes_all_iff {α : Type} {check : α → Outcome} {xs : List α} :
    (Outcome.all extent check xs).Passes ↔ ∀ x ∈ xs, (check x).Passes := by
  induction xs with
  | nil => exact iff_of_true passes_valid nofun
  | cons x xs ih => rw [Outcome.all, passes_andThen_iff, ih, List.forall_mem_cons]

theorem passes_under_iff {key : Atom} : (o.under key).Passes ↔ o.Passes := by
  unfold Passes under
  split
  · rfl
  · rw [List.map_eq_nil_iff]

theorem passes_ofStep_iff {α : Type} {step : Except Fault α} {next : α → Outcome} :
    (ofStep step next).Passes ↔ ∃ a, step = .ok a ∧ (next a).Passes := by
  cases step with
  | error fault => exact iff_of_false not_passes_failed fun ⟨_, h, _⟩ => nomatch h
  | ok a =>
    refine ⟨fun h => ⟨a, rfl, h⟩, ?_⟩
    rintro ⟨_, ⟨⟩, h⟩
    exact h

end Outcome

/-- Nothing is reported about data that pass the check. -/
theorem Validator.error_eq_none_iff {validator : Validator} {x : Value} :
    validator.error x = .ok none ↔ (validator.check x).Passes := by
  constructor
  · exact fun h => Outcome.not_refuses_iff.mp fun hrefuses => error_ne_none hrefuses h
  · rintro ⟨hviolations, hfault⟩
    unfold Validator.error Outcome.toExcept
    dsimp only
    rw [hviolations, hfault]
    rfl

/-! ## Keywords -/

namespace Checker

variable {c : Checker} {extent : Extent} {x : Value} {fields : Fields} {identity : Option Nat}

theorem passes_outcome_iff {site : Site} {refusal : Assertion.Refusal} :
    (site.outcome refusal).Passes ↔ refusal = .ok none := by
  unfold Site.outcome
  rw [Outcome.passes_ofStep_iff]
  constructor
  · rintro ⟨message, hmessage, hpasses⟩
    cases message with
    | none => exact hmessage
    | some text => exact absurd hpasses Outcome.not_passes_single
  · exact fun h => ⟨none, h, Outcome.passes_valid⟩

/-- A datum passes a schema exactly if it passes the keywords of the schema. -/
theorem passes_schema_iff (htidy : Tidy fields) :
    (c.schema (.map fields identity) extent x).Passes ↔
      ∀ (kw : Keyword) v, OrderedMap.get? fields (.str kw.name) = some v →
        (c.keyword kw (.map fields identity) (c.partOf v) extent x).Passes := by
  rw [schema, parts_eq, Outcome.all_map, Outcome.passes_all_iff]
  constructor
  · intro h kw v hv
    obtain ⟨k, hmem, hk⟩ := OrderedMap.mem_of_get? hv
    obtain rfl := Atom.beq_str_iff.mp hk
    have hentry := h _ hmem
    unfold entry at hentry
    dsimp only at hentry
    rwa [Keyword.ofName?_name] at hentry
  · rintro h ⟨k, v⟩ he
    obtain ⟨name, rfl⟩ := htidy.text _ he
    have hget := htidy.separate.get? he (Atom.beq_str_iff.mpr rfl)
    unfold entry
    dsimp only
    cases hname : Keyword.ofName? name with
    | none => exact Outcome.passes_valid
    | some kw =>
      obtain rfl := Keyword.eq_name_of_ofName? hname
      exact h kw v hget

theorem passes_properties_iff {props es : Fields} {identity' : Option Nat} :
    (properties (c.fieldsOf (.map props identity)) extent (.map es identity')).Passes ↔
      ∀ p ∈ props, ∀ v, OrderedMap.get? es p.1 = some v → (c.schema p.2 extent v).Passes := by
  rw [fieldsOf, mapFields_eq]
  change (Outcome.all extent (fun f : Atom × Check =>
    foundOutcome f.1 (f.2 extent) (OrderedMap.get? es f.1)) _).Passes ↔ _
  rw [Outcome.all_map, Outcome.passes_all_iff]
  refine forall₂_congr fun p _ => ?_
  cases hget : OrderedMap.get? es p.1 with
  | none => exact iff_of_true Outcome.passes_valid nofun
  | some v =>
    refine Outcome.passes_under_iff.trans ⟨?_, fun h => h v rfl⟩
    rintro h _ ⟨⟩
    exact h

theorem passes_itemsFrom_iff {check : Check} {xs : List Value} {index : Nat} :
    (itemsFrom check extent index xs).Passes ↔ ∀ x ∈ xs, (check extent x).Passes := by
  induction xs generalizing index with
  | nil => exact iff_of_true Outcome.passes_valid nofun
  | cons x xs ih =>
    rw [itemsFrom, Outcome.passes_andThen_iff, Outcome.passes_under_iff, ih, List.forall_mem_cons]

/-- A list passes the check of its elements exactly if each of them passes. -/
theorem passes_items_iff {schema v : Value} {xs : List Value} (hv : v.isFalse = false) :
    (c.items ⟨.items, schema, .list xs⟩ (c.partOf v) extent).Passes ↔
      ∀ x ∈ xs, (c.schema v extent x).Passes := by
  cases xs with
  | nil => exact iff_of_true Outcome.passes_valid nofun
  | cons x xs =>
    change (if v.isFalse = true then _ else itemsFrom (c.schema v) extent 0 (x :: xs)).Passes ↔ _
    rw [hv, if_neg Bool.false_ne_true, passes_itemsFrom_iff]

end Checker

theorem Assertion.refuse_ne_none {describe : Describe} {x : Value} {phrase : String} :
    Assertion.refuse describe x phrase ≠ .ok none := by
  intro h
  obtain ⟨_, _, hpure⟩ := bind_eq_ok_iff.mp h
  cases hpure

/-- A datum that is not refused for its type is of one of the listed types. -/
theorem Assertion.type_eq_none {describe : Describe} {listed x : Value}
    (h : Assertion.type describe listed x = .ok none) : ∃ names,
      Assertion.listedTypes listed = .ok names ∧
        names.anyM (fun name => Assertion.fitsType name x) = .ok true := by
  obtain ⟨names, hnames, hrest⟩ := bind_eq_ok_iff.mp h
  obtain ⟨fits, hfits, hrest⟩ := bind_eq_ok_iff.mp hrest
  cases fits with
  | true => exact ⟨names, hnames, hfits⟩
  | false =>
    obtain ⟨shown, _, hrefuse⟩ := bind_eq_ok_iff.mp hrest
    exact absurd hrefuse refuse_ne_none

/-! ## Branches -/

/-- A check that finds a violation and that no fault ends. -/
def Outcome.Rejects (o : Outcome) : Prop := o.violations ≠ [] ∧ o.fault = none

/-- The keywords under which branches stand. -/
def Keyword.IsBranching (kw : Keyword) : Prop := kw = .anyOf ∨ kw = .oneOf ∨ kw = .allOf

namespace Checker

variable {c : Checker} {x : Value} {extent : Extent}

/-- The first schema that a datum passes, with the schemas after it. It is rejected by all before. -/
inductive FirstPassed (c : Checker) (x : Value) : List Value → Value → List Value → Prop
  | here {s : Value} {rest : List Value} (hs : (c.schema s .full x).Passes) :
      FirstPassed c x (s :: rest) s rest
  | there {s t : Value} {rest after : List Value} (hs : (c.schema s .full x).Rejects)
      (hrest : FirstPassed c x rest t after) : FirstPassed c x (s :: rest) t after

/-- Branches let a datum through: some branch under `anyOf`, one and no other under `oneOf`, and
every branch under `allOf`. -/
def LetsThrough (c : Checker) (kw : Keyword) (xs : List Value) (extent : Extent) (x : Value) :
    Prop :=
  match kw with
  | .allOf => ∀ s ∈ xs, (c.schema s extent x).Passes
  | .oneOf => ∃ s after, c.FirstPassed x xs s after ∧
      ∀ t ∈ after, admits t (c.schema t) x = .ok false
  | _ => ∃ s after, c.FirstPassed x xs s after

theorem tryBranches_found_iff {xs : List Value} {s : Value} {rest : List (Value × Check)} :
    tryBranches x (c.listMembers xs) = .ok (.found s rest) ↔
      ∃ after, c.FirstPassed x xs s after ∧ rest = c.listMembers after := by
  induction xs with
  | nil =>
    constructor
    · intro hnone
      cases hnone
    · rintro ⟨after, hfirst, _⟩
      cases hfirst
  | cons t xs ih =>
    rw [listMembers, tryBranches]
    cases hfault : (c.schema t .full x).fault with
    | some fault =>
      have herror : (c.schema t .full x).toExcept = .error fault := by
        unfold Outcome.toExcept
        rw [hfault]
      rw [herror]
      constructor
      · intro hnone
        cases hnone
      · rintro ⟨after, hfirst, _⟩
        cases hfirst with
        | here hpasses => cases hpasses.2.symm.trans hfault
        | there hrejects => cases hrejects.2.symm.trans hfault
    | none =>
      have hok : (c.schema t .full x).toExcept = .ok (c.schema t .full x).violations := by
        unfold Outcome.toExcept
        rw [hfault]
      rw [hok]
      simp only [bind, Except.bind]
      by_cases hempty : (c.schema t .full x).violations = []
      · rw [hempty]
        constructor
        · rintro ⟨⟩
          exact ⟨xs, .here ⟨hempty, hfault⟩, rfl⟩
        · rintro ⟨after, hfirst, rfl⟩
          cases hfirst with
          | here => rfl
          | there hrejects => exact absurd hempty hrejects.1
      · rw [if_neg (by rwa [List.isEmpty_iff])]
        have hlater : (∃ after, c.FirstPassed x (t :: xs) s after ∧ rest = c.listMembers after) ↔
            ∃ after, c.FirstPassed x xs s after ∧ rest = c.listMembers after := by
          refine exists_congr fun after => and_congr_left fun _ => ⟨fun hfirst => ?_, fun hrest => ?_⟩
          · cases hfirst with
            | here hpasses => exact absurd hpasses.1 hempty
            | there _ hrest => exact hrest
          · exact .there ⟨hempty, hfault⟩ hrest
        rw [hlater, ← ih]
        cases tryBranches x (c.listMembers xs) with
        | error fault => constructor <;> (intro hnone; cases hnone)
        | ok branching =>
          cases branching with
          | refused more => constructor <;> (intro hnone; cases hnone)
          | found => rfl

theorem not_passes_refuseBranches {site : Site} {context : List Violation} :
    ¬ (c.refuseBranches site context).Passes := by
  intro h
  obtain ⟨message, _, hsingle⟩ := Outcome.passes_ofStep_iff.mp h
  exact Outcome.not_passes_single hsingle

theorem filterM_eq_nil_iff {α : Type} {ask : α → Except Fault Bool} {xs : List α} :
    xs.filterM ask = .ok [] ↔ ∀ a ∈ xs, ask a = .ok false := by
  have hfrom : ∀ (xs kept : List α), xs.filterAuxM ask kept = .ok [] ↔
      kept = [] ∧ ∀ a ∈ xs, ask a = .ok false := by
    intro xs
    induction xs with
    | nil =>
      refine fun kept => ⟨?_, ?_⟩
      · rintro ⟨⟩
        exact ⟨rfl, nofun⟩
      · rintro ⟨rfl, _⟩
        rfl
    | cons a xs ih =>
      intro kept
      rw [List.filterAuxM, List.forall_mem_cons]
      cases hask : ask a with
      | error fault =>
        constructor
        · intro hnone
          cases hnone
        · rintro ⟨_, hnone, _⟩
          cases hnone
      | ok keep =>
        simp only [bind, Except.bind, ih]
        cases keep with
        | true => simp
        | false => simp
  unfold List.filterM
  refine Iff.trans ?_ ((hfrom xs []).trans (and_iff_right rfl))
  cases xs.filterAuxM ask [] with
  | error fault => constructor <;> (intro hnone; cases hnone)
  | ok kept => simp [bind, Except.bind, pure, Except.pure]

/-- The branches after the first one that a datum passes must not admit it. -/
theorem refuseFurther_eq_none_iff {s : Value} {after : List Value} :
    (do let further ← (c.listMembers after).filterM fun (schema, check) => admits schema check x
        c.refuseFurther x s (further.map (·.1)) : Assertion.Refusal) = .ok none ↔
      ∀ t ∈ after, admits t (c.schema t) x = .ok false := by
  have hall : (∀ p ∈ c.listMembers after, admits p.1 p.2 x = .ok false) ↔
      ∀ t ∈ after, admits t (c.schema t) x = .ok false := by
    rw [listMembers_eq, List.forall_mem_map]
  rw [← hall, ← filterM_eq_nil_iff]
  constructor
  · intro h
    obtain ⟨further, hfurther, hrefuse⟩ := bind_eq_ok_iff.mp h
    cases further with
    | nil => exact hfurther
    | cons p further =>
      obtain ⟨texts, _, htexts⟩ := bind_eq_ok_iff.mp hrefuse
      exact absurd htexts Assertion.refuse_ne_none
  · intro h
    rw [h]
    rfl

section Members

variable {part : Part} {schema : Value} {xs : List Value}
  (hmembers : part.members = .ok (c.listMembers xs))

include hmembers

theorem passes_anyOf_iff :
    (c.anyOf ⟨.anyOf, schema, x⟩ part).Passes ↔ ∃ s after, c.FirstPassed x xs s after := by
  unfold anyOf
  rw [hmembers, Outcome.passes_ofStep_iff]
  constructor
  · rintro ⟨branching, htry, hpasses⟩
    cases branching with
    | refused => exact absurd hpasses not_passes_refuseBranches
    | found s rest =>
      obtain ⟨after, hfirst, _⟩ := tryBranches_found_iff.mp htry
      exact ⟨s, after, hfirst⟩
  · rintro ⟨s, after, hfirst⟩
    exact ⟨_, tryBranches_found_iff.mpr ⟨after, hfirst, rfl⟩, Outcome.passes_valid⟩

theorem passes_oneOf_iff : (c.oneOf ⟨.oneOf, schema, x⟩ part).Passes ↔
    ∃ s after, c.FirstPassed x xs s after ∧ ∀ t ∈ after, admits t (c.schema t) x = .ok false := by
  unfold oneOf
  rw [hmembers, Outcome.passes_ofStep_iff]
  constructor
  · rintro ⟨branching, htry, hpasses⟩
    cases branching with
    | refused => exact absurd hpasses not_passes_refuseBranches
    | found s rest =>
      obtain ⟨after, hfirst, rfl⟩ := tryBranches_found_iff.mp htry
      exact ⟨s, after, hfirst, refuseFurther_eq_none_iff.mp (passes_outcome_iff.mp hpasses)⟩
  · rintro ⟨s, after, hfirst, hafter⟩
    exact ⟨_, tryBranches_found_iff.mpr ⟨after, hfirst, rfl⟩,
      passes_outcome_iff.mpr (refuseFurther_eq_none_iff.mpr hafter)⟩

theorem passes_allOf_iff :
    (allOf part extent x).Passes ↔ ∀ s ∈ xs, (c.schema s extent x).Passes := by
  unfold allOf
  rw [hmembers, listMembers_eq, Outcome.passes_ofStep_iff]
  constructor
  · rintro ⟨_, ⟨⟩, hpasses⟩ s hs
    exact Outcome.passes_all_iff.mp hpasses _ (List.mem_map_of_mem hs)
  · refine fun h => ⟨_, rfl, Outcome.passes_all_iff.mpr ?_⟩
    rw [List.forall_mem_map]
    exact h

end Members

/-- A datum passes branches exactly if they let it through. -/
theorem passes_branches_iff {kw : Keyword} (hkw : kw.IsBranching) {schema : Value}
    {xs : List Value} :
    (c.keyword kw schema (c.partOf (.list xs)) extent x).Passes ↔ c.LetsThrough kw xs extent x := by
  have hmembers : (c.partOf (.list xs)).members = .ok (c.listMembers xs) := by
    unfold partOf
    rw [membersOf]
  obtain rfl | rfl | rfl := hkw
  · exact passes_anyOf_iff hmembers
  · exact passes_oneOf_iff hmembers
  · exact passes_allOf_iff hmembers

end Checker

end WireShape
