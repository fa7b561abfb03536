import WireShape.Proofs.Validation.Data

/-!
# Checks that decide

A check decides a property of a datum if no fault ends it and if it finds a violation exactly where
the property fails. One check after another decides that all the properties hold. A violation is
clear if it can be reported: its path leads into the datum, the type that its schema names is known,
and the violations behind it are clear as well. The report of clear violations does not fail either.

* `Violation.Clear`: violations that can be reported.
* `Outcome.Decides`: outcomes that decide a property.
* `Outcome.Decides.all`: checks one after another.
* `Validator.error_of_decides`: what a validator reports.
-/

namespace WireShape

open Value (IsJson HasPath Shown)

/-! ## Violations -/

/-- The types that a schema names, if it names any, are known. -/
def Value.NamesTypes (schema : Value) : Prop :=
  ∀ listed, schema.field? "type" = some listed → ∃ names, Assertion.listedTypes listed = .ok names ∧
    ∀ name ∈ names, ∃ s test, name = .str s ∧ Assertion.typeTest? s = some test

/-- A violation about a part of a datum that can be reported; so can those behind it, which are about
the same part. -/
inductive Violation.Clear : Value → Violation → Prop
  | intro {x y : Value} {v : Violation} (hpath : x.Leads v.path y) (htypes : v.schema.NamesTypes)
      (hcontext : ∀ w ∈ v.context, Clear y w) : Clear x v

namespace Violation.Clear

variable {x : Value} {v : Violation}

theorem path (h : v.Clear x) : x.HasPath v.path := by
  cases h with
  | intro hpath => exact ⟨_, hpath⟩

theorem types (h : v.Clear x) : v.schema.NamesTypes := by
  cases h with
  | intro _ htypes => exact htypes

/-- A violation that has no others behind it. -/
theorem alone (hpath : v.path = []) (htypes : v.schema.NamesTypes) (hcontext : v.context = []) :
    v.Clear x := by
  refine .intro (by rw [hpath]; exact .here) htypes fun w hw => ?_
  rw [hcontext] at hw
  cases hw

end Violation.Clear

namespace Outcome

/-- An outcome without fault that has a violation exactly where a property fails; its violations are
clear. -/
structure Decides (x : Value) (o : Outcome) (p : Prop) : Prop where
  fault : o.fault = none
  empty : o.violations = [] ↔ p
  clear : ∀ v ∈ o.violations, v.Clear x

variable {x : Value} {o : Outcome} {p q : Prop}

theorem Decides.iff (h : Decides x o p) (hpq : p ↔ q) : Decides x o q :=
  ⟨h.fault, h.empty.trans hpq, h.clear⟩

theorem decides_valid (hp : p) : Decides x valid p :=
  ⟨rfl, iff_of_true rfl hp, fun _ hv => by cases hv⟩

/-- A single violation decides what fails. -/
theorem decides_single {v : Violation} (hv : v.Clear x) (hp : ¬ p) : Decides x (single v) p := by
  refine ⟨rfl, iff_of_false (List.cons_ne_nil _ _) hp, fun w hw => ?_⟩
  obtain rfl := List.mem_singleton.mp hw
  exact hv

theorem Decides.holds (h : Decides x o p) : ∃ b, o.holds = .ok b ∧ (b = true ↔ p) := by
  unfold Outcome.holds
  rw [h.fault]
  cases hempty : o.violations.isEmpty with
  | true => exact ⟨true, rfl, iff_of_true rfl (h.empty.mp (List.isEmpty_iff.mp hempty))⟩
  | false =>
    refine ⟨false, rfl, iff_of_false Bool.false_ne_true fun hp => ?_⟩
    rw [h.empty.mpr hp] at hempty
    cases hempty

/-- One check after another decides both properties. -/
theorem Decides.andThen {extent : Extent} {next : Unit → Outcome} (h : Decides x o p)
    (hnext : Decides x (next ()) q) : Decides x (o.andThen extent next) (p ∧ q) := by
  unfold Outcome.andThen
  by_cases hdone : o.isDone extent = true
  · rw [if_pos hdone]
    have hsome : o.violations ≠ [] := by
      intro hempty
      unfold isDone at hdone
      rw [h.fault, hempty] at hdone
      simp at hdone
    exact ⟨h.fault, iff_of_false hsome fun hpq => hsome (h.empty.mpr hpq.1), h.clear⟩
  · rw [if_neg hdone]
    refine ⟨hnext.fault, ?_, fun v hv => ?_⟩
    · rw [List.append_eq_nil_iff]
      exact and_congr h.empty hnext.empty
    · rcases List.mem_append.mp hv with hv | hv
      · exact h.clear v hv
      · exact hnext.clear v hv

/-- Checks of all members of a list decide that the property holds of each. -/
theorem Decides.all {α : Type} {extent : Extent} {check : α → Outcome} {P : α → Prop} {xs : List α}
    (h : ∀ a ∈ xs, Decides x (check a) (P a)) :
    Decides x (Outcome.all extent check xs) (∀ a ∈ xs, P a) := by
  induction xs with
  | nil => exact decides_valid fun _ ha => by cases ha
  | cons a xs ih =>
    have hrest := ih fun b hb => h b (List.mem_cons_of_mem _ hb)
    exact ((h a List.mem_cons_self).andThen hrest).iff List.forall_mem_cons.symm

theorem all_map {α β : Type} {extent : Extent} {check : β → Outcome} {f : α → β} {xs : List α} :
    Outcome.all extent check (xs.map f) = Outcome.all extent (fun a => check (f a)) xs := by
  induction xs with
  | nil => rfl
  | cons a xs ih => rw [List.map_cons, Outcome.all, Outcome.all, ih]

theorem all_congr {α : Type} {extent : Extent} {f g : α → Outcome} {xs : List α}
    (h : ∀ a ∈ xs, f a = g a) : Outcome.all extent f xs = Outcome.all extent g xs := by
  induction xs with
  | nil => rfl
  | cons a xs ih =>
    rw [Outcome.all, Outcome.all, h a List.mem_cons_self,
      ih fun b hb => h b (List.mem_cons_of_mem _ hb)]

/-- A check of a part decides for the whole. -/
theorem Decides.under {y : Value} {key : Atom} (h : Decides y o p) (hkey : key ≠ .null)
    (hpath : ∀ path w, y.Leads path w → x.Leads (key :: path) w) : Decides x (o.under key) p := by
  have hunder : o.under key =
      { o with violations := o.violations.map fun v => { v with path := key :: v.path } } := by
    cases key with
    | null => exact absurd rfl hkey
    | _ => rfl
  rw [hunder]
  refine ⟨h.fault, List.map_eq_nil_iff.trans h.empty, fun v hv => ?_⟩
  obtain ⟨w, hw, rfl⟩ := List.mem_map.mp hv
  cases h.clear w hw with
  | intro hw htypes hcontext => exact .intro (hpath _ _ hw) htypes hcontext

end Outcome

/-! ## Reports -/

theorem Assertion.fitsType_str {s : String} {test : Value → Bool} {x : Value}
    (htest : Assertion.typeTest? s = some test) : Assertion.fitsType (.str s) x = .ok (test x) := by
  unfold Assertion.fitsType
  dsimp only
  rw [htest]

namespace Violation

variable {x : Value}

theorem Clear.fitsType {v : Violation} (hv : v.Clear x) (describe : Describe) :
    ∃ b, v.fitsType describe = .ok b := by
  unfold Violation.fitsType
  cases hfield : v.schema.field? "type" with
  | none => exact ⟨false, rfl⟩
  | some listed =>
    obtain ⟨names, hlisted, hnames⟩ := hv.types listed hfield
    dsimp only
    rw [hlisted]
    have hany : ∃ b, names.anyM (fun name => fitsNamedType describe name v.datum) = .ok b := by
      clear hlisted
      induction names with
      | nil => exact ⟨false, rfl⟩
      | cons name names ih =>
        obtain ⟨b, hb⟩ := ih fun n hn => hnames n (List.mem_cons_of_mem _ hn)
        obtain ⟨s, test, rfl, htest⟩ := hnames name List.mem_cons_self
        have hfits : fitsNamedType describe (.str s) v.datum = .ok (test v.datum) := by
          unfold fitsNamedType
          rw [Assertion.fitsType_str htest]
        rw [List.anyM_cons, hfits]
        cases htrue : test v.datum with
        | true => exact ⟨true, by simp [bind, Except.bind, pure, Except.pure]⟩
        | false => exact ⟨b, by simp [bind, Except.bind, hb]⟩
    exact hany

theorem Clear.relevance {v : Violation} (hv : v.Clear x) (describe : Describe) :
    ∃ r, v.relevance describe = .ok r ∧ r.path = v.path := by
  obtain ⟨b, hb⟩ := hv.fitsType describe
  refine ⟨⟨v.path, v.keyword.any Keyword.isWeak, b⟩, ?_, rfl⟩
  unfold Violation.relevance
  rw [hb]
  rfl

theorem compare_ok {r r' : Relevance} (hx : x.IsJson) (hr : x.HasPath r.path)
    (hr' : x.HasPath r'.path) (relation : String) : ∃ o, r.compare relation r' = .ok o := by
  obtain ⟨_, hr⟩ := hr
  obtain ⟨_, hr'⟩ := hr'
  obtain ⟨o, ho⟩ := hx.comparePaths_ok hr hr' relation
  unfold Relevance.compare
  dsimp only
  split
  · exact ⟨_, rfl⟩
  · rw [ho]
    exact ⟨_, rfl⟩

theorem mostRelevantFrom_ok {violations : List Violation} (describe : Describe) (hx : x.IsJson)
    (hall : ∀ v ∈ violations, v.Clear x) (best : Nat × Relevance) (place bound : Nat)
    (hbest : x.HasPath best.2.path) (hplace : best.1 < bound)
    (hbound : place + violations.length = bound) :
    ∃ found, mostRelevantFrom describe best place violations = .ok found ∧ found < bound := by
  induction violations generalizing best place with
  | nil => exact ⟨best.1, rfl, hplace⟩
  | cons v rest ih =>
    have hv := hall v List.mem_cons_self
    obtain ⟨r, hr, hpath⟩ := hv.relevance describe
    obtain ⟨o, ho⟩ := compare_ok hx (hpath ▸ hv.path) hbest ">"
    have hrest := fun w hw => hall w (List.mem_cons_of_mem _ hw)
    rw [List.length_cons] at hbound
    unfold mostRelevantFrom
    rw [hr]
    simp only [bind, Except.bind, ho]
    split
    · exact ih hrest (place, r) (place + 1) (hpath ▸ hv.path) (by omega) (by omega)
    · exact ih hrest best (place + 1) hbest hplace (by omega)

theorem mostRelevant_ok {describe : Describe} {violations : List Violation} (hx : x.IsJson)
    (hall : ∀ v ∈ violations, v.Clear x) (hsome : violations ≠ []) :
    ∃ place, mostRelevant? describe violations = .ok (some place) ∧ place < violations.length := by
  cases violations with
  | nil => exact absurd rfl hsome
  | cons v rest =>
    have hv := hall v List.mem_cons_self
    obtain ⟨r, hr, hpath⟩ := hv.relevance describe
    obtain ⟨place, hplace, hlt⟩ := mostRelevantFrom_ok describe hx
      (fun w hw => hall w (List.mem_cons_of_mem _ hw)) (0, r) 1 (v :: rest).length (hpath ▸ hv.path)
      (Nat.zero_lt_succ _) (Nat.add_comm _ _)
    refine ⟨place, ?_, hlt⟩
    simp only [mostRelevant?, hr, bind, Except.bind, hplace, pure, Except.pure]

/-! ### Of the violations in branches -/

/-- The two least relevant violations so far stand before a place, and their paths lead into a
datum. -/
structure Least.Within (x : Value) (bound : Nat) (l : Least) : Prop where
  place : l.first.1 < bound
  first : x.HasPath l.first.2.path
  second : ∀ s, l.second = some s → s.1 < bound ∧ x.HasPath s.2.path

theorem Least.Within.add {l : Least} {bound place : Nat} {r : Relevance} (hl : l.Within x bound)
    (hx : x.IsJson) (hplace : place < bound) (hr : x.HasPath r.path) :
    ∃ l', l.add place r = .ok l' ∧ l'.Within x bound := by
  obtain ⟨o, ho⟩ := compare_ok hx hr hl.first "<"
  have hnew : ∀ s, some (place, r) = some s → s.1 < bound ∧ x.HasPath s.2.path := by
    rintro s ⟨⟩
    exact ⟨hplace, hr⟩
  have hold : ∀ s, some l.first = some s → s.1 < bound ∧ x.HasPath s.2.path := by
    rintro s ⟨⟩
    exact ⟨hl.place, hl.first⟩
  unfold Least.add
  cases hsecond : l.second with
  | none =>
    simp only [bind, Except.bind, ho]
    split
    · exact ⟨_, rfl, hplace, hr, hold⟩
    · exact ⟨_, rfl, hl.place, hl.first, hnew⟩
  | some second =>
    obtain ⟨o', ho'⟩ := compare_ok hx hr (hl.second _ hsecond).2 "<"
    simp only [bind, Except.bind, ho, ho']
    split
    · split
      · exact ⟨_, rfl, hplace, hr, hold⟩
      · exact ⟨_, rfl, hl.place, hl.first, hnew⟩
    · exact ⟨_, rfl, hl⟩

/-- The least relevant of clear violations is found, if there is one. -/
theorem leastRelevant_ok (describe : Describe) {violations : List Violation} (hx : x.IsJson)
    (hall : ∀ v ∈ violations, v.Clear x) : ∃ found, leastRelevant? describe violations = .ok found ∧
      ∀ place, found = some place → place < violations.length := by
  cases violations with
  | nil => exact ⟨none, rfl, nofun⟩
  | cons v rest =>
    have hv := hall v List.mem_cons_self
    have hrest := fun w hw => hall w (List.mem_cons_of_mem v hw)
    refine exists_ok_bind (hv.relevance describe) fun r hpath => ?_
    have hstart : Least.Within x (v :: rest).length ⟨(0, r), none⟩ :=
      ⟨Nat.zero_lt_succ _, hpath ▸ hv.path, nofun⟩
    refine exists_ok_bind (foldlM_ok (P := fun after found =>
      (∀ w ∈ after, w.Clear x) ∧ found.1.Within x (v :: rest).length ∧
        found.2 + after.length = (v :: rest).length) ?_ ⟨hrest, hstart, Nat.add_comm _ _⟩) ?_
    · rintro w after ⟨l, place⟩ ⟨hclear, hl, hbound⟩
      rw [List.length_cons] at hbound
      have hw := hclear w List.mem_cons_self
      refine exists_ok_bind (hw.relevance describe) fun r hpath => ?_
      refine exists_ok_bind (hl.add hx (by omega) (hpath ▸ hw.path)) fun l' hl' => ?_
      exact ⟨_, rfl, fun u hu => hclear u (List.mem_cons_of_mem w hu), hl', by omega⟩
    · rintro ⟨least, place⟩ ⟨_, hwithin, _⟩
      dsimp only at hwithin ⊢
      have hfirst : ∀ p, some least.first.1 = some p → p < (v :: rest).length := by
        rintro _ ⟨⟩
        exact hwithin.place
      cases hsecond : least.second with
      | none => exact ⟨_, rfl, hfirst⟩
      | some second =>
        obtain ⟨o, ho⟩ := compare_ok hx hwithin.first (hwithin.second _ hsecond).2 "=="
        refine exists_ok_bind ⟨o, ho, rfl⟩ ?_
        rintro _ rfl
        split
        · exact ⟨none, rfl, nofun⟩
        · exact ⟨_, rfl, hfirst⟩

/-! ### Reports -/

theorem settleAt_eq {describe : Describe} {above : List Atom} {violations : List Violation}
    {place : Nat} (hplace : place < violations.length) : ∃ v ∈ violations,
      settleAt describe above place violations = settle describe above v := by
  induction violations generalizing place with
  | nil => cases hplace
  | cons v rest ih =>
    cases place with
    | zero => exact ⟨v, List.mem_cons_self, by rw [settleAt]⟩
    | succ place =>
      obtain ⟨w, hw, hsettle⟩ := ih (Nat.lt_of_succ_lt_succ hplace)
      exact ⟨w, List.mem_cons_of_mem _ hw, by rwa [settleAt]⟩

/-- A clear violation is reported, with a path into the datum. -/
theorem Clear.settle_ok {root : Value} {v : Violation} (hv : v.Clear x) (describe : Describe)
    (hroot : root.IsJson) {above : List Atom} (habove : root.Leads above x) :
    ∃ report, settle describe above v = .ok report ∧ root.HasPath report.path := by
  induction hv generalizing above with
  | @intro x y v hpath _ hcontext ih =>
    obtain ⟨keyword, schema, datum, path, message, context⟩ := v
    have hpart : root.Leads (above ++ path) y := habove.append hpath
    obtain ⟨found, hfound, hlt⟩ := leastRelevant_ok describe (hroot.of_leads hpart) hcontext
    rw [settle]
    simp only [hfound, bind, Except.bind]
    cases found with
    | none => exact ⟨_, rfl, y, hpart⟩
    | some place =>
      obtain ⟨w, hw, hsettle⟩ := @settleAt_eq describe (above ++ path) context place (hlt _ rfl)
      obtain ⟨report, hreport, hleads⟩ := ih w hw hpart
      exact ⟨report, hsettle.trans hreport, hleads⟩

end Violation

/-- A validator whose check decides a property reports nothing where it holds, and a message where
it fails. -/
theorem Validator.error_of_decides {validator : Validator} {x : Value} {p : Prop} (hx : x.IsJson)
    (h : Outcome.Decides x (validator.check x) p) :
    (p → validator.error x = .ok none) ∧ (¬ p → ∃ message, validator.error x = .ok (some message)) := by
  have hfault : (validator.check x).toExcept = .ok (validator.check x).violations := by
    unfold Outcome.toExcept
    rw [h.fault]
  constructor
  · intro hp
    have hempty := h.empty.mpr hp
    unfold Validator.error
    dsimp only
    rw [hfault, hempty]
    rfl
  · intro hp
    have hsome : (validator.check x).violations ≠ [] := fun hempty => hp (h.empty.mp hempty)
    obtain ⟨place, hplace, hlt⟩ :
        ∃ place, Violation.mostRelevant? validator.describe (validator.check x).violations =
          .ok (some place) ∧ place < (validator.check x).violations.length :=
      Violation.mostRelevant_ok hx h.clear hsome
    obtain ⟨v, hv, hsettle⟩ := @Violation.settleAt_eq validator.describe [] _ _ hlt
    obtain ⟨report, hreport, _, hpath⟩ := (h.clear v hv).settle_ok validator.describe hx .here
    obtain ⟨texts, htexts⟩ := hx.display_path hpath validator.describe
    unfold Validator.error
    simp only [hplace, hfault, bind, Except.bind, hsettle, hreport]
    unfold Violation.Report.text
    simp only [htexts, bind, Except.bind, pure, Except.pure]
    exact ⟨_, rfl⟩

end WireShape
