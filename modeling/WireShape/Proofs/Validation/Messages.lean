import WireShape.Proofs.Runs
import WireShape.Validation.Validator

/-!
# Violations have messages

A guard asks for the message of a violation and takes an empty one for none. No message is empty:
every keyword says what it refuses, and the violations behind a violation come from the same
keywords. So data with a violation are never let through for want of words.

* `Violation.Telling`: violations that have messages, and so have those behind them.
* `Checker.schema_telling`: checks of schemas find only such violations.
* `Validator.error_ne_empty`: what a validator reports is not empty.
-/

namespace WireShape

/-- A violation with a message; those behind it have messages as well. -/
inductive Violation.Telling : Violation → Prop
  | intro {v : Violation} (message : v.message ≠ "") (context : ∀ w ∈ v.context, Telling w) :
      Telling v

theorem append_ne_empty_left {a b : String} (ha : a ≠ "") : a ++ b ≠ "" :=
  fun h => ha (String.append_eq_empty_iff.mp h).1

theorem append_ne_empty_right {a b : String} (hb : b ≠ "") : a ++ b ≠ "" :=
  fun h => hb (String.append_eq_empty_iff.mp h).2

/-! ## Keywords about one datum -/

namespace Assertion

/-- A refusal whose text, if there is one, is not empty. -/
def Telling (refusal : Refusal) : Prop := ∀ message, refusal = .ok (some message) → message ≠ ""

section Steps

variable {α : Type} {describe : Describe} {v x : Value}

theorem telling_passed : Telling passed := by
  rintro message h
  cases h

theorem telling_some {message : String} (h : message ≠ "") : Telling (.ok (some message)) := by
  rintro _ heq
  cases heq
  exact h

theorem Telling.bind {step : Except Fault α} {next : α → Refusal} (h : ∀ a, Telling (next a)) :
    Telling (step >>= next) := by
  rintro message heq
  obtain ⟨a, _, hnext⟩ := bind_eq_ok_iff.mp heq
  exact h a message hnext

theorem Telling.ite {p : Prop} [Decidable p] {yes no : Refusal} (hyes : Telling yes)
    (hno : Telling no) : Telling (if p then yes else no) := by
  split
  · exact hyes
  · exact hno

theorem telling_refuse {phrase : String} : Telling (refuse describe x phrase) :=
  .bind fun _ => telling_some (append_ne_empty_left (append_ne_empty_right (by decide)))

theorem telling_throw {fault : Fault} : Telling (throw fault) := by
  rintro message h
  cases h

theorem telling_type : Telling (type describe v x) :=
  .bind fun _ => .bind fun _ => .ite telling_passed (.bind fun _ => telling_refuse)

theorem telling_enum : Telling (enum describe v x) :=
  .bind fun _ => .ite telling_passed (.bind fun _ => telling_refuse)

theorem telling_const : Telling (const describe v x) := by
  unfold const
  exact .ite telling_passed (.bind fun _ => telling_some (append_ne_empty_right (by decide)))

theorem telling_bound {b : Bound} : Telling (bound describe b v x) :=
  .ite telling_passed (.bind fun _ => .ite (.bind fun _ => telling_refuse) telling_passed)

theorem telling_multiple : Telling (multiple describe v x) := by
  unfold multiple
  split
  · exact telling_passed
  · have hjudge : ∀ fits : Bool, Telling (if fits then passed else do
        refuse describe x ("is not a multiple of " ++ (← v.quoted describe))) :=
      fun fits => .ite telling_passed (.bind fun _ => telling_refuse)
    dsimp only
    split
    · exact .bind hjudge
    · split
      · exact .bind hjudge
      · exact .bind hjudge

theorem telling_sizeBound {b : SizeBound} : Telling (sizeBound describe b v x) := by
  unfold sizeBound
  split
  · exact telling_passed
  · exact .bind fun _ => .ite telling_refuse telling_passed

theorem telling_unique : Telling (unique describe v x) := by
  unfold unique
  split
  · exact .ite telling_refuse telling_passed
  · exact telling_passed

theorem telling_pattern : Telling (pattern describe v x) := by
  unfold pattern
  split
  · exact .bind fun _ => .ite telling_passed (.bind fun _ => telling_refuse)
  · exact .bind fun _ => telling_throw
  · exact telling_passed

theorem telling_format : Telling (format describe v x) := by
  refine .bind fun _ => ?_
  split
  · split
    · exact .ite telling_passed (.bind fun _ => telling_refuse)
    · exact telling_passed
  · exact telling_passed

end Steps

end Assertion

/-! ## Outcomes -/

namespace Outcome

/-- All violations have messages. -/
def Telling (o : Outcome) : Prop := ∀ v ∈ o.violations, v.Telling

variable {α : Type} {o : Outcome} {extent : Extent}

theorem telling_valid : valid.Telling := fun _ hv => by cases hv

theorem telling_failed {fault : Fault} : (failed fault).Telling := fun _ hv => by cases hv

theorem telling_single {v : Violation} (hv : v.Telling) : (single v).Telling := by
  rintro w hw
  obtain rfl := List.mem_singleton.mp hw
  exact hv

theorem telling_ofStep {step : Except Fault α} {next : α → Outcome}
    (h : ∀ a, step = .ok a → (next a).Telling) : (ofStep step next).Telling := by
  cases step with
  | error fault => exact telling_failed
  | ok a => exact h a rfl

theorem Telling.andThen {next : Unit → Outcome} (ho : o.Telling) (hnext : (next ()).Telling) :
    (o.andThen extent next).Telling := by
  unfold Outcome.andThen
  split
  · exact ho
  · intro v hv
    rcases List.mem_append.mp hv with hv | hv
    · exact ho v hv
    · exact hnext v hv

theorem telling_all {check : α → Outcome} {xs : List α} (h : ∀ x ∈ xs, (check x).Telling) :
    (all extent check xs).Telling := by
  induction xs with
  | nil => exact telling_valid
  | cons x xs ih =>
    exact (h x List.mem_cons_self).andThen (ih fun y hy => h y (List.mem_cons_of_mem _ hy))

theorem Telling.under (ho : o.Telling) (key : Atom) : (o.under key).Telling := by
  unfold Outcome.under
  split
  · exact ho
  · intro v hv
    obtain ⟨w, hw, rfl⟩ := List.mem_map.mp hv
    obtain ⟨hmessage, hcontext⟩ := ho w hw
    exact ⟨hmessage, hcontext⟩

end Outcome

/-! ## Keywords with schemas in them -/

/-- A check that finds only violations with messages. -/
def Check.Telling (check : Check) : Prop := ∀ extent x, (check extent x).Telling

/-- A value all of whose schemas have such checks. -/
structure Part.Telling (part : Part) : Prop where
  check : Check.Telling part.check
  members : ∀ members, part.members = .ok members → ∀ m ∈ members, Check.Telling m.2
  fields : ∀ fields, part.fields = .ok fields → ∀ f ∈ fields, Check.Telling f.2

/-- A checker whose references lead to such checks. -/
def Checker.Telling (c : Checker) : Prop := ∀ reference, Check.Telling (c.follow reference)

namespace Checker

open Outcome

section Keywords

variable {c : Checker} {site : Site} {part : Part} {extent : Extent} {x : Value}

theorem Site.telling_outcome {refusal : Assertion.Refusal} (h : Assertion.Telling refusal) :
    (site.outcome refusal).Telling := by
  refine telling_ofStep fun found hfound => ?_
  split
  · exact telling_single ⟨h _ hfound, fun _ hw => by cases hw⟩
  · exact telling_valid

theorem telling_refuseAll : (c.refuseAll x).Telling := by
  refine telling_ofStep fun shown _ => telling_single ⟨?_, fun _ hw => by cases hw⟩
  exact append_ne_empty_left (by decide)

theorem telling_atom (a : Atom) : Check.Telling (c.atom a) := by
  intro extent x
  unfold atom
  split
  · exact telling_valid
  · exact telling_refuseAll
  · exact telling_failed

theorem telling_required {names : Value} : (c.required site names extent).Telling := by
  unfold required
  split
  · exact telling_valid
  · refine telling_ofStep fun names _ => telling_all fun name _ => ?_
    refine telling_ofStep fun present _ => ?_
    split
    · exact telling_valid
    · exact Site.telling_outcome
        (.bind fun _ => Assertion.telling_some (append_ne_empty_right (by decide)))

theorem telling_properties (hpart : part.Telling) : (properties part.fields extent x).Telling := by
  unfold properties
  split
  · exact telling_valid
  · refine telling_ofStep fun fields hfields => telling_all fun f hf => ?_
    have hf := hpart.fields fields hfields f hf
    obtain ⟨key, check⟩ := f
    dsimp only
    split
    · exact (hf _ _).under key
    · exact telling_valid

theorem telling_additionalProperties (hpart : part.Telling) :
    (c.additionalProperties site part extent).Telling := by
  unfold additionalProperties
  split
  · exact telling_valid
  · refine telling_ofStep fun extra _ => ?_
    split
    · exact telling_all fun key _ => (hpart.check _ _).under key
    · split
      · exact telling_valid
      · refine Site.telling_outcome ?_
        refine .ite Assertion.telling_passed (.bind fun _ => .bind fun _ => ?_)
        exact Assertion.telling_some (append_ne_empty_left (append_ne_empty_left
          (append_ne_empty_left (by decide))))

theorem telling_itemsFrom {check : Check} (hcheck : Check.Telling check) {index : Nat}
    {xs : List Value} : (itemsFrom check extent index xs).Telling := by
  induction xs generalizing index with
  | nil => exact telling_valid
  | cons y ys ih => exact ((hcheck _ _).under _).andThen ih

theorem telling_items (hpart : part.Telling) : (c.items site part extent).Telling := by
  unfold items
  split
  · exact telling_valid
  · split
    · refine Site.telling_outcome (.bind fun _ => Assertion.telling_some ?_)
      exact append_ne_empty_left (append_ne_empty_left (append_ne_empty_left (by decide)))
    · exact telling_itemsFrom hpart.check
  · exact telling_valid

/-- The violations of branches none of which is valid have messages. -/
theorem telling_tryBranches {branches : List (Value × Check)} {violations : List Violation}
    (hbranches : ∀ b ∈ branches, Check.Telling b.2)
    (h : tryBranches x branches = .ok (.refused violations)) : ∀ v ∈ violations, v.Telling := by
  induction branches generalizing violations with
  | nil =>
    cases h
    exact fun _ hv => by cases hv
  | cons b rest ih =>
    obtain ⟨schema, check⟩ := b
    rw [tryBranches] at h
    obtain ⟨first, hfirst, h⟩ := bind_eq_ok_iff.mp h
    have hown : ∀ v ∈ first, v.Telling := by
      have htelling := hbranches _ List.mem_cons_self .full x
      unfold Outcome.toExcept at hfirst
      split at hfirst
      · cases hfirst
      · cases hfirst
        exact htelling
    split at h
    · cases h
    · obtain ⟨later, hlater, h⟩ := bind_eq_ok_iff.mp h
      cases later with
      | refused more =>
        cases h
        intro v hv
        rcases List.mem_append.mp hv with hv | hv
        · exact hown v hv
        · exact ih (fun b hb => hbranches b (List.mem_cons_of_mem _ hb)) hlater v hv
      | found => cases h

theorem telling_refuseBranches {context : List Violation} (hcontext : ∀ w ∈ context, w.Telling) :
    (c.refuseBranches site context).Telling := by
  refine telling_ofStep fun message hmessage => telling_single ⟨?_, hcontext⟩
  obtain ⟨shown, _, hsome⟩ := bind_eq_ok_iff.mp hmessage
  cases hsome
  exact append_ne_empty_left (append_ne_empty_right (by decide))

/-- The keywords that try branches: what they say if no branch is valid, and if one is. -/
theorem telling_branches (hpart : part.Telling) {found : Value → List (Value × Check) → Outcome}
    (hfound : ∀ schema rest, (found schema rest).Telling) :
    (Outcome.ofStep (do tryBranches site.datum (← part.members)) fun
      | .refused violations => c.refuseBranches site violations
      | .found schema rest => found schema rest).Telling := by
  refine telling_ofStep fun branching hbranching => ?_
  obtain ⟨members, hmembers, htry⟩ := bind_eq_ok_iff.mp hbranching
  cases branching with
  | refused violations =>
    exact telling_refuseBranches (telling_tryBranches (hpart.members members hmembers) htry)
  | found schema rest => exact hfound schema rest

theorem telling_anyOf (hpart : part.Telling) : (c.anyOf site part).Telling :=
  telling_branches hpart fun _ _ => telling_valid

theorem telling_oneOf (hpart : part.Telling) : (c.oneOf site part).Telling := by
  refine telling_branches hpart fun schema rest => Site.telling_outcome (.bind fun further => ?_)
  exact .ite Assertion.telling_passed (.bind fun _ => Assertion.telling_refuse)

theorem telling_allOf (hpart : part.Telling) : (allOf part extent x).Telling :=
  telling_ofStep fun members hmembers =>
    telling_all fun m hm => hpart.members members hmembers m hm _ _

theorem telling_not : Assertion.Telling (c.not part x) :=
  .bind fun _ => .ite (.bind fun _ => Assertion.telling_refuse) Assertion.telling_passed

theorem telling_keyword (hc : c.Telling) (hpart : part.Telling) (kw : Keyword) (schema : Value) :
    Check.Telling (c.keyword kw schema part) := by
  intro extent x
  cases kw with
  | reference => exact hc _ _ _
  | type => exact Site.telling_outcome Assertion.telling_type
  | enum => exact Site.telling_outcome Assertion.telling_enum
  | const => exact Site.telling_outcome Assertion.telling_const
  | minimum | maximum | exclusiveMinimum | exclusiveMaximum =>
    exact Site.telling_outcome Assertion.telling_bound
  | multipleOf => exact Site.telling_outcome Assertion.telling_multiple
  | minLength | maxLength | minItems | maxItems | minProperties | maxProperties =>
    exact Site.telling_outcome Assertion.telling_sizeBound
  | uniqueItems => exact Site.telling_outcome Assertion.telling_unique
  | pattern => exact Site.telling_outcome Assertion.telling_pattern
  | format => exact Site.telling_outcome Assertion.telling_format
  | required => exact telling_required
  | properties => exact telling_properties hpart
  | additionalProperties => exact telling_additionalProperties hpart
  | items => exact telling_items hpart
  | anyOf => exact telling_anyOf hpart
  | oneOf => exact telling_oneOf hpart
  | allOf => exact telling_allOf hpart
  | not => exact Site.telling_outcome telling_not

theorem telling_entry (hc : c.Telling) (hpart : part.Telling) {schema : Value} {key : Atom} :
    Check.Telling (c.entry schema key part) := by
  intro extent x
  unfold entry
  split
  · split
    · exact telling_keyword hc hpart _ _ _ _
    · exact telling_valid
  · exact telling_valid

theorem telling_atomMembers {v : Value} {members : List (Value × Check)}
    (h : c.atomMembers v = .ok members) : ∀ m ∈ members, Check.Telling m.2 := by
  obtain ⟨elements, _, hmembers⟩ := bind_eq_ok_iff.mp h
  cases hmembers
  intro m hm
  obtain ⟨x, _, rfl⟩ := List.mem_map.mp hm
  split
  · exact telling_atom _
  · exact fun _ _ => telling_failed

end Keywords

/-! ## Schemas -/

section Schemas

variable {c : Checker}

mutual

/-- Checks of schemas find only violations with messages. -/
theorem schema_telling (hc : c.Telling) : ∀ v : Value, Check.Telling (c.schema v)
  | .atom a => by
    intro extent x
    rw [Checker.schema]
    exact telling_atom a extent x
  | .map es identity => by
    intro extent x
    rw [Checker.schema]
    exact telling_all fun e he => telling_entry hc (parts_telling hc es e he) _ _
  | .list _ | .mediaType .. | .requestBody .. | .response .. => by
    intro extent x
    rw [Checker.schema]
    · exact telling_failed
    · intros
      contradiction
    · intros
      contradiction

theorem parts_telling (hc : c.Telling) :
    ∀ es : List (Atom × Value), ∀ e ∈ c.parts es, e.2.Telling
  | [] => fun _ he => by cases he
  | (key, v) :: es => by
    intro e he
    rw [parts] at he
    rcases List.mem_cons.mp he with rfl | he
    · exact ⟨schema_telling hc v, membersOf_telling hc v, fieldsOf_telling hc v⟩
    · exact parts_telling hc es e he

theorem membersOf_telling (hc : c.Telling) : ∀ v : Value, ∀ members, c.membersOf v = .ok members →
    ∀ m ∈ members, Check.Telling m.2
  | .list xs => by
    intro members h
    rw [membersOf] at h
    cases h
    exact listMembers_telling hc xs
  | .atom _ | .map .. | .mediaType .. | .requestBody .. | .response .. => by
    intro members h
    rw [membersOf] at h
    · exact telling_atomMembers h
    · intros
      contradiction

theorem listMembers_telling (hc : c.Telling) :
    ∀ xs : List Value, ∀ m ∈ c.listMembers xs, Check.Telling m.2
  | [] => fun _ hm => by cases hm
  | x :: xs => by
    intro m hm
    rw [listMembers] at hm
    rcases List.mem_cons.mp hm with rfl | hm
    · exact schema_telling hc x
    · exact listMembers_telling hc xs m hm

theorem fieldsOf_telling (hc : c.Telling) : ∀ v : Value, ∀ fields, c.fieldsOf v = .ok fields →
    ∀ f ∈ fields, Check.Telling f.2
  | .map es identity => by
    intro fields h
    rw [fieldsOf] at h
    cases h
    exact mapFields_telling hc es
  | .atom _ | .list _ | .mediaType .. | .requestBody .. | .response .. => by
    intro fields h
    rw [fieldsOf] at h
    · cases h
    · intros
      contradiction

theorem mapFields_telling (hc : c.Telling) :
    ∀ es : List (Atom × Value), ∀ f ∈ c.mapFields es, Check.Telling f.2
  | [] => fun _ hf => by cases hf
  | (key, v) :: es => by
    intro f hf
    rw [mapFields] at hf
    rcases List.mem_cons.mp hf with rfl | hf
    · exact schema_telling hc v
    · exact mapFields_telling hc es f hf

end

end Schemas

end Checker

/-! ## Reports -/

namespace Violation

variable {describe : Describe}

theorem settleAt_eq_ok {violations : List Violation} {place : Nat} {above : List Atom} {r : Report}
    (h : settleAt describe above place violations = .ok r) :
    ∃ v ∈ violations, settle describe above v = .ok r := by
  induction violations generalizing place with
  | nil => cases h
  | cons v rest ih =>
    cases place with
    | zero => exact ⟨v, List.mem_cons_self, h⟩
    | succ place =>
      obtain ⟨w, hw, hsettle⟩ := ih h
      exact ⟨w, List.mem_cons_of_mem _ hw, hsettle⟩

/-- The report of a violation with a message has one. -/
theorem Telling.settle {v : Violation} (hv : v.Telling) {above : List Atom} {r : Report}
    (h : Violation.settle describe above v = .ok r) : r.message ≠ "" := by
  induction hv generalizing above with
  | @intro v hmessage _ ih =>
    obtain ⟨keyword, schema, datum, path, message, context⟩ := v
    rw [Violation.settle] at h
    obtain ⟨found, _, h⟩ := bind_eq_ok_iff.mp h
    split at h
    · obtain ⟨w, hw, hsettle⟩ := settleAt_eq_ok h
      exact ih w hw hsettle
    · cases h
      exact hmessage

theorem Report.text_ne_empty {r : Report} {text : String} (hr : r.message ≠ "")
    (h : r.text describe = .ok text) : text ≠ "" := by
  obtain ⟨_, _, h⟩ := bind_eq_ok_iff.mp h
  cases h
  split
  · exact hr
  · exact append_ne_empty_right hr

end Violation

namespace Validator

theorem checkerWithin_telling (validator : Validator) (depth : Nat) :
    (validator.checkerWithin depth).Telling := by
  induction depth with
  | zero => exact fun _ _ _ => Outcome.telling_failed
  | succ depth ih =>
    intro reference extent x
    refine Outcome.telling_ofStep fun target _ => ?_
    split
    · exact Checker.schema_telling ih _ _ _
    · exact Checker.schema_telling ih _ _ _
    · exact Outcome.telling_failed

/-- What a validator reports is not empty. -/
theorem error_ne_empty {validator : Validator} {x : Value} {message : String}
    (h : validator.error x = .ok (some message)) : message ≠ "" := by
  have htelling : (validator.check x).Telling :=
    Checker.schema_telling (validator.checkerWithin_telling _) _ _ _
  obtain ⟨place, _, h⟩ := bind_eq_ok_iff.mp h
  obtain ⟨violations, hviolations, h⟩ := bind_eq_ok_iff.mp h
  have hall : ∀ v ∈ violations, v.Telling := by
    unfold Outcome.toExcept at hviolations
    split at hviolations
    · cases hviolations
    · cases hviolations
      exact htelling
  split at h
  · cases h
  · obtain ⟨report, hreport, h⟩ := bind_eq_ok_iff.mp h
    obtain ⟨text, htext, h⟩ := bind_eq_ok_iff.mp h
    cases h
    obtain ⟨v, hv, hsettle⟩ := Violation.settleAt_eq_ok hreport
    exact Violation.Report.text_ne_empty ((hall v hv).settle hsettle) htext

end Validator

end WireShape
