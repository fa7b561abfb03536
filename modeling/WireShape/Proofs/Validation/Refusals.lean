import WireShape.Proofs.NullTypes
import WireShape.Proofs.Validation.Schemas

/-!
# Schemas that refuse a key

Whether a datum is valid need not be decided by its check: a fault may end it. But what is refused
somewhere stays refused, whatever else is checked before and after. A schema that describes its keys
and admits no others refuses every mapping with another key, and so does its checked form, in which
there are no keys but those of the schema.

* `Outcome.Refuses`: outcomes that do not let a datum pass.
* `Checker.refuses_of_entry`: a schema refuses what one of its entries refuses.
* `Value.Fields.Closes`: fields that describe the keys of a mapping and leave one out.
* `Value.Fields.Closes.refuses`: a mapping with that key does not pass.
* `Value.Fields.Closes.expand`: the checked form of such fields leaves out the same key.
-/

namespace WireShape

open Value (Fields)

namespace Outcome

/-- A violation is found, or a fault ends the check. -/
def Refuses (o : Outcome) : Prop := o.violations ≠ [] ∨ o.fault ≠ none

variable {o : Outcome}

theorem refuses_failed {fault : Fault} : (failed fault).Refuses := .inr nofun

theorem refuses_single {v : Violation} : (single v).Refuses := .inl (List.cons_ne_nil _ _)

theorem Refuses.andThen {extent : Extent} {next : Unit → Outcome} (ho : o.Refuses) :
    (o.andThen extent next).Refuses := by
  unfold Outcome.andThen
  split
  · exact ho
  · rename_i hdone
    refine ho.elim (fun hviolations => .inl ?_) fun hfault => absurd ?_ hdone
    · exact fun hnil => hviolations (List.append_eq_nil_iff.mp hnil).1
    · rw [isDone, Option.isSome_iff_ne_none.mpr hfault, Bool.true_or]

/-- What refuses later refuses, unless the check is done before, and then for a reason. -/
theorem Refuses.andThen_next {extent : Extent} {next : Unit → Outcome} (hnext : (next ()).Refuses) :
    (o.andThen extent next).Refuses := by
  unfold Outcome.andThen
  split
  · rename_i hdone
    rcases Bool.or_eq_true_iff.mp hdone with hfault | hfirst
    · exact .inr (Option.isSome_iff_ne_none.mp hfault)
    · refine .inl fun hnil => ?_
      rw [hnil] at hfirst
      simp at hfirst
  · refine hnext.elim (fun hviolations => .inl ?_) .inr
    exact fun hnil => hviolations (List.append_eq_nil_iff.mp hnil).2

/-- One check that refuses is enough. -/
theorem Refuses.all {α : Type} {extent : Extent} {check : α → Outcome} {xs : List α} {x : α}
    (hx : x ∈ xs) (hcheck : (check x).Refuses) : (Outcome.all extent check xs).Refuses := by
  induction xs with
  | nil => cases hx
  | cons y xs ih =>
    rcases List.mem_cons.mp hx with rfl | hmem
    · exact hcheck.andThen
    · exact (ih hmem).andThen_next

theorem refuses_ofStep {α : Type} {step : Except Fault α} {next : α → Outcome}
    (hnext : ∀ a, step = .ok a → (next a).Refuses) : (ofStep step next).Refuses := by
  cases step with
  | error fault => exact refuses_failed
  | ok a => exact hnext a rfl

end Outcome

theorem Violation.mostRelevant_ne_none {describe : Describe} {violations : List Violation}
    (hsome : violations ≠ []) : Violation.mostRelevant? describe violations ≠ .ok none := by
  cases violations with
  | nil => exact absurd rfl hsome
  | cons v rest =>
    intro hnone
    obtain ⟨_, _, hrest⟩ := bind_eq_ok_iff.mp hnone
    obtain ⟨_, _, hpure⟩ := bind_eq_ok_iff.mp hrest
    cases hpure

/-- A validator lets no datum pass that its check refuses. -/
theorem Validator.error_ne_none {validator : Validator} {x : Value}
    (hrefuses : (validator.check x).Refuses) : validator.error x ≠ .ok none := by
  intro hnone
  unfold Validator.error at hnone
  obtain ⟨place, hplace, hrest⟩ := bind_eq_ok_iff.mp hnone
  obtain ⟨violations, hviolations, hreport⟩ := bind_eq_ok_iff.mp hrest
  cases place with
  | some place =>
    obtain ⟨_, _, htext⟩ := bind_eq_ok_iff.mp hreport
    obtain ⟨_, _, hpure⟩ := bind_eq_ok_iff.mp htext
    cases hpure
  | none =>
    rcases hrefuses with hsome | hfault
    · exact Violation.mostRelevant_ne_none hsome hplace
    · obtain ⟨fault, hfault⟩ := Option.ne_none_iff_exists'.mp hfault
      unfold Outcome.toExcept at hviolations
      rw [hfault] at hviolations
      cases hviolations

/-- A schema refuses what one of its entries refuses. -/
theorem Checker.refuses_of_entry {c : Checker} {fields : Fields} {identity : Option Nat}
    {name : String} {v x : Value} {extent : Extent}
    (hv : OrderedMap.get? fields (.str name) = some v)
    (hentry : (c.entry (.map fields identity) (.str name) (c.partOf v) extent x).Refuses) :
    (c.schema (.map fields identity) extent x).Refuses := by
  obtain ⟨key, hmem, hname⟩ := OrderedMap.mem_of_get? hv
  obtain rfl := Atom.beq_str_iff.mp hname
  rw [Checker.schema, Checker.parts_eq, Outcome.all_map]
  exact Outcome.Refuses.all hmem hentry

/-! ## Keys that are left out -/

/-- Fields of a schema that describes keys, admits no others, and does not describe a certain key. -/
structure Value.Fields.Closes (fields : Fields) (k : Atom) : Prop where
  closed : OrderedMap.get? fields (.str "additionalProperties") = some (.bool false)
  absent : ∃ described, OrderedMap.get? fields (.str "properties") = some (.ofEntries described) ∧
    OrderedMap.get? described k = none

namespace Value.Fields.Closes

variable {fields : Fields} {k : Atom} {c : Checker}

/-- A mapping with the key does not pass: the key is among those that are not described. -/
theorem refuses {identity identity' : Option Nat} {es : OrderedMap Atom Value} {extent : Extent}
    (h : fields.Closes k) (hk : OrderedMap.contains es k = true) :
    (c.schema (.map fields identity) extent (.map es identity')).Refuses := by
  obtain ⟨described, hdescribed, habsent⟩ := h.absent
  obtain ⟨e, he, hkey⟩ := OrderedMap.contains_iff.mp hk
  have hprops : ((Value.map fields identity).field? "properties").getD (.ofEntries []) =
      .ofEntries described := congrArg (fun o => Option.getD o _) hdescribed
  have hextra := @Checker.extraKeys_eq (.map fields identity) described es none hprops
  have hmem : e.1 ∈ (OrderedMap.keys es).filter fun key => !OrderedMap.contains described key := by
    refine List.mem_filter.mpr ⟨List.mem_map_of_mem he, ?_⟩
    rw [OrderedMap.contains, OrderedMap.get?_congr hkey, habsent]
    rfl
  have hstep : c.entry (.map fields identity) (.str "additionalProperties") (c.partOf (.bool false))
      extent (.map es identity') =
      .ofStep (Checker.extraKeys (.map fields identity) es) fun extra =>
        Checker.Site.outcome ⟨.additionalProperties, .map fields identity, .map es identity'⟩
          (c.refuseExtra extra) := rfl
  refine Checker.refuses_of_entry h.closed ?_
  rw [hstep, hextra]
  change (Checker.Site.outcome _ _).Refuses
  unfold Checker.Site.outcome
  refine Outcome.refuses_ofStep fun message hmessage => ?_
  cases message with
  | some message => exact Outcome.refuses_single
  | none =>
    unfold Checker.refuseExtra at hmessage
    rw [if_neg (by rw [List.isEmpty_iff]; exact List.ne_nil_of_mem hmem)] at hmessage
    obtain ⟨_, _, hrest⟩ := bind_eq_ok_iff.mp hmessage
    obtain ⟨_, _, hpure⟩ := bind_eq_ok_iff.mp hrest
    cases hpure

end Value.Fields.Closes

namespace Value.Fields.Closes

variable {fields : Fields} {k : Atom}

theorem set {name : String} {v : Value} (h : fields.Closes k) (hclosed : name ≠ "additionalProperties")
    (hproperties : name ≠ "properties") : (fields.set name v).Closes k := by
  obtain ⟨described, hdescribed, habsent⟩ := h.absent
  exact ⟨(NullTypes.get?_set.trans (if_neg hclosed)).trans h.closed, described,
    (NullTypes.get?_set.trans (if_neg hproperties)).trans hdescribed, habsent⟩

/-- The checked form leaves out what the schema leaves out. -/
theorem expand {identity : Option Nat} {v : Value} (h : fields.Closes k)
    (hexpand : NullTypes.expand (.map fields identity) = .ok v) :
    ∃ after : Fields, v = .ofEntries after ∧ after.Closes k := by
  obtain ⟨after, rfl, hshows⟩ := NullTypes.expand_map hexpand
  obtain ⟨described, hdescribed, habsent⟩ := h.absent
  obtain ⟨w, hw, hclosed⟩ := hshows.found _ _ h.closed rfl
  obtain ⟨w', hw', hproperties⟩ := hshows.found _ _ hdescribed rfl
  obtain ⟨described', rfl, hshows'⟩ := NullTypes.expand_map hw'
  cases hw
  exact ⟨after, rfl, hclosed (.inr ⟨rfl, rfl⟩), described', hproperties (.inl rfl),
    hshows'.absent k (.inl habsent)⟩

end Value.Fields.Closes

end WireShape
