import WireShape.Proofs.Formed.Walks

/-!
# Checked forms of formed schemas

In the checked form of a formed schema every keyword is found again, but for the mark, and says what
it says in its own checked form, with null besides if the schema is marked. Nothing else is found
there: a schema inside the checked form is the checked form of a schema at the same place. So a check
passes through the checked forms of formed schemas only, and depends on what the references in them
lead to and on nothing else.

* `CheckedFields`: fields and their checked form.
* `Formed.checked`: the checked form of a formed schema.
* `SchemaAt.origin`: where the schemas in a checked form come from.
* `Formed.check_congr`: what a check depends on.
-/

namespace WireShape

open Value (Fields)
open NullTypes (Each Tidy Expands EntriesExpand expand admittingNullIf)

/-! ## Fields -/

/-- An entry of which it is known what it does as a mark, or beside one. -/
structure SettlesMark (name : String) (v : Value) : Prop where
  mark : name = "nullable" → v = .bool true
  choices : name = "enum" → ∃ xs, v = .list xs ∧ ∀ x ∈ xs, x.IsScalar

/-- Fields and their checked form. -/
structure CheckedFields (fields after : Fields) : Prop where
  tidy : Tidy after
  unmarked : OrderedMap.get? after (.str "nullable") = none
  found : ∀ name, name ≠ "nullable" → Option.Rel (fun v w => ∃ u, expand v = .ok u ∧
    w = admittingNullIf (OrderedMap.contains fields (.str "nullable")) name u)
      (OrderedMap.get? fields (.str name)) (OrderedMap.get? after (.str name))

section Fields

variable {fields after : Fields} {identity : Option Nat} {name : String} {v w : Value}

theorem isIn_null_of_scalars {xs : List Value} (hxs : ∀ x ∈ xs, x.IsScalar) :
    Value.null.isIn xs = false := by
  refine List.any_eq_false.mpr fun x hx => ?_
  rw [(hxs x hx).not_null.2.1]
  exact Bool.false_ne_true

/-- Tidy fields have a checked form if all that stands in them has. -/
theorem NullTypes.Each.checked_of_expands (h : Each SettlesMark fields)
    (hes : ∀ e ∈ fields, Expands e.2) : ∃ after,
      expand (.map fields identity) = .ok (.ofEntries after) ∧ CheckedFields fields after := by
  have hmark : OrderedMap.getD fields (.str "nullable") .null =
      if OrderedMap.contains fields (.str "nullable") then .bool true else .null := by
    unfold OrderedMap.getD OrderedMap.contains
    cases hget : OrderedMap.get? fields (.str "nullable") with
    | none => rfl
    | some v => exact (h.get? hget).mark rfl
  have hchoices : ∀ v, OrderedMap.get? fields (.str "enum") = some v → ∃ xs : List Value,
      v = .list xs ∧ (∀ x ∈ xs, ∃ a, x = .atom a) ∧ Value.null.isIn xs = false := by
    intro v hv
    obtain ⟨xs, rfl, hxs⟩ := (h.get? hv).choices rfl
    exact ⟨xs, rfl, fun x hx => (hxs x hx).atom, isIn_null_of_scalars hxs⟩
  obtain ⟨after, hafter, htidy, hfound⟩ :=
    @NullTypes.expand_fields _ _ identity h.toTidy hes hmark hchoices
  obtain ⟨after', heq, hshown⟩ := NullTypes.expand_map hafter
  cases heq
  exact ⟨after, hafter, htidy, hshown.absent _ (.inr rfl), hfound⟩

theorem NullTypes.Each.checked (h : Each SettlesMark fields)
    (hw : expand (.map fields identity) = .ok w) :
    ∃ after, w = .ofEntries after ∧ CheckedFields fields after := by
  have hdef := hw
  rw [expand] at hdef
  obtain ⟨gs, hgs, _⟩ := bind_eq_ok_iff.mp hdef
  have hes : ∀ e ∈ fields, Expands e.2 := by
    intro e he
    obtain ⟨g, _, _, hg⟩ := forall₂_left (EntriesExpand.of_ok hgs) he
    exact ⟨_, hg⟩
  obtain ⟨after, hafter, hchecked⟩ := h.checked_of_expands hes
  cases hafter.symm.trans hw
  exact ⟨after, rfl, hchecked⟩

theorem CheckedFields.get? (h : CheckedFields fields after)
    (hname : name ∉ ["nullable", "type", "enum"])
    (hv : OrderedMap.get? fields (.str name) = some v) :
    ∃ w, expand v = .ok w ∧ OrderedMap.get? after (.str name) = some w := by
  simp only [List.mem_cons, List.not_mem_nil, or_false, not_or] at hname
  rcases NullTypes.rel_cases (h.found name hname.1) with ⟨hnone, _⟩ | ⟨_, w, hsome, hw, u, hu, rfl⟩
  · cases hnone.symm.trans hv
  · cases hsome.symm.trans hv
    refine ⟨u, hu, hw.trans (congrArg some ?_)⟩
    unfold admittingNullIf
    split
    · exact NullTypes.admittingNull_of_ne hname.2.1 hname.2.2
    · rfl

/-- What stands in the checked form is the checked form of something. -/
theorem CheckedFields.origin (h : CheckedFields fields after) (hname : name ∉ ["type", "enum"])
    (hw : OrderedMap.get? after (.str name) = some w) :
    ∃ v, OrderedMap.get? fields (.str name) = some v ∧ expand v = .ok w := by
  have hmark : name ≠ "nullable" := by
    rintro rfl
    cases h.unmarked.symm.trans hw
  rcases NullTypes.rel_cases (h.found name hmark) with ⟨_, hnone⟩ | ⟨v, _, hv, _⟩
  · cases hnone.symm.trans hw
  · have hnames : name ∉ ["nullable", "type", "enum"] := fun hmem =>
      (List.mem_cons.mp hmem).elim hmark hname
    obtain ⟨w', hexpand, hw'⟩ := h.get? hnames hv
    cases hw'.symm.trans hw
    exact ⟨v, hv, hexpand⟩

end Fields

/-! ## Mappings without the mark -/

/-- A key that is not named like the mark of nullable schemas. -/
def Atom.IsNoMark (k : Atom) : Prop := k ≠ .str "nullable"

section NoMark

variable {es : Fields} {identity : Option Nat} {w : Value} (hkeys : ∀ e ∈ es, e.1.IsNoMark)
include hkeys

theorem contains_mark_eq_false : OrderedMap.contains es (.str "nullable") = false := by
  refine Bool.eq_false_iff.mpr fun hin => ?_
  obtain ⟨e, he, hkey⟩ := OrderedMap.contains_iff.mp hin
  exact hkeys e he (Atom.beq_str_iff.mp hkey)

/-- Mappings without the key of the mark keep their keys. -/
theorem NullTypes.expand_of_noMark (hw : expand (.map es identity) = .ok w) :
    ∃ gs : Fields, w = .ofEntries gs ∧ EntriesExpand es gs := by
  have hdef := hw
  rw [expand] at hdef
  obtain ⟨gs, hgs, _⟩ := bind_eq_ok_iff.mp hdef
  have hall := EntriesExpand.of_ok hgs
  cases (NullTypes.expand_without_mark (contains_mark_eq_false hkeys) hgs hall).symm.trans hw
  exact ⟨gs, rfl, hall⟩

theorem NullTypes.expands_of_noMark (hes : ∀ e ∈ es, Expands e.2) :
    Expands (.map es identity) := by
  obtain ⟨gs, hgs, hall⟩ := NullTypes.expandEntries_ok hes
  exact ⟨_, NullTypes.expand_without_mark (contains_mark_eq_false hkeys) hgs hall⟩

end NoMark

/-- Definitions with such names are kept, each in its own checked form. -/
theorem Components.Each.expanded {P : Value → Prop} {c : Components} {w : Value}
    (hc : c.Each Atom.IsNoMark P) (hw : expand c.toValue = .ok w) :
    ∃ gs : Fields, w = .ofEntries gs ∧ List.Forall₂ (fun bucket g => g.1 = bucket.1 ∧
      ∃ hs : Fields, g.2 = .ofEntries hs ∧ EntriesExpand bucket.2 hs) c gs := by
  have hbuckets : ∀ e ∈ OrderedMap.mapValues (fun entries => Value.ofEntries entries) c,
      e.1.IsNoMark := by
    intro e he
    obtain ⟨b, hb, rfl⟩ := List.mem_map.mp he
    exact (hc b hb).1
  obtain ⟨gs, rfl, hall⟩ := NullTypes.expand_of_noMark hbuckets hw
  refine ⟨gs, rfl, forall₂_imp_mem ?_ (List.forall₂_map_left_iff.mp hall)⟩
  rintro bucket hbucket g ⟨hkey, hg⟩
  obtain ⟨hs, hvalue, hinner⟩ := NullTypes.expand_of_noMark
    (fun e he => ((hc bucket hbucket).2 e he).1) hg
  exact ⟨hkey, hs, hvalue, hinner⟩

/-! ## Formed schemas -/

section Formed

variable {Key : Atom → Prop} {Given : Value → Prop} {Target : String → Prop} {S : Value → Prop}
  {fields : Fields} {identity : Option Nat} {name : String} {v w u x : Value}
  {steps path : List Atom}

theorem Written.settlesMark (h : Written Key Given Target S name v) : SettlesMark name v :=
  ⟨fun hname => (hname ▸ h).form, fun hname => (hname ▸ h).form⟩

theorem Formed.checked (h : Formed Key Given Target (.map fields identity))
    (hw : expand (.map fields identity) = .ok w) :
    ∃ after, w = .ofEntries after ∧ CheckedFields fields after :=
  (h.each.mono fun _ _ hv => hv.settlesMark).checked hw

/-- No schemas stand in the value of a name that is no keyword for schemas. -/
theorem Inside.ne_of (hu : Inside name v steps u) (other : String)
    (hother : ¬ ['O', 'f'] <:+ other.toList)
    (hnone : other ∉ ["properties", "additionalProperties", "items", "not"]) : name ≠ other := by
  rintro rfl
  cases hu with
  | branch => exact hother (isSuffix_of_ends rfl)
  | _ => exact hnone (by decide)

theorem Inside.plain (hu : Inside name v steps u) : name ∉ ["nullable", "type", "enum"] := by
  intro hmem
  rcases List.mem_cons.mp hmem with rfl | hmem
  · exact hu.ne_of _ (by decide) (by decide) rfl
  · rcases List.mem_cons.mp hmem with rfl | hmem
    · exact hu.ne_of _ (by decide) (by decide) rfl
    · obtain rfl := List.mem_singleton.mp hmem
      exact hu.ne_of _ (by decide) (by decide) rfl

/-- An entry of the checked form of a mapping of mappings comes from an entry under the same key. -/
theorem NullTypes.origin_of_maps {es : Fields} (hes : ∀ e ∈ es, e.2.isMap = true)
    (hw : expand (.map es identity) = .ok w) :
    ∃ after : Fields, w = .ofEntries after ∧
      ∀ g ∈ after, ∃ e ∈ es, g.1 = e.1 ∧ expand e.2 = .ok g.2 := by
  rw [expand] at hw
  obtain ⟨gs, hgs, hrest⟩ := bind_eq_ok_iff.mp hw
  obtain ⟨after, hafter, hpure⟩ := bind_eq_ok_iff.mp hrest
  cases hpure
  have hall := EntriesExpand.of_ok hgs
  have hmaps : ∀ g ∈ Fields.remove gs "nullable", g.2.isMap = true := by
    intro g hg
    obtain ⟨e, he, _, hexpand⟩ := hall.mem (List.mem_of_mem_filter hg)
    have hmap := hes e he
    cases hvalue : e.2 with
    | map es' identity' =>
      rw [hvalue] at hexpand
      obtain ⟨inner, hinner, _⟩ := NullTypes.expand_map hexpand
      rw [hinner]
      rfl
    | _ =>
      rw [hvalue] at hmap
      cases hmap
  -- No type is a text, and choices that are a mapping are kept or end in a fault.
  have hkept : ∀ g ∈ after, g ∈ Fields.remove gs "nullable" := by
    unfold NullTypes.resolveMark at hafter
    dsimp only at hafter
    split at hafter
    · have htype : NullTypes.withNullType (Fields.remove gs "nullable") =
          Fields.remove gs "nullable" := by
        unfold NullTypes.withNullType
        split
        · rename_i ht
          obtain ⟨k, hmem, _⟩ := OrderedMap.mem_of_get? ht
          cases hmaps _ hmem
        · rfl
      rw [NullTypes.admitNull_eq, htype] at hafter
      split at hafter
      · rename_i choices hchoices
        obtain ⟨v, hv, hset⟩ := bind_eq_ok_iff.mp hafter
        cases hset
        obtain ⟨k, hmem, hk⟩ := OrderedMap.mem_of_get? hchoices
        obtain rfl := NullTypes.withNullChoice_map (hmaps _ hmem) hv
        obtain rfl := Atom.beq_str_iff.mp hk
        intro g hg
        rcases OrderedMap.mem_insert hg with hold | ⟨hvalue, hkey | ⟨_, hsame⟩⟩
        · exact hold
        · exact (Prod.ext hkey hvalue : g = (.str "enum", v)) ▸ hmem
        · exact (Prod.ext (Atom.beq_str_iff.mp hsame) hvalue : g = (.str "enum", v)) ▸ hmem
      · cases hafter
        exact fun _ hg => hg
    · cases hafter
      exact fun _ hg => hg
  exact ⟨after, rfl, fun g hg => hall.mem (List.mem_of_mem_filter (hkept g hg))⟩

/-- A schema in the checked form of what is written comes from a schema at the same place. -/
theorem Inside.origin (hu : Inside name w steps u)
    (hv : Written Key Given Target (Formed Key Given Target) name v) (hw : expand v = .ok w) :
    ∃ u', Inside name v steps u' ∧ expand u' = .ok u := by
  cases hu with
  | property he =>
    obtain ⟨es, rfl, hes⟩ := hv.form
    obtain ⟨after, heq, hfrom⟩ := NullTypes.origin_of_maps (fun e he => (hes e he).2.isMap) hw
    cases heq
    obtain ⟨e, hmem, hkey, hexpand⟩ := hfrom _ he
    rw [hkey]
    exact ⟨e.2, .property hmem, hexpand⟩
  | additional hopen =>
    refine ⟨v, .additional ?_, hw⟩
    rintro rfl
    cases hw
    exact hopen rfl
  | item => exact ⟨v, .item, hw⟩
  | denied => exact ⟨v, .denied, hw⟩
  | @branch mode ys i y hy =>
    obtain ⟨xs, rfl, _⟩ := hv.branches_eq rfl
    rw [expand] at hw
    obtain ⟨ys', hitems, hpure⟩ := bind_eq_ok_iff.mp hw
    cases hpure
    rcases NullTypes.rel_cases (NullTypes.getElem?_expandItems hitems i) with
      ⟨_, hnone⟩ | ⟨x, _, hx, hy', hexpand⟩
    · cases hnone.symm.trans hy
    · cases hy'.symm.trans hy
      exact ⟨x, .branch hx, hexpand⟩

/-- A schema in the checked form of a formed schema is the checked form of a schema at the same
place. -/
theorem SchemaAt.origin (hx : SchemaAt w path x) (hv : Formed Key Given Target v)
    (hw : expand v = .ok w) : ∃ u, SchemaAt v path u ∧ expand u = .ok x := by
  induction hx generalizing v with
  | here => exact ⟨v, .here, hw⟩
  | @inside w value u x name steps path hvalue hinside _ ih =>
    cases v with
    | map fields identity =>
      obtain ⟨after, rfl, hchecked⟩ := hv.checked hw
      obtain ⟨v, hget, hexpand⟩ := hchecked.origin
        (fun hmem => hinside.plain (List.mem_cons_of_mem _ hmem)) hvalue
      have hwritten := hv.written hget
      obtain ⟨u', hu', hexpand'⟩ := hinside.origin hwritten hexpand
      obtain ⟨x', hx', hexpand''⟩ := ih (hwritten.inside hu') hexpand'
      exact ⟨x', .inside hget hu' hx', hexpand''⟩
    | _ => cases hv

/-- A reference in the checked form of a formed schema has the target of a reference in the schema. -/
theorem Formed.reference_of_checked {r : Value} (hv : Formed Key Given Target v)
    (hw : expand v = .ok w) (hu : SchemaAt w path u) (hr : u.field? "$ref" = some r) : ∃ t, r = .str t ∧ Target t := by
  obtain ⟨u', hu', hexpand⟩ := hu.origin hv hw
  have hformed := hv.schemaAt hu'
  cases u' with
  | map fields identity =>
    obtain ⟨after, rfl, hchecked⟩ := hformed.checked hexpand
    obtain ⟨v', hget, hexpand'⟩ := hchecked.origin (by decide) hr
    obtain ⟨t, rfl, ht⟩ := (hformed.written hget).form
    cases hexpand'
    exact ⟨t, rfl, ht⟩
  | _ => cases hformed

end Formed

/-! ## What a check depends on -/

section Congruence

variable {c c' : Checker} (hdescribe : c.describe = c'.describe)
include hdescribe

/-- The check of an entry depends on what a reference leads to and on the checks of the schemas in
the value. -/
theorem Checker.entry_congr {name : String} {schema v : Value}
    (hreference : name = "$ref" → c.follow v = c'.follow v)
    (hinside : ∀ steps u, Inside name v steps u → c.schema u = c'.schema u) :
    c.entry schema (.str name) (c.partOf v) = c'.entry schema (.str name) (c'.partOf v) := by
  obtain ⟨describe, follow⟩ := c
  obtain ⟨describe', follow'⟩ := c'
  obtain rfl : describe = describe' := hdescribe
  have hmembers : ∀ mode : String, name = mode ++ "Of" →
      Checker.membersOf ⟨describe, follow⟩ v = Checker.membersOf ⟨describe, follow'⟩ v := by
    rintro mode rfl
    cases v with
    | list xs =>
      rw [Checker.membersOf, Checker.membersOf, Checker.listMembers_eq, Checker.listMembers_eq]
      refine congrArg Except.ok (List.map_congr_left fun x hx => ?_)
      obtain ⟨i, hi⟩ := List.getElem?_of_mem hx
      rw [hinside _ x (.branch hi)]
    | _ =>
      simp only [Checker.membersOf]
      rfl
  have hfields : name = "properties" →
      Checker.fieldsOf ⟨describe, follow⟩ v = Checker.fieldsOf ⟨describe, follow'⟩ v := by
    rintro rfl
    cases v with
    | map es identity =>
      rw [Checker.fieldsOf, Checker.fieldsOf, Checker.mapFields_eq, Checker.mapFields_eq]
      refine congrArg Except.ok (List.map_congr_left fun e he => ?_)
      rw [hinside _ e.2 (.property he)]
    | _ => simp only [Checker.fieldsOf]
  funext extent x
  unfold Checker.entry
  dsimp only
  cases hname : Keyword.ofName? name with
  | none => rfl
  | some kw =>
    obtain rfl := Keyword.eq_name_of_ofName? hname
    cases kw with
    | reference => exact congrFun (congrFun (hreference rfl) extent) x
    | properties => exact congrArg (Checker.properties · extent x) (hfields rfl)
    | additionalProperties =>
      change Checker.additionalProperties _ _ _ _ = Checker.additionalProperties _ _ _ _
      unfold Checker.additionalProperties
      cases hmap : v.isMap with
      | true =>
        have hopen : v ≠ .bool false := by
          rintro rfl
          cases hmap
        simp only [Checker.partOf, hmap, hinside _ _ (.additional hopen)]
        rfl
      | false =>
        simp only [Checker.partOf, hmap, Bool.false_eq_true, ↓reduceIte]
        rfl
    | items =>
      change Checker.items _ _ _ _ = Checker.items _ _ _ _
      unfold Checker.items
      simp only [Checker.partOf, hinside _ _ .item]
      rfl
    | anyOf =>
      change Checker.anyOf _ _ _ = Checker.anyOf _ _ _
      unfold Checker.anyOf
      simp only [Checker.partOf, hmembers "any" rfl]
      rfl
    | oneOf =>
      change Checker.oneOf _ _ _ = Checker.oneOf _ _ _
      unfold Checker.oneOf
      simp only [Checker.partOf, hmembers "one" rfl]
      rfl
    | allOf =>
      change Checker.allOf _ _ _ = Checker.allOf _ _ _
      unfold Checker.allOf
      simp only [Checker.partOf, hmembers "all" rfl]
    | not =>
      change Checker.Site.outcome _ (Checker.not _ _ _) = Checker.Site.outcome _ (Checker.not _ _ _)
      unfold Checker.not
      simp only [Checker.partOf, hinside _ _ .denied]
    | required => rfl
    | _ => simp only [Checker.keyword, Checker.partOf]

/-- The check of the checked form of a formed schema depends on what its references lead to. -/
theorem Formed.check_congr {Key : Atom → Prop} {Given : Value → Prop} {Target : String → Prop}
    {v w : Value} (hv : Formed Key Given Target v) (hw : expand v = .ok w)
    (hfollow : ∀ path u r, SchemaAt w path u → u.field? "$ref" = some r → c.follow r = c'.follow r) :
    c.schema w = c'.schema w := by
  induction hv generalizing w with
  | @intro fields identity htidy hwritten hinner ih =>
    have hformed : Formed Key Given Target (.map fields identity) := .intro htidy hwritten hinner
    obtain ⟨after, rfl, hchecked⟩ := hformed.checked hw
    have hentries : ∀ e ∈ after, c.entry (.ofEntries after) e.1 (c.partOf e.2) =
        c'.entry (.ofEntries after) e.1 (c'.partOf e.2) := by
      intro e he
      obtain ⟨key, value⟩ := e
      obtain ⟨name, rfl⟩ := hchecked.tidy.text _ he
      have hvalue : OrderedMap.get? after (.str name) = some value :=
        hchecked.tidy.separate.get? he (Atom.beq_str_iff.mpr rfl)
      refine Checker.entry_congr hdescribe (fun hname => ?_) fun steps u hu => ?_
      · subst hname
        exact hfollow [] _ value .here hvalue
      · obtain ⟨v, hget, hexpand⟩ := hchecked.origin
          (fun hmem => hu.plain (List.mem_cons_of_mem _ hmem)) hvalue
        obtain ⟨u', hu', hexpand'⟩ := hu.origin (hformed.written hget) hexpand
        exact ih name v steps u' hget hu' hexpand'
          fun path t r ht hr => hfollow _ t r (.inside hvalue hu ht) hr
    funext extent x
    rw [Checker.schema, Checker.schema, Checker.parts_eq, Checker.parts_eq, Outcome.all_map,
      Outcome.all_map]
    exact Outcome.all_congr fun e he => congrFun (congrFun (hentries e he) extent) x

end Congruence

end WireShape
