import WireShape.Proofs.Formed.Coercion

/-!
# Null beside branches

A node that lists null among its values marks its schema, and the checked form of a marked schema
admits null besides under its type and its choices. No other keyword says anything about null, but
for branches: of alternatives and of conditions, which the mark does not reach. So null is accepted
exactly if the branches let it through, and where none of them admits null it is refused although the
node lists it (`Container.null_refused`).

* `Checker.LetsNullThrough`: fields whose branches let null through.
* `MarkedFields.null_passes_iff`: the checked form of marked fields admits null exactly then.
* `Heap.ListsNull`: positions in whose place nothing stands, and that list null.
* `Container.null_by_branches`: when a container accepts null, and when it does under a key.
-/

namespace WireShape

open Value (Fields)
open NullTypes (Each expand admittingNullIf)

/-! ## Keywords about null -/

namespace Checker

variable {c : Checker} {schema : Value} {part : Part} {extent : Extent}

/-- The keywords that may say something about null. -/
def aboutNull : List Keyword :=
  [.reference, .type, .enum, .const, .format, .not, .anyOf, .oneOf, .allOf]

theorem null_passes_other {kw : Keyword} (hkw : kw ∉ aboutNull) :
    (c.keyword kw schema part extent .null).Passes := by
  cases kw with
  | reference | type | enum | const | format | not | anyOf | oneOf | allOf =>
    exact absurd (by decide) hkw
  | _ => exact Outcome.passes_valid

/-- Null is of a type, if it is of one that is listed. -/
theorem null_passes_type {t : String} {test : Value → Bool}
    (htest : Assertion.typeTest? t = some test) :
    (c.keyword .type schema (c.partOf (.list [.str t, .str "null"])) extent .null).Passes := by
  refine passes_outcome_iff.mpr ?_
  have hfits : Assertion.fitsType (.str t) .null = .ok (test .null) := by
    unfold Assertion.fitsType
    dsimp only
    rw [htest]
  change (do
    if ← [Value.str t, Value.str "null"].anyM fun name => Assertion.fitsType name .null then
      Assertion.passed
    else _ : Assertion.Refusal) = .ok none
  have hany : [Value.str t, Value.str "null"].anyM (fun name => Assertion.fitsType name .null) =
      .ok true := by
    rw [List.anyM, hfits]
    cases test .null <;> rfl
  rw [hany]
  rfl

theorem null_passes_enum {xs : List Value} :
    (c.keyword .enum schema (c.partOf (.list (xs ++ [.null]))) extent .null).Passes := by
  refine passes_outcome_iff.mpr ?_
  have hany : (xs ++ [Value.null]).any (fun v => v.sameStrict .null) = true := by
    rw [List.any_append, Bool.or_eq_true]
    exact .inr rfl
  change (do
    if (xs ++ [Value.null]).any fun v => v.sameStrict .null then Assertion.passed
    else _ : Assertion.Refusal) = .ok none
  rw [if_pos hany]
  rfl

/-- Null is not among scalars, so to deny these does not refuse it. -/
theorem null_passes_not {xs : List Value} (hxs : ∀ x ∈ xs, x.IsScalar) :
    (c.keyword .not schema (c.partOf (.ofFields [("enum", .list xs)])) extent .null).Passes := by
  have hshown : ∀ x ∈ xs, x.Shown c.describe := fun x hx => (hxs x hx).shown
  obtain ⟨b, hb, hiff⟩ := ((checkable_denied hshown).decides .null .first).holds
  have hrefused : b = false := by
    refine Bool.eq_false_iff.mpr fun htrue => ?_
    obtain ⟨x, hx, hsame⟩ := (accepts_denied hshown .null).mp (hiff.mp htrue)
    exact Bool.false_ne_true ((hxs x hx).not_null.1.symm.trans hsame)
  rw [hrefused] at hb
  refine passes_outcome_iff.mpr ?_
  unfold Checker.not
  change ((c.schema (.ofFields [("enum", .list xs)]) .first .null).holds >>= _) = _
  rw [hb]
  rfl

end Checker

/-! ## Marked fields -/

section Marked

variable {Key : Atom → Prop} {Given S : Value → Prop} {fields after : Fields}
  {c : Checker} {extent : Extent}

/-- Fields whose branches, in their checked form, let null through. -/
def Checker.LetsNullThrough (c : Checker) (fields : Fields) (extent : Extent) : Prop :=
  ∀ kw : Keyword, kw.IsBranching → ∀ v, OrderedMap.get? fields (.str kw.name) = some v →
    ∃ xs, expand v = .ok (.list xs) ∧ c.LetsThrough kw xs extent .null

theorem Keyword.IsBranching.plain {kw : Keyword} (hkw : kw.IsBranching) :
    kw.name ∉ ["nullable", "type", "enum"] ∧ ∃ mode, kw.name = mode ++ "Of" := by
  obtain rfl | rfl | rfl := hkw
  · exact ⟨by decide, "any", rfl⟩
  · exact ⟨by decide, "one", rfl⟩
  · exact ⟨by decide, "all", rfl⟩

/-- Fields that a node writes without a reference, with the mark among them. -/
structure MarkedFields (Key : Atom → Prop) (Given : Value → Prop) (fields : Fields) : Prop where
  written : Each (Written Key Given (fun _ => False) fun _ => True) fields
  marked : OrderedMap.contains fields (.str "nullable") = true

variable (h : MarkedFields Key Given fields) (hchecked : CheckedFields fields after)
include h hchecked

/-- What stands in the checked form under a keyword for branches are these branches, checked. -/
theorem MarkedFields.branches {kw : Keyword} (hkw : kw.IsBranching) {v : Value}
    (hv : OrderedMap.get? fields (.str kw.name) = some v) :
    ∃ xs, expand v = .ok (.list xs) ∧ OrderedMap.get? after (.str kw.name) = some (.list xs) := by
  obtain ⟨hplain, mode, hname⟩ := hkw.plain
  obtain ⟨xs, rfl, _⟩ := (h.written.get? hv).branches_eq hname
  obtain ⟨w, hw, hget⟩ := hchecked.get? hplain hv
  have hlist := hw
  rw [expand] at hlist
  obtain ⟨ys, _, hpure⟩ := bind_eq_ok_iff.mp hlist
  cases hpure
  exact ⟨ys, hw, hget⟩

/-- Null passes what stands in the checked form of marked fields without references, but for the
branches. -/
theorem MarkedFields.null_passes {kw : Keyword} (hkw : ¬ kw.IsBranching) {w : Value}
    (hw : OrderedMap.get? after (.str kw.name) = some w) :
    (c.keyword kw (.ofEntries after) (c.partOf w) extent .null).Passes := by
  have horigin : kw.name ∉ ["type", "enum"] →
      ∃ v, Written Key Given (fun _ => False) (fun _ => True) kw.name v ∧ expand v = .ok w := by
    intro hname
    obtain ⟨v, hv, hexpand⟩ := hchecked.origin hname hw
    exact ⟨v, h.written.get? hv, hexpand⟩
  -- Under the type and the choices, null is admitted besides.
  have hadmitted : kw.name ≠ "nullable" →
      ∃ v, Written Key Given (fun _ => False) (fun _ => True) kw.name v ∧
        ∃ u, expand v = .ok u ∧ w = NullTypes.admittingNull kw.name u := by
    intro hname
    rcases NullTypes.rel_cases (hchecked.found kw.name hname) with ⟨_, hnone⟩ | ⟨v, _, hv, hw', hu⟩
    · cases hnone.symm.trans hw
    · cases hw'.symm.trans hw
      rw [h.marked] at hu
      exact ⟨v, h.written.get? hv, hu⟩
  cases kw with
  | reference =>
    obtain ⟨v, hv, _⟩ := horigin (by decide)
    obtain ⟨_, _, hnone⟩ := hv.form
    exact hnone.elim
  | type =>
    obtain ⟨v, hv, u, hu, rfl⟩ := hadmitted (by decide)
    obtain ⟨t, test, rfl, htest⟩ := hv.form
    cases hu
    exact Checker.null_passes_type htest
  | enum =>
    obtain ⟨v, hv, u, hu, rfl⟩ := hadmitted (by decide)
    obtain ⟨xs, rfl, hxs⟩ := hv.form
    cases (NullTypes.expand_atoms fun x hx => (hxs x hx).atom).symm.trans hu
    exact Checker.null_passes_enum
  | const =>
    obtain ⟨v, hv, _⟩ := horigin (by decide)
    exact hv.form.elim
  | format =>
    obtain ⟨v, hv, hexpand⟩ := horigin (by decide)
    obtain ⟨s, rfl⟩ := hv.form
    cases hexpand
    exact Outcome.passes_valid
  | not =>
    obtain ⟨v, hv, hexpand⟩ := horigin (by decide)
    obtain ⟨xs, rfl, hxs, _⟩ := hv.form
    cases (expand_denied hxs).symm.trans hexpand
    exact Checker.null_passes_not hxs
  | anyOf | oneOf | allOf => exact absurd (by unfold Keyword.IsBranching; decide) hkw
  | _ => exact Checker.null_passes_other (by decide)

/-- The checked form of marked fields admits null exactly if their branches let it through. -/
theorem MarkedFields.null_passes_iff :
    (c.schema (.ofEntries after) extent .null).Passes ↔ c.LetsNullThrough fields extent := by
  refine (Checker.passes_schema_iff hchecked.tidy).trans
    ⟨fun hall kw hkw v hv => ?_, fun hthrough kw w hw => ?_⟩
  · obtain ⟨xs, hexpand, hget⟩ := h.branches hchecked hkw hv
    exact ⟨xs, hexpand, (Checker.passes_branches_iff hkw).mp (hall kw _ hget)⟩
  · by_cases hkw : kw.IsBranching
    · obtain ⟨v, hv, hexpand⟩ := hchecked.origin
        (fun hmem => hkw.plain.1 (List.mem_cons_of_mem _ hmem)) hw
      obtain ⟨xs, hexpand', hlets⟩ := hthrough kw hkw v hv
      cases hexpand'.symm.trans hexpand
      exact (Checker.passes_branches_iff hkw).mpr hlets
    · exact h.null_passes hchecked hkw hw

end Marked

namespace MarkedFields

variable {Key : Atom → Prop} {fields : Fields}

theorem reference_none {Given : Value → Prop} (h : MarkedFields Key Given fields) :
    OrderedMap.get? fields (.str "$ref") = none := by
  cases hget : OrderedMap.get? fields (.str "$ref") with
  | none => rfl
  | some v =>
    obtain ⟨_, _, hnone⟩ := (h.written.get? hget).form
    exact hnone.elim

theorem checked {Given : Value → Prop} {w : Value} {identity : Option Nat}
    (h : MarkedFields Key Given fields)
    (hw : expand (.map fields identity) = .ok w) :
    ∃ after, w = .ofEntries after ∧ CheckedFields fields after :=
  (h.written.mono fun _ _ hv => hv.settlesMark).checked hw

/-- Where nothing need be known of what is supplied, definitions may stand beside the fields. -/
theorem beside (h : MarkedFields Key (fun _ => True) fields) {definitions : Value} :
    MarkedFields Key (fun _ => True) (fields.set "components" definitions) := by
  refine ⟨h.written.set (.supplied (by decide) trivial), ?_⟩
  unfold OrderedMap.contains
  rw [get?_set_of_ne (by decide)]
  exact h.marked

theorem opened {Given : Value → Prop} (h : MarkedFields Key Given fields) :
    MarkedFields Key Given (fields.remove "additionalProperties") := by
  refine ⟨h.written.remove, ?_⟩
  unfold OrderedMap.contains Fields.remove
  rw [OrderedMap.get?_erase_of_ne (by decide)]
  exact h.marked

end MarkedFields

/-! ## Positions that list null -/

/-- A position in whose place nothing stands, and that lists null among its values. -/
structure Heap.ListsNull (h : Heap) (s : Schema) : Prop where
  override : (h.view s).override.isNull = true
  allowed : (h.view s).isForbidden = false
  listed : Value.null.isIn (h.view s).valids = true

/-- Such a position, unless its class is known, writes marked fields and hands them on. -/
theorem Heap.ListsNull.walked {Key : Atom → Prop} {Given : Value → Prop} {h : Heap} {s : Schema}
    {overriding : Bool} {ctx after : Context} {r : Compiled} (hs : h.ListsNull s)
    (hGiven : Supply Given) (hnode : (h.view s).Supplies Key Given)
    (hnew : ∀ bucket name, (h.view s).class? = .ok (some (bucket, name)) →
      ctx.has bucket name = false) (hrun : Walked h s overriding ctx r after) :
    ∃ fields c inner, MarkedFields Key Given fields ∧ (h.view s).class? = .ok c ∧
      Finish h (.ofEntries fields) inner c r after := by
  cases hrun.step with
  | override hoverride => exact absurd (hoverride.symm.trans hs.override) Bool.false_ne_true
  | literal _ hliteral =>
    exact absurd ((Node.not_literal hnode.literal).symm.trans hliteral) Bool.false_ne_true
  | known _ _ hclass hhas => exact absurd ((hnew _ _ hclass).symm.trans hhas) Bool.false_ne_true
  | forbidden _ _ _ _ hforbidden =>
    exact absurd (hs.allowed.symm.trans hforbidden) Bool.false_ne_true
  | @compiled _ _ _ _ _ fields _ _ _ _ _ _ _ hclass _ _ _ _ _ _ hfields hfinish =>
    have hcomposes : Written.Composes Key Given (fun _ => False) fun _ => True :=
      ⟨fun _ => trivial, fun _ _ => trivial⟩
    have hmark : OrderedMap.get? fields (.str "nullable") = some (.bool true) := by
      obtain ⟨own, both, _, rfl, _⟩ := Node.assemble_parts (Node.literal_falsy hnode.literal) hfields
      rw [get?_annotate_mark, if_pos hs.listed]
    refine ⟨fields, _, _, ⟨?_, ?_⟩, hclass, hfinish⟩
    · exact Node.written_assemble hcomposes hGiven hnode (fun _ _ => trivial) (fun _ _ => trivial)
        hfields
    · unfold OrderedMap.contains
      rw [hmark]
      rfl

/-! ## Containers -/

namespace Container

variable {Name Key : Atom → Prop} {Target : String → Prop} {h : Heap} {v : Value} {s : Schema}
  {c : Container} {fields : Fields}

/-- What a container of a position is made of, if the position gives a schema. -/
theorem made_of_walk {allowUnknown : Bool} (hv : rootSchema v = .ok s)
    (hc : (compile h v allowUnknown).1 = .ok c) : ∃ r after, Walked h s false {} r after ∧
      ∀ schema, r = some schema → c.components = after.created ∧
        c.schema = (if allowUnknown then withUnknown schema else schema) ∧
          ∃ own : Fields, c.schema.spread = .ok own ∧
            expand (.ofEntries (own.set "components" c.components.toValue)) = .ok c.document := by
  obtain ⟨compiled, hagainst, hof⟩ := compile_eq_ok_iff.mp hc
  obtain ⟨r, after, hrun, rfl⟩ := compileAgainst_eq_ok_iff.mp hagainst
  obtain ⟨s', hs', hrun⟩ := runs_compile_iff.mp hrun
  cases hv.symm.trans hs'
  refine ⟨r, after, ⟨_, hrun⟩, ?_⟩
  rintro schema rfl
  obtain ⟨own, document, hspread, hdocument, rfl⟩ := (ofCompiled_eq_ok_iff rfl).mp hof
  exact ⟨rfl, rfl, own, hspread, hdocument⟩

/-- Null passes a document of marked fields exactly if their branches let it through. -/
theorem error_null_of_marked (hfields : MarkedFields Key (fun _ => True) fields)
    {definitions : Value} (hdocument : expand (.ofEntries (fields.set "components" definitions)) = .ok c.document) :
    c.error .null = .ok none ↔
      (c.validator.checkerWithin (c.validator.depthBound .null)).LetsNullThrough fields .full := by
  have hbeside := @MarkedFields.beside _ _ hfields definitions
  obtain ⟨after, hafter, hchecked⟩ := hbeside.checked hdocument
  refine Validator.error_eq_none_iff.trans ?_
  change (Checker.schema _ c.document .full .null).Passes ↔ _
  rw [hafter]
  refine (hbeside.null_passes_iff hchecked).trans (forall₂_congr fun kw hkw => ?_)
  rw [get?_set_of_ne]
  intro heq
  obtain ⟨_, mode, hmode⟩ := hkw.plain
  exact absurd (isSuffix_of_ends (hmode.symm.trans heq.symm)) (by decide)

/-- Data pass a document that is a reference exactly if they pass what it leads to. -/
theorem error_of_reference {x definitions : Value} {t : String} {shown : Fields}
    (hdocument : expand (.ofEntries (Fields.set [(.str "$ref", .str t)] "components" definitions)) =
      .ok c.document) (htarget : Pointer.target c.document (.str t) = .ok (.ofEntries shown)) :
    ∃ depth, c.validator.depthBound x = depth + 1 ∧ (c.error x = .ok none ↔
      ((c.validator.checkerWithin depth).schema (.ofEntries shown) .full x).Passes) := by
  refine ⟨_, rfl, Validator.error_eq_none_iff.trans ?_⟩
  change (Checker.schema (c.validator.checkerWithin (_ + 1)) c.document .full x).Passes ↔ _
  have hkeys : ∀ e ∈ Fields.set [(Atom.str "$ref", Value.str t)] "components" definitions,
      e.1.IsNoMark := by
    intro e he heq
    rcases List.mem_cons.mp he with rfl | hlast
    · exact absurd (Atom.str.inj heq) (by decide)
    · obtain rfl := List.mem_singleton.mp hlast
      exact absurd (Atom.str.inj heq) (by decide)
  obtain ⟨gs, hgs, hall⟩ := NullTypes.expand_of_noMark hkeys hdocument
  rcases hall with _ | @⟨_, ⟨_, target⟩, _, _, ⟨hfirst, hreference⟩,
    _ | @⟨_, ⟨_, kept⟩, _, _, ⟨hsecond, _⟩, _ | _⟩⟩
  dsimp only at hfirst hsecond hreference
  subst hfirst hsecond
  cases hreference
  rw [hgs, Checker.schema, Checker.parts_eq, Outcome.all_map, Outcome.passes_all_iff,
    List.forall_mem_cons, List.forall_mem_singleton]
  -- The definitions are no keyword.
  refine (and_iff_left Outcome.passes_valid).trans (Outcome.passes_ofStep_iff.trans ?_)
  constructor
  · rintro ⟨w, hw, hpasses⟩
    cases htarget.symm.trans hw
    exact hpasses
  · exact fun hpasses => ⟨_, htarget, hpasses⟩

/-- A container of a position that lists null accepts null exactly if the branches of its schema let
null through. -/
theorem error_null_iff {allowUnknown : Bool} (hs : h.ListsNull s) (hv : rootSchema v = .ok s)
    (hnode : (h.view s).Supplies Key fun _ => True) (hname : (h.view s).HasClass Atom.IsStep)
    (hc : (compile h v allowUnknown).1 = .ok c) (hholds : c.Holds Name Key (fun _ => True) Target) :
    ∃ (fields : Fields) (depth : Nat), c.resolve c.schema = .ok (.ofEntries fields) ∧
      c.validator.depthBound .null ≤ depth + 1 ∧ (c.error .null = .ok none ↔
        (c.validator.checkerWithin depth).LetsNullThrough fields .full) := by
  obtain ⟨r, after, hrun, hmade⟩ := made_of_walk hv hc
  obtain ⟨fields, _, inner, hfields, hclass, hfinish⟩ :=
    hs.walked supply_true hnode (fun _ _ _ => rfl) hrun
  cases hfinish with
  | plain =>
    obtain ⟨_, hschema, own, hspread, hdocument⟩ := hmade _ rfl
    have hkept : ∃ kept, c.schema = .ofEntries kept ∧ MarkedFields Key (fun _ => True) kept := by
      rw [hschema]
      cases allowUnknown with
      | false => exact ⟨fields, rfl, hfields⟩
      | true => exact ⟨_, rfl, hfields.opened⟩
    obtain ⟨_, hkept, hmarked⟩ := hkept
    rw [hkept] at hspread ⊢
    cases hspread
    exact ⟨own, _, resolve_of_plain hmarked.reference_none, Nat.le_succ _,
      error_null_of_marked hmarked hdocument⟩
  | @define _ _ bucket name hplace hwhat =>
    obtain ⟨⟨_, rfl, hbucket, hbucket'⟩, _, rfl, hname, hname'⟩ := hname _ _ hclass
    cases hplace
    cases hwhat
    obtain ⟨hcomponents, hschema, own, hspread, hdocument⟩ := hmade _ rfl
    have hreference : c.schema = reference bucket name := by
      rw [hschema]
      cases allowUnknown <;> rfl
    have hfound : c.components.find? (.str bucket) (.str name) = some (.ofEntries fields) := by
      rw [hcomponents]
      exact Components.find?_define_self
    obtain ⟨-, shown, hfinds⟩ :=
      hholds.finds ⟨bucket, name, rfl, hbucket, hname, hbucket', hname', hfound⟩
    obtain ⟨checked, rfl, hchecked⟩ := hfields.checked hfinds.checked
    rw [hreference] at hspread
    cases hspread
    obtain ⟨depth, hdepth, hiff⟩ := error_of_reference hdocument hfinds.byPath
    exact ⟨fields, depth, hfinds.byName _ (by rw [hreference]; rfl), hdepth.le,
      hiff.trans (hfields.null_passes_iff hchecked)⟩

/-- Where no schema is literal, no child is named like the mark and classes are named by steps, a
container of a position that lists null accepts null exactly if the branches of its schema let null
through. So does the schema under the key of a child without class that lists null; and data with
null under this key pass the container of the object only if these branches let it through. -/
theorem null_by_branches (hv : rootSchema v = .ok s)
    (hliteral : ∀ t, h.Reaches s t → (h.view t).literal.isNull = true)
    (hkeys : ∀ t, h.Reaches s t → ∀ e ∈ (h.view t).children, e.1.IsNoMark)
    (hnames : ∀ t, h.Reaches s t → (h.view t).HasClass Atom.IsStep) {allowUnknown : Bool}
    (hc : (compile h v allowUnknown).1 = .ok c) :
    (h.ListsNull s → ∃ (fields : Fields) (depth : Nat),
      c.resolve c.schema = .ok (.ofEntries fields) ∧
        c.validator.depthBound .null ≤ depth + 1 ∧ (c.error .null = .ok none ↔
          (c.validator.checkerWithin depth).LetsNullThrough fields .full)) ∧
    (h.Direct s → ∀ k t, (k, t) ∈ (h.view s).children → h.ListsNull t →
      (h.view t).class? = .ok none → ∃ properties fields : Fields,
        c.properties = .ok (.ofEntries properties) ∧ (k, .ofEntries fields) ∈ properties ∧
          (∃ shown, expand (.ofEntries fields) = .ok shown ∧ ∀ (checker : Checker) extent,
            (checker.schema shown extent .null).Passes ↔ checker.LetsNullThrough fields extent) ∧
          ∀ (es : Fields) identity, OrderedMap.get? es k = some .null →
            c.error (.map es identity) = .ok none → ∃ depth,
              (c.validator.checkerWithin depth).LetsNullThrough fields .full) := by
  have hnode : ∀ t, h.Reaches s t → (h.view t).Supplies Atom.IsNoMark fun _ => True :=
    fun t ht => ⟨hliteral t ht, fun _ _ => trivial, hkeys t ht⟩
  obtain ⟨Target, hholds, hreaches⟩ := holds_reaching hv hliteral hkeys hnames hc
  refine ⟨fun hs => error_null_iff hs hv (hnode s .refl) (hnames s .refl) hc hholds, ?_⟩
  intro hs k t hmem ht hclass
  obtain ⟨outcomes, hproperties, hall⟩ := shown_of_direct hc (ofValue_of_rootSchema hv) hs
  obtain ⟨r, ⟨ctx, after, hrun⟩, hshown⟩ := mem_shownChildren hall hmem
  have hpart : t ∈ Kind.parts .object (h.view s) :=
    List.mem_append_left _ (List.mem_map_of_mem hmem)
  have hbelow : h.Reaches s t := .tail .refl (.inl (Kind.mem_parts hpart))
  have hnew : ∀ bucket name, (h.view t).class? = .ok (some (bucket, name)) →
      ctx.has bucket name = false := fun _ _ hsome => nomatch hclass.symm.trans hsome
  obtain ⟨fields, found, inner, hfields, hfound, hfinish⟩ :=
    ht.walked supply_true (hnode t hbelow) hnew hrun
  cases hclass.symm.trans hfound
  cases hfinish with
  | plain =>
    have hproperty := hshown _ rfl
    obtain ⟨ps, hps, hadmit⟩ := hholds.properties_admit hreaches
    cases hproperties.symm.trans hps
    obtain ⟨-, ⟨shown, hexpand⟩, hdata⟩ := hadmit _ hproperty
    obtain ⟨checked, rfl, hchecked⟩ := hfields.checked hexpand
    refine ⟨_, fields, hproperties, hproperty, ⟨_, hexpand, fun checker extent =>
      hfields.null_passes_iff hchecked⟩, fun es identity hnull hvalid => ?_⟩
    obtain ⟨w, depth, hw, hpasses⟩ :=
      hdata es identity (Validator.error_eq_none_iff.mp hvalid) _ hnull
    cases hexpand.symm.trans hw
    exact ⟨depth, (hfields.null_passes_iff hchecked).mp hpasses⟩

end Container

/-- Text, a note that is text or null, alternatives of one or the other that list null, text under a
condition that lists null, and objects with these notes. -/
def noteHeap : Heap where
  nodes := #[{ kind := "string" }, { kind := "string", valids := [.null] },
    { kind := "alternatives", choices := [.schema (.node 0)], valids := [.null] },
    { kind := "alternatives", choices := [.schema (.node 0), .schema (.node 1)], valids := [.null] },
    { kind := "string", valids := [.null],
      whens := [{ condition := .str "kind", consequent := some (.node 0) }] },
    { kind := "object", children := [(.str "note", .node 2)] },
    { kind := "object", children := [(.str "note", .node 3)] },
    { kind := "object", children := [(.str "note", .node 4)] }]

/-- Below an object with a note of either kind nothing is literal, named like the mark or a class. -/
theorem noteHeap_named {id : NodeId} {t : Schema} (hid : id ≤ 6)
    (ht : noteHeap.Reaches (.node id) t) : (noteHeap.view t).literal.isNull = true ∧
      (∀ e ∈ (noteHeap.view t).children, e.1.IsNoMark) ∧ (noteHeap.view t).class? = .ok none := by
  have hnote : ∀ {s : Schema}, ∀ e ∈ [(Atom.str "note", s)], e.1.IsNoMark :=
    List.forall_mem_cons.mpr ⟨fun heq => absurd (Atom.str.inj heq) (by decide), nofun⟩
  obtain ⟨j, hj, rfl⟩ := (Heap.descends_of_nodes (by decide) : noteHeap.Descends).reaches ht
  have hbound : j < 7 := Nat.lt_succ_of_le (hj.trans hid)
  rcases j with _ | _ | _ | _ | _ | _ | _ | j
  · exact ⟨rfl, nofun, rfl⟩
  · exact ⟨rfl, nofun, rfl⟩
  · exact ⟨rfl, nofun, rfl⟩
  · exact ⟨rfl, nofun, rfl⟩
  · exact ⟨rfl, nofun, rfl⟩
  · exact ⟨rfl, hnote, rfl⟩
  · exact ⟨rfl, hnote, rfl⟩
  · exact absurd hbound (Nat.not_lt.mpr (Nat.le_add_left 7 j))

theorem noteHeap_direct : noteHeap.Direct (.node 6) where
  override := rfl
  literal := rfl
  properties htruthy := nomatch htruthy
  reference htruthy := nomatch htruthy
  allowed := rfl
  kind := rfl
  keys := List.pairwise_singleton _ _
  classed htruthy := nomatch htruthy

/-- A note with a branch that lists null may be null, by itself and in an object. -/
theorem Container.null_by_branches_note :
    (∃ c fields depth, (compile noteHeap (.node 3) false).1 = .ok c ∧
      c.resolve c.schema = .ok (.ofEntries fields) ∧
        (c.validator.checkerWithin depth).LetsNullThrough fields .full) ∧
    ∃ c properties fields depth, (compile noteHeap (.node 6) false).1 = .ok c ∧
      c.properties = .ok (.ofEntries properties) ∧ (.str "note", .ofEntries fields) ∈ properties ∧
        (c.validator.checkerWithin depth).LetsNullThrough fields .full := by
  have hlists : noteHeap.ListsNull (.node 3) := ⟨rfl, rfl, rfl⟩
  have hvalid : ((compile noteHeap (.node 3) false).1 >>= fun c => c.error .null).toOption =
      some none := by decide +kernel
  have hvalid' : ((compile noteHeap (.node 6) false).1 >>= fun c =>
      c.error (.ofFields [("note", .null)])).toOption = some none := by decide +kernel
  obtain ⟨c, hc, hnull⟩ := bind_eq_ok_iff.mp (eq_ok_of_toOption hvalid)
  obtain ⟨c', hc', hnull'⟩ := bind_eq_ok_iff.mp (eq_ok_of_toOption hvalid')
  constructor
  · obtain ⟨hself, -⟩ := null_by_branches rfl (fun _ ht => (noteHeap_named (by decide) ht).1)
      (fun _ ht => (noteHeap_named (by decide) ht).2.1)
      (fun _ ht => .of_none (noteHeap_named (by decide) ht).2.2) hc
    obtain ⟨fields, depth, hresolve, -, hiff⟩ := hself hlists
    exact ⟨c, fields, depth, hc, hresolve, hiff.mp hnull⟩
  · obtain ⟨-, hchild⟩ := null_by_branches rfl (fun _ ht => (noteHeap_named (by decide) ht).1)
      (fun _ ht => (noteHeap_named (by decide) ht).2.1)
      (fun _ ht => .of_none (noteHeap_named (by decide) ht).2.2) hc'
    obtain ⟨properties, fields, hproperties, hmem, -, hdata⟩ :=
      hchild noteHeap_direct _ _ List.mem_cons_self hlists rfl
    obtain ⟨depth, hthrough⟩ := hdata [(.str "note", .null)] none rfl hnull'
    exact ⟨c', properties, fields, depth, hc', hproperties, hmem, hthrough⟩

/-- Alternatives and a text under a condition list null, and null is refused for both, by themselves
and in objects, as their only branch is for texts. -/
theorem Container.null_refused :
    noteHeap.ListsNull (.node 2) ∧ noteHeap.ListsNull (.node 4) ∧
    ∀ p ∈ [(2, Value.null), (4, .null), (5, .ofFields [("note", .null)]),
        (7, .ofFields [("note", .null)])], ∃ c message,
      (compile noteHeap (.node p.1) false).1 = .ok c ∧ c.error p.2 = .ok (some message) := by
  have hrefuses : ∀ {id : NodeId} {x : Value} {message : String},
      ((compile noteHeap (.node id) false).1 >>= fun c => c.error x).toOption =
        some (some message) → ∃ c message, (compile noteHeap (.node id) false).1 = .ok c ∧
          c.error x = .ok (some message) := by
    intro id x message h
    obtain ⟨c, hc, hmessage⟩ := bind_eq_ok_iff.mp (eq_ok_of_toOption h)
    exact ⟨c, message, hc, hmessage⟩
  refine ⟨⟨rfl, rfl, rfl⟩, ⟨rfl, rfl, rfl⟩, ?_⟩
  simp only [List.forall_mem_cons]
  refine ⟨@hrefuses 2 _ "None is not of type 'string'" (by decide +kernel),
    @hrefuses 4 _ "None is not of type 'string'" (by decide +kernel),
    @hrefuses 5 _ "note: None is not of type 'string'" (by decide +kernel),
    @hrefuses 7 _ "note: None is not of type 'string'" (by decide +kernel), nofun⟩

end WireShape
