import WireShape.Proofs.Formed.Lookups
import WireShape.Proofs.Validation.Passing

/-!
# Valid data are kept

Coercion reads the type of a property, through at most one reference, and goes through lists. Where
it would put a number or a boolean in place of a text, the check asks for that type at the same place
and refuses the text. So data that pass as they are come out of coercion as they went in, at every
depth of lists, as long as coercion and checks look up the same definitions and no key is taken for
the mark of nullable schemas.

* `Container.Admits`: data that pass the checked form of a schema.
* `Container.Holds.coerceValue_fixed`: a value that passes a schema is kept.
* `Container.coerce_fixed`: data that pass a container are kept.
-/

namespace WireShape

open Value (Fields)
open NullTypes (EntriesExpand expand admittingNullIf)

/-! ## Coercion of values -/

namespace Coercion

variable {resolve : Resolve} {schema x : Value} {fields : Fields} {identity : Option Nat}

/-- Without a type nothing is coerced. -/
theorem coerceValue_untyped (htype : schema.getField "type" = .ok .null) :
    coerceValue resolve x schema = .ok x := by
  unfold coerceValue
  split <;> (rw [htype]; rfl)

theorem coerceItems_fixed {xs : List Value}
    (hxs : ∀ x ∈ xs, coerceValue resolve x schema = .ok x) :
    coerceItems resolve xs schema = .ok xs := by
  induction xs with
  | nil => rfl
  | cons x xs ih =>
    rw [coerceItems, hxs x List.mem_cons_self, ih fun y hy => hxs y (List.mem_cons_of_mem _ hy)]
    rfl

/-- A text is of none of the types that are coerced, whether null is admitted or not. -/
theorem not_fitsType_text {t s : String} (ht : t ∈ ["integer", "number", "boolean"]) (marked : Bool)
    {names : List Value}
    (hnames : Assertion.listedTypes (admittingNullIf marked "type" (.str t)) = .ok names) :
    names.anyM (fun name => Assertion.fitsType name (.str s)) ≠ .ok true := by
  simp only [List.mem_cons, List.not_mem_nil, or_false] at ht
  rcases ht with rfl | rfl | rfl <;> cases marked <;> cases hnames <;> exact nofun

/-- Text that passes the type that is asked for is kept. -/
theorem coerceText_of_passes {Key : Atom → Prop} {Given : Value → Prop} {Target : String → Prop}
    {c : Checker} {w : Value} {s : String} {extent : Extent}
    (hformed : Formed Key Given Target (.map fields identity))
    (hw : expand (.map fields identity) = .ok w) (hpasses : (c.schema w extent (.str s)).Passes) :
    coerceText ((OrderedMap.get? fields (.str "type")).getD .null) s = .str s := by
  cases hget : OrderedMap.get? fields (.str "type") with
  | none => rfl
  | some v =>
    obtain ⟨t, _, rfl, _⟩ := (hformed.written hget).form
    obtain ⟨after, rfl, hchecked⟩ := hformed.checked hw
    have hkept : t ∉ ["integer", "number", "boolean"] := by
      intro ht
      rcases NullTypes.rel_cases (hchecked.found "type" (by decide)) with
        ⟨hnone, _⟩ | ⟨_, _, hsome, hasked, _, hexpand, rfl⟩
      · cases hnone.symm.trans hget
      · cases hsome.symm.trans hget
        cases hexpand
        have htype := (Checker.passes_schema_iff hchecked.tidy).mp hpasses .type _ hasked
        obtain ⟨names, hnames, hany⟩ :=
          Assertion.type_eq_none (Checker.passes_outcome_iff.mp htype)
        exact not_fitsType_text ht _ hnames hany
    unfold coerceText
    rw [Option.getD_some]
    dsimp only
    split
    · rename_i heq
      cases heq
      exact absurd (by decide) hkept
    · rename_i heq
      cases heq
      exact absurd (by decide) hkept
    · rename_i heq
      cases heq
      exact absurd (by decide) hkept
    · rfl

end Coercion

/-! ## Values that pass -/

namespace Container

variable {Name Key : Atom → Prop} {Target : String → Prop} {c : Container}
  {fields : Fields} {identity : Option Nat} {u x : Value}

/-- A datum passes the checked form of a schema, with references nested to some depth. -/
def Admits (c : Container) (u x : Value) : Prop :=
  ∃ w depth, expand u = .ok w ∧ ((c.validator.checkerWithin depth).schema w .full x).Passes

/-- A datum that passes a formed schema passes its keywords. -/
theorem Admits.keyword (h : c.Admits (.map fields identity) x)
    (hformed : Formed Key (fun _ => True) Target (.map fields identity)) (kw : Keyword)
    (hkw : kw.name ∉ ["nullable", "type", "enum"]) {v : Value}
    (hv : OrderedMap.get? fields (.str kw.name) = some v) :
    ∃ after w depth, expand v = .ok w ∧
      ((c.validator.checkerWithin depth).keyword kw after
        ((c.validator.checkerWithin depth).partOf w) .full x).Passes := by
  obtain ⟨w, depth, hw, hpasses⟩ := h
  obtain ⟨after, rfl, hchecked⟩ := hformed.checked hw
  obtain ⟨w, hexpand, hget⟩ := hchecked.get? hkw hv
  exact ⟨_, w, depth, hexpand, (Checker.passes_schema_iff hchecked.tidy).mp hpasses kw w hget⟩

/-- What a formed schema describes is formed, and has a checked form if the schema has one. What
stands under a described key of a mapping that passes the schema passes the schema of the key. -/
theorem described {ps : Fields}
    (hu : Formed Atom.IsNoMark (fun _ => True) Target (.map fields identity))
    (hps : OrderedMap.get? fields (.str "properties") = some (.ofEntries ps)) {p : Atom × Value}
    (hp : p ∈ ps) : Formed Atom.IsNoMark (fun _ => True) Target p.2 ∧
      (NullTypes.Expands (.map fields identity) → NullTypes.Expands p.2) ∧
        ∀ (es : Fields) identity', c.Admits (.map fields identity) (.map es identity') →
          ∀ v, OrderedMap.get? es p.1 = some v → c.Admits p.2 v := by
  obtain ⟨_, heq, hkeys⟩ := (hu.written hps).form
  cases heq
  have hentry : ∀ {w : Value}, expand (.ofEntries ps) = .ok w → ∃ gs : Fields, w = .ofEntries gs ∧
      ∃ g ∈ gs, g.1 = p.1 ∧ expand p.2 = .ok g.2 := by
    intro w hw
    obtain ⟨gs, rfl, hall⟩ := NullTypes.expand_of_noMark (fun e he => (hkeys e he).1) hw
    obtain ⟨g, hg, hkey, hexpand⟩ := forall₂_left hall hp
    exact ⟨gs, rfl, g, hg, hkey, hexpand⟩
  refine ⟨(hkeys p hp).2, fun ⟨w, hw⟩ => ?_, fun es identity' hx v hv => ?_⟩
  · obtain ⟨after, rfl, hchecked⟩ := hu.checked hw
    obtain ⟨w, hexpand, _⟩ := hchecked.get? (by decide) hps
    obtain ⟨_, _, g, _, _, hg⟩ := hentry hexpand
    exact ⟨g.2, hg⟩
  · obtain ⟨after, w, depth, hexpand, hpasses⟩ := hx.keyword hu .properties (by decide) hps
    obtain ⟨gs, rfl, g, hg, hkey, hw⟩ := hentry hexpand
    have hfound : (Checker.properties ((c.validator.checkerWithin depth).fieldsOf (.ofEntries gs))
        .full (.map es identity')).Passes := hpasses
    exact ⟨g.2, depth, hw, Checker.passes_properties_iff.mp hfound g hg v (by rwa [hkey])⟩

variable (hc : c.Holds Name Key (fun _ => True) Target)
  (hreaches : ∀ t, Target t → ∃ d, c.components.Reaches t d)
include hc hreaches

/-- Every formed schema is resolved to one that admits whatever it admits, and that has a checked
form if it has one. -/
theorem Holds.resolve_admits (hu : Formed Key (fun _ => True) Target u) :
    ∃ u', c.resolve u = .ok u' ∧ Formed Key (fun _ => True) Target u' ∧
      (NullTypes.Expands u → NullTypes.Expands u') ∧ ∀ x, c.Admits u x → c.Admits u' x := by
  cases u with
  | map fields identity =>
    cases hget : OrderedMap.get? fields (.str "$ref") with
    | none => exact ⟨_, resolve_of_plain hget, hu, id, fun _ hx => hx⟩
    | some r =>
      obtain ⟨t, rfl, ht⟩ := (hu.written hget).form
      obtain ⟨d, hd⟩ := hreaches t ht
      obtain ⟨hformed, shown, hfinds⟩ := hc.finds hd
      refine ⟨d, hfinds.byName _ hget, hformed, fun _ => ⟨shown, hfinds.checked⟩, fun x hx => ?_⟩
      obtain ⟨after, w, depth, hexpand, hpasses⟩ := hx.keyword hu .reference (by decide) hget
      cases hexpand
      cases depth with
      | zero => exact absurd hpasses Outcome.not_passes_failed
      | succ depth =>
        obtain ⟨target, htarget, hpasses⟩ := Outcome.passes_ofStep_iff.mp hpasses
        cases hfinds.byPath.symm.trans htarget
        refine ⟨_, depth, hfinds.checked, ?_⟩
        cases d with
        | map es identity' =>
          obtain ⟨after', rfl, _⟩ := hformed.checked hfinds.checked
          exact hpasses
        | _ => cases hformed
  | _ => cases hu

/-- The elements of a list that passes a formed schema are kept by coercion under its items. -/
theorem Holds.coerceItems_fixed {xs : List Value}
    (hu : Formed Key (fun _ => True) Target (.map fields identity))
    (hx : c.Admits (.map fields identity) (.list xs))
    (hxs : ∀ x ∈ xs, ∀ u, Formed Key (fun _ => True) Target u → c.Admits u x →
      Coercion.coerceValue c.resolve x u = .ok x) : ∃ items,
      c.resolve (((OrderedMap.get? fields (.str "items")).getD .null).orElse (.ofEntries [])) =
        .ok items ∧ Coercion.coerceItems c.resolve xs items = .ok xs := by
  have hnone : ∃ items, c.resolve (.ofEntries []) = .ok items ∧
      Coercion.coerceItems c.resolve xs items = .ok xs :=
    ⟨_, resolve_of_plain rfl, Coercion.coerceItems_fixed fun x _ => Coercion.coerceValue_untyped rfl⟩
  cases hget : OrderedMap.get? fields (.str "items") with
  | none => exact hnone
  | some v =>
    rw [Option.getD_some, Value.orElse]
    split
    · have hformed : Formed Key (fun _ => True) Target v := (hu.written hget).form
      obtain ⟨items, hresolve, hitems, -, hadmits⟩ := hc.resolve_admits hreaches hformed
      refine ⟨items, hresolve, Coercion.coerceItems_fixed fun x hmem => hxs x hmem items hitems ?_⟩
      refine hadmits x ?_
      obtain ⟨after, w, depth, hexpand, hpasses⟩ := hx.keyword hu .items (by decide) hget
      have hopen : w.isFalse = false := by
        cases v with
        | map es identity' =>
          obtain ⟨after', rfl, _⟩ := hformed.checked hexpand
          rfl
        | _ => cases hformed
      exact ⟨w, depth, hexpand, (Checker.passes_items_iff hopen).mp hpasses x hmem⟩
    · exact hnone

/-- A value that passes a formed schema is kept by coercion under it. -/
theorem Holds.coerceValue_fixed (hu : Formed Key (fun _ => True) Target u) (hx : c.Admits u x) :
    Coercion.coerceValue c.resolve x u = .ok x := by
  induction hsize : sizeOf x using Nat.strong_induction_on generalizing x u with
  | _ size ih =>
    cases u with
    | map fields identity =>
      have htype : (Value.map fields identity).getField "type" =
          .ok ((OrderedMap.get? fields (.str "type")).getD .null) := rfl
      unfold Coercion.coerceValue
      split
      · rename_i xs
        obtain ⟨items, hresolve, hitems⟩ := hc.coerceItems_fixed hreaches hu hx
          fun x hmem u hu hx => by
            have hsmall : sizeOf x < sizeOf xs := List.sizeOf_lt_of_mem hmem
            exact ih _ (by rw [← hsize, Value.list.sizeOf_spec]; omega) hu hx rfl
        have hasked : (Value.map fields identity).getField "items" =
            .ok ((OrderedMap.get? fields (.str "items")).getD .null) := rfl
        rw [htype]
        simp only [bind, Except.bind]
        split
        · simp only [hasked, hresolve, hitems]
          rfl
        · rfl
      · rename_i s
        obtain ⟨w, depth, hw, hpasses⟩ := hx
        rw [htype]
        exact congrArg (fun v => Except.ok v) (Coercion.coerceText_of_passes hu hw hpasses)
      · rfl
    | _ => cases hu

/-! ## Data that pass -/

/-- An entry under a key that is described, if it passes, is kept, and so are all others. -/
theorem Holds.coerceEntry_fixed {ps es : Fields} (hes : OrderedMap.Separate es)
    (hps : ∀ p ∈ ps, Formed Key (fun _ => True) Target p.2 ∧
      ∀ v, OrderedMap.get? es p.1 = some v → c.Admits p.2 v) {e : Atom × Value} (he : e ∈ es) :
    c.coerceEntry (.ofEntries ps) e.1 e.2 = .ok e.2 := by
  have hholds : (Value.ofEntries ps).holds (.atom e.1) = .ok (OrderedMap.contains ps e.1) := rfl
  unfold coerceEntry
  rw [hholds]
  simp only [bind, Except.bind]
  split
  · rename_i hdescribed
    obtain ⟨schema, hschema⟩ := Option.isSome_iff_exists.mp hdescribed
    have hitem : (Value.ofEntries ps).item c.describe (.atom e.1) = .ok schema := by
      unfold Value.item
      simp only [Value.asKey, bind, Except.bind, hschema]
      rfl
    obtain ⟨k, hmem, hkey⟩ := OrderedMap.mem_of_get? hschema
    obtain ⟨hformed, hadmits⟩ := hps _ hmem
    have hx := hadmits e.2 (hes.get? he (BEq.symm hkey))
    obtain ⟨u, hresolve, hu, -, hadmits'⟩ := hc.resolve_admits hreaches hformed
    simp only [hitem, hresolve]
    exact hc.coerceValue_fixed hreaches hu (hadmits' _ hx)
  · rfl

omit hc in
/-- A container describes properties by schemas with a checked form. Data that pass the container
have under these keys what passes their schemas. -/
theorem Holds.properties_admit (hc : c.Holds Name Atom.IsNoMark (fun _ => True) Target) :
    ∃ ps : Fields, c.properties = .ok (.ofEntries ps) ∧ ∀ p ∈ ps,
      Formed Atom.IsNoMark (fun _ => True) Target p.2 ∧ NullTypes.Expands p.2 ∧
        ∀ (es : Fields) identity, (c.validator.check (.map es identity)).Passes →
          ∀ v, OrderedMap.get? es p.1 = some v → c.Admits p.2 v := by
  obtain ⟨fields, identity, hschema, hroot, hdocument⟩ := hc.root
  obtain ⟨u, hresolve, hu, hexpands, hadmits⟩ := hc.resolve_admits hreaches hroot
  have hget : ∀ name, name ≠ "components" →
      OrderedMap.get? (fields.set "components" c.components.toValue) (.str name) =
        OrderedMap.get? fields (.str name) :=
    fun name hname => NullTypes.get?_set.trans (if_neg hname.symm)
  -- The schema with its definitions beside it describes what it describes without them.
  have hown : ∃ (own : Fields) (identity : Option Nat),
      c.resolve c.schema = .ok (.map own identity) ∧
        OrderedMap.get? own (.str "properties") = u.field? "properties" := by
    rw [hschema]
    cases href : OrderedMap.get? fields (.str "$ref") with
    | none =>
      cases (resolve_of_plain ((hget "$ref" (by decide)).trans href)).symm.trans hresolve
      exact ⟨_, _, resolve_of_plain href, (hget "properties" (by decide)).symm⟩
    | some r =>
      have href' := (hget "$ref" (by decide)).trans href
      obtain ⟨t, rfl, ht⟩ := (hroot.written href').form
      obtain ⟨d, hd⟩ := hreaches t ht
      obtain ⟨-, shown, hfinds⟩ := hc.finds hd
      cases (hfinds.byName (.ofEntries _) href').symm.trans hresolve
      cases u with
      | map own identity' => exact ⟨own, identity', hfinds.byName _ href, rfl⟩
      | _ => cases hu
  obtain ⟨own, identity', hresolved, hproperties⟩ := hown
  cases u with
  | map found identity'' =>
    cases hdescribed : OrderedMap.get? found (.str "properties") with
    | none =>
      refine ⟨[], ?_, nofun⟩
      have hnone : OrderedMap.get? own (.str "properties") = none := hproperties.trans hdescribed
      unfold Container.properties Value.getField
      rw [hresolved]
      simp only [bind, Except.bind, Value.get, hnone]
      rfl
    | some v =>
      obtain ⟨ps, rfl, _⟩ := (hu.written hdescribed).form
      refine ⟨ps, properties_of_resolve hresolved (hproperties.trans hdescribed), fun p hp => ?_⟩
      obtain ⟨hformed, hchecked, hkept⟩ := described hu hdescribed hp
      exact ⟨hformed, hchecked (hexpands ⟨_, hdocument⟩), fun es identity hpasses =>
        hkept es identity (hadmits _ ⟨_, _, hdocument, hpasses⟩)⟩
  | _ => cases hu

end Container

/-- Where no schema is literal, no child is named like the mark, and buckets and names are steps of
their own, data that pass a container as they are are kept by its coercion. -/
theorem Container.coerce_fixed {h : Heap} {v : Value} {s : Schema} (hv : rootSchema v = .ok s)
    (hliteral : ∀ t, h.Reaches s t → (h.view t).literal.isNull = true)
    (hkeys : ∀ t, h.Reaches s t → ∀ e ∈ (h.view t).children, e.1.IsNoMark)
    (hnames : ∀ t, h.Reaches s t → (h.view t).HasClass Atom.IsStep) {allowUnknown : Bool}
    {c : Container} (hc : (compile h v allowUnknown).1 = .ok c) {es : OrderedMap Atom Value}
    {identity : Option Nat} (hes : OrderedMap.Separate es)
    (hvalid : c.error (.map es identity) = .ok none) :
    c.coerce (.map es identity) = .ok (.ofEntries es) := by
  obtain ⟨Target, hholds, hreaches⟩ := holds_reaching hv hliteral hkeys hnames hc
  obtain ⟨ps, hproperties, hps⟩ := hholds.properties_admit hreaches
  have hadmits : ∀ p ∈ ps, Formed Atom.IsNoMark (fun _ => True) Target p.2 ∧
      ∀ v, OrderedMap.get? es p.1 = some v → c.Admits p.2 v := by
    intro p hp
    obtain ⟨hformed, -, hkept⟩ := hps p hp
    exact ⟨hformed, hkept es identity (Validator.error_eq_none_iff.mp hvalid)⟩
  have hentries : es.mapM (fun e => do return (e.1, ← c.coerceEntry (.ofEntries ps) e.1 e.2)) =
      .ok es := by
    refine mapM_eq_ok_iff.mpr (List.forall₂_same.mpr fun e he => ?_)
    rw [hholds.coerceEntry_fixed hreaches hes hadmits he]
    rfl
  unfold coerce
  rw [hproperties]
  change (es.mapM (fun e => do return (e.1, ← c.coerceEntry (.ofEntries ps) e.1 e.2)) >>=
    fun entries => .ok (Value.ofEntries entries)) = _
  rw [hentries]
  rfl

/-- A hall with rows of integers and a seat under a class with an integer in it. -/
def hallHeap : Heap where
  nodes := #[{ kind := "number", rules := [.integer] },
    { kind := "array", items := [.node 0] },
    { kind := "array", items := [.node 1] },
    { kind := "object", children := [(.str "row", .node 0)],
      metadata := [(.str "className", .str "Seat")] },
    { kind := "object", children := [(.str "rows", .node 2), (.str "seat", .node 3)] }]

theorem hallHeap_descends : hallHeap.Descends := Heap.descends_of_nodes (by decide)

/-- The nodes of the hall are not literal, their children are not named like the mark, and the seat
has a plain name. -/
theorem hallHeap_named {t : Schema} (ht : hallHeap.Reaches (.node 4) t) :
    (hallHeap.view t).literal.isNull = true ∧
      (∀ e ∈ (hallHeap.view t).children, e.1.IsNoMark) ∧
        (hallHeap.view t).HasClass Atom.IsStep := by
  have hkey : ∀ {s : String}, s ≠ "nullable" → (Atom.str s).IsNoMark :=
    fun hne heq => hne (Atom.str.inj heq)
  obtain ⟨j, hj, rfl⟩ := hallHeap_descends.reaches ht
  rcases j with _ | _ | _ | _ | _ | j
  · exact ⟨rfl, nofun, .of_none rfl⟩
  · exact ⟨rfl, nofun, .of_none rfl⟩
  · exact ⟨rfl, nofun, .of_none rfl⟩
  · exact ⟨rfl, List.forall_mem_cons.mpr ⟨hkey (by decide), nofun⟩,
      .of_some rfl ⟨_, rfl, rfl, by decide⟩ ⟨_, rfl, rfl, by decide⟩⟩
  · exact ⟨rfl, List.forall_mem_cons.mpr ⟨hkey (by decide),
      List.forall_mem_cons.mpr ⟨hkey (by decide), nofun⟩⟩, .of_none rfl⟩
  · exact absurd hj (Nat.not_le.mpr (Nat.le_add_left 5 j))

/-- Rows and a seat that pass are kept. -/
theorem Container.coerce_fixed_hall : ∃ c, (compile hallHeap (.node 4) false).1 = .ok c ∧
    c.coerce (.ofFields [("rows", .list [.list [.int 1, .int 2], .list []]),
      ("seat", .ofFields [("row", .int 3)])]) =
        .ok (.ofFields [("rows", .list [.list [.int 1, .int 2], .list []]),
          ("seat", .ofFields [("row", .int 3)])]) := by
  have hvalid : ((compile hallHeap (.node 4) false).1 >>= fun c =>
      c.error (.ofFields [("rows", .list [.list [.int 1, .int 2], .list []]),
        ("seat", .ofFields [("row", .int 3)])])).toOption = some none := by decide +kernel
  obtain ⟨c, hc, hvalid⟩ := bind_eq_ok_iff.mp (eq_ok_of_toOption hvalid)
  refine ⟨c, hc, coerce_fixed rfl (fun _ ht => (hallHeap_named ht).1)
    (fun _ ht => (hallHeap_named ht).2.1) (fun _ ht => (hallHeap_named ht).2.2) hc ?_ hvalid⟩
  unfold OrderedMap.Separate
  decide

end WireShape
