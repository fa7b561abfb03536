import WireShape.Proofs.Compile.Depth
import WireShape.Proofs.Formed.Checked

/-!
# Field names in checked forms

The checked form of a schema has the properties of the schema, under the same keys and each in its
own checked form, at every depth and in every definition, as long as no key, class or bucket is
named like the mark of nullable schemas. The translation does not tell the keys of properties from
keywords: it takes a property with that name for a mark, drops it, and may even fail for it
(`Container.field_names_lost`).

* `Formed.expands`: a formed schema has a checked form.
* `DescribesAt.leads`: where a schema describes properties, its checked form describes the same ones.
* `Container.field_names`: containers keep the names of fields.
-/

namespace WireShape

open Value (Fields)
open NullTypes (Each Tidy Expands EntriesExpand ShowsExpanded expand)

/-! ## Schemas have checked forms -/

/-- An entry that does not stand in the way of the checked form of its mapping. -/
structure ExpandsUnder (name : String) (v : Value) : Prop extends SettlesMark name v where
  expands : Expands v

/-- Tidy fields of such entries have a checked form. -/
theorem NullTypes.Each.expands {fields : Fields} {identity : Option Nat}
    (h : Each ExpandsUnder fields) : Expands (.map fields identity) := by
  have hes : ∀ e ∈ fields, Expands e.2 := by
    intro e he
    obtain ⟨s, hs⟩ := h.text e he
    exact (h.entries e he s hs).expands
  obtain ⟨after, hafter, _⟩ := (h.mono fun _ _ hv => hv.toSettlesMark).checked_of_expands hes
  exact ⟨_, hafter⟩

/-- What is written has a checked form, if the schemas in it have and all that is supplied has. -/
theorem Written.expandsUnder {Target : String → Prop} {name : String} {v : Value}
    (h : Written Atom.IsNoMark Expands Target Expands name v) : ExpandsUnder name v := by
  refine ⟨h.settlesMark, ?_⟩
  have hscalars : ∀ {xs : List Value}, (∀ x ∈ xs, x.IsScalar) → Expands (.list xs) :=
    fun hxs => ⟨_, NullTypes.expand_atoms fun x hx => (hxs x hx).atom⟩
  cases h with
  | choices hxs => exact hscalars hxs
  | denied _ hs => exact hs
  | required keys =>
    refine ⟨_, NullTypes.expand_atoms fun x hx => ?_⟩
    obtain ⟨k, _, rfl⟩ := List.mem_map.mp hx
    exact ⟨k, rfl⟩
  | properties hes =>
    exact NullTypes.expands_of_noMark (fun e he => (hes e he).1) fun e he => (hes e he).2
  | additional hv | items hv => exact hv
  | branches hxs =>
    obtain ⟨ys, hys, _⟩ := NullTypes.expandItems_ok hxs
    exact ⟨.list ys, by rw [expand, hys]; rfl⟩
  | supplied _ hv => exact hv
  | _ => exact ⟨_, rfl⟩

/-- A formed schema has a checked form, if all that is supplied has. -/
theorem Formed.expands {Target : String → Prop} {v : Value}
    (h : Formed Atom.IsNoMark Expands Target v) : Expands v := by
  induction h with
  | @intro fields identity htidy hwritten _ ih =>
    refine NullTypes.Each.expands ⟨htidy, fun e he s hs => ?_⟩
    obtain ⟨k, v⟩ := e
    cases hs
    have hget := htidy.separate.get? he (Atom.beq_str_iff.mpr rfl)
    exact ((hwritten s v hget).of_inside fun steps u hu => ih s v steps u hget hu).expandsUnder

theorem supply_expands : Supply Expands :=
  ⟨fun a _ => ⟨.atom a, rfl⟩, fun hxs => by
    obtain ⟨ys, hys, _⟩ := NullTypes.expandItems_ok hxs
    exact ⟨.list ys, by rw [expand, hys]; rfl⟩⟩

/-! ## Properties are found again -/

/-- Mappings of properties, at any depth of a schema, and the way to them. -/
def DescribesAt (v : Value) (path : List Atom) (p : Value) : Prop :=
  ∃ u, SchemaAt v path u ∧ u.field? "properties" = some p

/-- All properties that a schema describes, at any depth, are under keys that are no mark. -/
def DescribesNoMark (v : Value) : Prop :=
  ∀ path p, DescribesAt v path p → ∃ es : Fields, p = .ofEntries es ∧ ∀ e ∈ es, e.1.IsNoMark

section Describes

variable {v w p : Value} {fields after : Fields} {path : List Atom}

theorem Formed.describesNoMark {Given : Value → Prop} {Target : String → Prop}
    (h : Formed Atom.IsNoMark Given Target v) : DescribesNoMark v := by
  rintro path p ⟨u, hu, hp⟩
  have hformed := h.schemaAt hu
  cases u with
  | map fields identity =>
    obtain ⟨es, rfl, hes⟩ := (hformed.written hp).form
    exact ⟨es, rfl, fun e he => (hes e he).1⟩
  | _ => cases hp

/-- What a schema describes, it describes with definitions beside it. -/
theorem DescribesAt.set_components {identity identity' : Option Nat} {x : Value}
    (h : DescribesAt (.map fields identity) path p) :
    DescribesAt (.map (fields.set "components" x) identity') path p := by
  have hget : ∀ {name : String}, name ≠ "components" →
      OrderedMap.get? (fields.set "components" x) (.str name) =
        OrderedMap.get? fields (.str name) :=
    fun hname => NullTypes.get?_set.trans (if_neg hname.symm)
  obtain ⟨u, hu, hp⟩ := h
  cases hu with
  | here => exact ⟨_, .here, (hget (by decide)).trans hp⟩
  | inside hvalue hinside hw =>
    have hname := hinside.ne_of "components" (by decide) (by decide)
    exact ⟨u, .inside ((hget hname).trans hvalue) hinside hw, hp⟩

/-- Where a schema stands in a value under a name, its checked form stands in the checked form. -/
theorem Inside.leads {name : String} {value u : Value} {steps : List Atom}
    (hu : Inside name value steps u) (hw : expand value = .ok w)
    (hkeys : name = "properties" → ∃ es : Fields, value = .ofEntries es ∧ ∀ e ∈ es, e.1.IsNoMark) :
    ∃ x, w.Leads steps x ∧ expand u = .ok x := by
  cases hu with
  | property he =>
    obtain ⟨es, heq, hes⟩ := hkeys rfl
    cases heq
    obtain ⟨gs, rfl, hall⟩ := NullTypes.expand_of_noMark hes hw
    obtain ⟨⟨k, x⟩, hg, hkey, hx⟩ := forall₂_left hall he
    cases hkey
    exact ⟨x, .field hg .here, hx⟩
  | branch hx =>
    rw [expand] at hw
    obtain ⟨ys, hys, hpure⟩ := bind_eq_ok_iff.mp hw
    cases hpure
    rcases NullTypes.rel_cases (NullTypes.getElem?_expandItems hys _) with
      ⟨hnone, _⟩ | ⟨_, y, hx', hy, hexpand⟩
    · cases hnone.symm.trans hx
    · cases hx'.symm.trans hx
      exact ⟨y, .item hy .here, hexpand⟩
  | _ => exact ⟨w, .here, hw⟩

/-- The properties that a schema describes somewhere are found at the same place of its checked
form, under the same keys and each in its own checked form. -/
theorem DescribesAt.leads (h : DescribesAt v path p) (hv : DescribesNoMark v)
    (hw : expand v = .ok w) : ∃ es after : Fields, p = .ofEntries es ∧
      w.Leads (path ++ [.str "properties"]) (.ofEntries after) ∧ EntriesExpand es after := by
  obtain ⟨u, hu, hp⟩ := h
  induction hu generalizing w with
  | @here v =>
    obtain ⟨es, rfl, hes⟩ := hv [] p ⟨v, .here, hp⟩
    cases v with
    | map fields identity =>
      obtain ⟨after, rfl, hshown⟩ := NullTypes.expand_map hw
      obtain ⟨x, hx, hfound⟩ := hshown.found _ _ hp rfl
      obtain ⟨gs, rfl, hall⟩ := NullTypes.expand_of_noMark hes hx
      obtain ⟨k, hmem, hk⟩ := OrderedMap.mem_of_get? (hfound (.inl rfl))
      obtain rfl := Atom.beq_str_iff.mp hk
      exact ⟨es, gs, rfl, .field hmem .here, hall⟩
    | _ => cases hp
  | @inside v value u x name steps path hvalue hinside hx ih =>
    have hbelow : DescribesNoMark u := by
      rintro path' p' ⟨u', hu', hp'⟩
      exact hv _ p' ⟨u', .inside hvalue hinside hu', hp'⟩
    cases v with
    | map fields identity =>
      obtain ⟨after, rfl, hshown⟩ := NullTypes.expand_map hw
      have hne : ∀ other : String, ¬ ['O', 'f'] <:+ other.toList →
          other ∉ ["properties", "additionalProperties", "items", "not"] →
            (Atom.str other == Atom.str name) = false := by
        intro other hends hnone
        refine Bool.eq_false_iff.mpr fun hsame => hinside.ne_of other hends hnone ?_
        exact Atom.str.inj (Atom.str_beq_iff.mp hsame)
      obtain ⟨y, hy, hfound⟩ := hshown.found _ _ hvalue (hne _ (by decide) (by decide))
      obtain ⟨z, hz, hexpand⟩ := hinside.leads hy fun hname => by
        subst hname
        exact hv [] value ⟨_, .here, hvalue⟩
      obtain ⟨k, hmem, hk⟩ := OrderedMap.mem_of_get?
        (hfound (.inr ⟨hne _ (by decide) (by decide), hne _ (by decide) (by decide)⟩))
      obtain rfl := Atom.beq_str_iff.mp hk
      obtain ⟨es, gs, rfl, hleads, hall⟩ := ih hbelow hexpand hp
      refine ⟨es, gs, rfl, ?_, hall⟩
      rw [List.cons_append, List.append_assoc]
      exact .field hmem (hz.append hleads)
    | _ => cases hvalue

end Describes

/-! ## Containers -/

/-- Nodes without literal schema, with no child, no class and no bucket named like the mark. -/
structure Node.NamesNoMark (n : Node) : Prop where
  literal : n.literal.isNull = true
  keys : ∀ e ∈ n.children, e.1.IsNoMark
  hasClass : n.HasClass Atom.IsNoMark

/-- The definitions of a container are found in its document in their checked form. -/
theorem Components.Each.leads {P : Value → Prop} {c : Components} {w : Value}
    (hc : c.Each Atom.IsNoMark P) (hw : expand c.toValue = .ok w)
    {bucket : Atom × OrderedMap Atom Value} (hbucket : bucket ∈ c) {entry : Atom × Value}
    (hentry : entry ∈ bucket.2) :
    ∃ d, w.Leads [bucket.1, entry.1] d ∧ expand entry.2 = .ok d := by
  obtain ⟨gs, rfl, hall⟩ := hc.expanded hw
  obtain ⟨⟨k, x⟩, hg, hkey, hs, hx, hinner⟩ := forall₂_left hall hbucket
  obtain ⟨⟨k', d⟩, hd, hkey', hexpand⟩ := forall₂_left hinner hentry
  cases hkey
  cases hkey'
  cases hx
  exact ⟨d, .field hg (.field hd .here), hexpand⟩

/-- Where nothing is named like the mark, a schema that compiles has a container, if all values that
the nodes supply have a checked form. -/
theorem Container.exists_of_namesNoMark {h : Heap} {v : Value} {s : Schema} {allowUnknown : Bool}
    {compiled : Option CompiledSchema} (hv : rootSchema v = .ok s)
    (hnodes : ∀ t, h.Reaches s t → (h.view t).NamesNoMark)
    (hsupplied : ∀ t, h.Reaches s t → ∀ x ∈ (h.view t).supplied, Expands x)
    (hcompiled : (h.compileAgainst [] v).1 = .ok compiled) :
    ∃ c, (compile h v allowUnknown).1 = .ok c := by
  obtain ⟨schema, ctx, hparts, -, hschema, hdefinitions⟩ := compiled_formed supply_expands hv
    (fun t ht => ⟨(hnodes t ht).literal, hsupplied t ht, (hnodes t ht).keys⟩)
    (fun t ht => (hnodes t ht).hasClass) hcompiled
  have hformed := formed_withUnknown hschema allowUnknown
  have hcomponents : Expands ctx.created.toValue := by
    refine NullTypes.expands_of_noMark (fun e he => ?_) fun e he => ?_
    · obtain ⟨b, hb, rfl⟩ := List.mem_map.mp he
      exact (hdefinitions b hb).1
    · obtain ⟨b, hb, rfl⟩ := List.mem_map.mp he
      exact NullTypes.expands_of_noMark (fun e he => ((hdefinitions b hb).2 e he).1)
        fun e he => ((hdefinitions b hb).2 e he).2.expands
  generalize hkept : (if allowUnknown then withUnknown schema else schema) = kept at hformed
  cases kept with
  | map fields identity =>
    have hroot : Formed Atom.IsNoMark Expands _
        (.ofEntries (Fields.set fields "components" ctx.created.toValue)) :=
      .of_each (hformed.each.set (.supplied (by decide) hcomponents))
    obtain ⟨document, hdocument⟩ := hroot.expands
    exact ⟨_, compile_eq_ok_iff.mpr ⟨compiled, hcompiled,
      (ofCompiled_eq_ok_iff hparts).mpr ⟨fields, document, by rw [hkept]; rfl, hdocument, rfl⟩⟩⟩
  | _ => cases hformed

/-- Where nothing is named like the mark, every schema that compiles has a container, if all values
that the nodes supply have a checked form. Whatever properties the schema of a container describes at
some depth, and whatever properties a definition describes, the document describes at the same place
under the same keys, each by its own checked form. -/
theorem Container.field_names {h : Heap} {v : Value} {s : Schema} (hv : rootSchema v = .ok s)
    (hnodes : ∀ t, h.Reaches s t → (h.view t).NamesNoMark) (allowUnknown : Bool) :
    ((∀ t, h.Reaches s t → ∀ x ∈ (h.view t).supplied, Expands x) →
      (h.compileAgainst [] v).1.isOk = true → (compile h v allowUnknown).1.isOk = true) ∧
    ∀ c, (compile h v allowUnknown).1 = .ok c →
      (∀ path p, DescribesAt c.schema path p → ∃ es after : Fields, p = .ofEntries es ∧
        c.document.Leads (path ++ [.str "properties"]) (.ofEntries after) ∧
          EntriesExpand es after) ∧
      ∀ bucket ∈ c.components, ∀ entry ∈ bucket.2, ∀ path p, DescribesAt entry.2 path p →
        ∃ es after : Fields, p = .ofEntries es ∧ c.document.Leads
          (.str "components" :: bucket.1 :: entry.1 :: (path ++ [.str "properties"]))
            (.ofEntries after) ∧ EntriesExpand es after := by
  refine ⟨fun hsupplied hok => ?_, fun c hc => ?_⟩
  · obtain ⟨compiled, hcompiled⟩ := exists_of_isOk hok
    obtain ⟨c, hc⟩ := exists_of_namesNoMark hv hnodes hsupplied hcompiled
    rw [hc]
    rfl
  · obtain ⟨-, ctx, -, -, hholds⟩ := holds supply_true hv
      (fun t ht => ⟨(hnodes t ht).literal, fun _ _ => trivial, (hnodes t ht).keys⟩)
      (fun t ht => (hnodes t ht).hasClass) hc
    obtain ⟨fields, identity, hschema, hroot, hdocument⟩ := hholds.root
    rw [hschema]
    refine ⟨fun path p hp => ?_, fun bucket hbucket entry hentry path p hp => ?_⟩
    · exact hp.set_components.leads hroot.describesNoMark hdocument
    · obtain ⟨after, hafter, hshown⟩ := NullTypes.expand_map hdocument
      obtain ⟨w, hw, hfound⟩ := hshown.found (.str "components") c.components.toValue
        (by rw [NullTypes.get?_set, if_pos rfl]) rfl
      obtain ⟨d, hd, hexpand⟩ := hholds.definitions.leads hw hbucket hentry
      have hdefinition := ((hholds.definitions bucket hbucket).2 entry hentry).2
      obtain ⟨es, gs, rfl, hleads, hall⟩ := hp.leads hdefinition.describesNoMark hexpand
      refine ⟨es, gs, rfl, ?_, hall⟩
      obtain ⟨k, hmem, hk⟩ := OrderedMap.mem_of_get? (hfound (.inr ⟨rfl, rfl⟩))
      obtain rfl := Atom.beq_str_iff.mp hk
      rw [hafter]
      exact .field hmem (hd.append hleads)

/-- An answer that may be null, flags named like keywords under a class, an object of flags, and
objects in which a field is named like the mark, in the last one beside one that is named like the
choices. -/
def flagHeap : Heap where
  nodes := #[{ kind := "string", valids := [.null] },
    { kind := "object", children := [(.str "type", .node 0), (.str "enum", .node 0)],
      metadata := [(.str "className", .str "Flags")] },
    { kind := "object", children := [(.str "properties", .node 1)] },
    { kind := "object", children := [(.str "nullable", .node 0)] },
    { kind := "object", children := [(.str "nullable", .node 0), (.str "enum", .node 0)] }]

theorem flagHeap_descends : flagHeap.Descends := Heap.descends_of_nodes (by decide)

theorem flagHeap_namesNoMark {t : Schema} (ht : flagHeap.Reaches (.node 2) t) :
    (flagHeap.view t).NamesNoMark ∧ ∀ x ∈ (flagHeap.view t).supplied, Expands x := by
  have hkey : ∀ {s : String}, s ≠ "nullable" → (Atom.str s).IsNoMark :=
    fun hne heq => hne (Atom.str.inj heq)
  obtain ⟨j, hj, rfl⟩ := flagHeap_descends.reaches ht
  rcases j with _ | _ | _ | j
  · refine ⟨⟨rfl, nofun, .of_none rfl⟩, fun x hx => ?_⟩
    obtain rfl := List.mem_singleton.mp hx
    exact ⟨_, rfl⟩
  · refine ⟨⟨rfl, ?_, .of_some rfl (hkey (by decide)) (hkey (by decide))⟩, fun x hx => nomatch hx⟩
    exact List.forall_mem_cons.mpr ⟨hkey (by decide),
      List.forall_mem_cons.mpr ⟨hkey (by decide), nofun⟩⟩
  · refine ⟨⟨rfl, ?_, .of_none rfl⟩, fun x hx => nomatch hx⟩
    exact List.forall_mem_cons.mpr ⟨hkey (by decide), nofun⟩
  · exact absurd hj (Nat.not_le.mpr (Nat.le_add_left 3 j))

/-- The flags under a class keep their names, though these are keywords. -/
theorem Container.field_names_flags : ∃ c, (compile flagHeap (.node 2) false).1 = .ok c ∧
    ∃ after : Fields, c.document.Leads
      [.str "components", .str "schemas", .str "Flags", .str "properties"] (.ofEntries after) ∧
        after.map Prod.fst = [.str "type", .str "enum"] := by
  obtain ⟨hcompiles, hleads⟩ := @Container.field_names flagHeap (.node 2) (.node 2) rfl
    (fun t ht => (flagHeap_namesNoMark ht).1) false
  have hcontainer := hcompiles (fun t ht => (flagHeap_namesNoMark ht).2) (by decide +kernel)
  refine ⟨_, rfl, ?_⟩
  obtain ⟨-, hdefinitions⟩ := hleads _ rfl
  obtain ⟨es, after, hes, hfound, hall⟩ := hdefinitions _ List.mem_cons_self _ List.mem_cons_self
    [] _ ⟨_, .here, rfl⟩
  cases hes
  exact ⟨after, hfound, (OrderedMap.keys_eq (hall.imp fun _ _ hentry => hentry.1.symm)).symm⟩

/-- A field that is named like the mark is lost in the checked form, and beside one that is named
like the choices there is no checked form. -/
theorem Container.field_names_lost :
    (∃ c, (compile flagHeap (.node 3) false).1 = .ok c ∧
      (∃ es : Fields, c.schema.field? "properties" = some (.ofEntries es) ∧
        es.map Prod.fst = [.str "nullable"]) ∧
      c.document.field? "properties" = some (.ofEntries [])) ∧
    (flagHeap.compileAgainst [] (.node 4)).1.isOk = true ∧
      (compile flagHeap (.node 4) false).1.isOk = false := by
  refine ⟨⟨_, rfl, ⟨_, rfl, rfl⟩, rfl⟩, by decide +kernel, by decide +kernel⟩

end WireShape
