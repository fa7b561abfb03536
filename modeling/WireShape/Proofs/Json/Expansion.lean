import WireShape.Proofs.Compile.Expanding
import WireShape.Proofs.Json.Shapes

/-!
# Shapes of expanded schemas

Values of one shape expand to values of one shape, by definitions of one shape. The title at the top
is no part of the shape of a schema, so schemas that differ by it only expand to schemas that differ
by it only, and what has the same text before has the same text after.

* `likeness_sameShape`: being of one shape goes through lists and mappings.
* `Value.SameShape.refersWithin`: values of one shape have the same references.
* `Lookup.Leads`: references to definitions that expand.
* `Value.Writable.expands`: what has only such references expands.
* `expandWithin_writable`: what JSON has a form for expands to what it has a form for.
* `expandWithin_but_title`: schemas of one shape but for their titles expand to such schemas.
-/

namespace WireShape

open Value (Fields)

/-! ## What JSON has a form for -/

namespace Value.Writable

variable {es fs : Fields} {i j : Option Nat} {v w : Value} {s : String}

theorem insert (h : (Value.map es i).Writable) (hv : v.Writable) :
    (Value.map (OrderedMap.insert es (.str s) v) j).Writable := by
  refine .map (fun e he => ?_) h.keyed.separate.insert fun e he => ?_
  · rcases OrderedMap.mem_insert he with hold | ⟨_, hkey | ⟨⟨w, hw⟩, _⟩⟩
    · exact h.key hold
    · exact ⟨s, hkey⟩
    · obtain ⟨t, ht⟩ := h.key hw
      exact ⟨t, ht⟩
  · rcases OrderedMap.mem_insert he with hold | ⟨hvalue, _⟩
    · exact h.entry hold
    · rw [hvalue]
      exact hv

theorem merge (h : (Value.map es i).Writable) (h' : (Value.map fs j).Writable) :
    (Value.ofEntries (es.merge fs)).Writable := by
  have hfold : ∀ fs es : Fields, (Value.ofEntries es).Writable →
      (∀ e ∈ fs, (∃ s, e.1 = .str s) ∧ e.2.Writable) →
        (Value.ofEntries (es.merge fs)).Writable := by
    intro fs
    induction fs with
    | nil => exact fun es hes _ => hes
    | cons e fs ih =>
      intro es hes hall
      obtain ⟨⟨⟨s, hs⟩, he⟩, hrest⟩ := List.forall_mem_cons.mp hall
      apply ih (OrderedMap.insert es e.1 e.2) _ hrest
      rw [hs]
      exact hes.insert he
  exact hfold fs es (.map (fun _ => h.key) h.keyed.separate fun _ => h.entry)
    fun e he => ⟨h'.key he, h'.entry he⟩

end Value.Writable

open Value (Writable SameShape)

theorem keptByExpansion_writable : KeptByExpansion Writable where
  list_iff := ⟨fun h _ hx => h.item hx, .list⟩
  entry h _ he := h.entry he
  rebuild {es fs i j} h hkeys hfs := by
    refine .map (fun f hf => ?_) (h.keyed.of_keys hkeys).separate hfs
    have hkey : f.1 ∈ es.map Prod.fst := by
      rw [hkeys]
      exact List.mem_map_of_mem hf
    obtain ⟨e, he, heq⟩ := List.mem_map.mp hkey
    rw [← heq]
    exact h.key he
  merge h h' := h.merge h'
  remove h := h.filter

section Shapes

variable {find find' : Lookup} {depth depth' : Nat} {R : String → Prop} {u v w : Value}

theorem Lookup.Having.proper (hfind : find.Having Writable) : find.Proper :=
  fun bucket name d hd => (hfind bucket name d hd).proper

/-- What JSON has a form for expands to what it has a form for. -/
theorem expandWithin_writable (hfind : find.Having Writable) (hv : v.Writable)
    (h : expandWithin find depth v = some w) : w.Writable :=
  expandWithin_keeps keptByExpansion_writable hfind hv h

/-! ## Values of one shape -/

namespace Value.SameShape

theorem text? (h : SameShape v w) : v.text? = w.text? := by
  cases h with
  | @atom a b text ha hb =>
    have hstr : ∀ {a b : Atom} {s : String}, Json.atomText? a = some text →
        Json.atomText? b = some text → a = .str s → b = .str s := by
      rintro a b s ha hb rfl
      obtain rfl : Json.quote s = text := Option.some.inj ha
      rcases Json.atomText?_cases hb with ⟨t, rfl, heq⟩ | ⟨_, hunmarked⟩
      · obtain ⟨rfl, _⟩ := Json.quote_cancel (congrArg (fun u : String => u.toList ++ []) heq)
        rfl
      · have hne : (Json.quote s).toList ++ [] ≠ (Json.quote s).toList ++ [] :=
          Json.quote_ne_unmarked hunmarked fun _ hc => by cases hc
        exact absurd rfl hne
    refine Option.ext fun s => ?_
    rw [Value.text?_eq_some_iff, Value.text?_eq_some_iff, Value.atom.injEq, Value.atom.injEq]
    exact ⟨hstr ha hb, hstr hb ha⟩
  | list => rfl
  | map => rfl

end Value.SameShape

theorem likeness_sameShape : Likeness SameShape where
  list_iff := ⟨fun h => by cases h with | list h => exact h, .list⟩
  map_iff _ _ := ⟨fun h => by cases h with | map h => exact h, .map⟩
  isList h := by cases h <;> rfl
  isMap h := by cases h <;> rfl
  text? h := h.text?

/-- What stands under a text key of one of two mappings of one shape stands under it in the other. -/
theorem Value.SameShape.entry {es fs : Fields} {i j : Option Nat} (hes : (Value.map es i).Writable)
    (h : SameShape (.map es i) (.map fs j)) {e : Atom × Value} (he : e ∈ es) :
    ∃ f ∈ fs, f.1 = e.1 ∧ SameShape e.2 f.2 := by
  cases h with
  | map h =>
    have hrel := h e.1
    rw [hes.keyed.get?_entry he] at hrel
    obtain ⟨u, hu, hsame⟩ := optionRel_some_iff.mp hrel
    obtain ⟨key, hmem, hkey⟩ := OrderedMap.mem_of_get? hu
    obtain ⟨s, hs⟩ := hes.key he
    rw [hs] at hkey
    exact ⟨(key, u), hmem, (Atom.beq_str_iff.mp hkey).trans hs.symm, hsame⟩

/-- Values of one shape have the same references. -/
theorem Value.SameShape.refersWithin (hv : v.Writable) (h : SameShape v w) (hR : w.RefersWithin R) :
    v.RefersWithin R := by
  intro target htarget
  induction htarget generalizing w with
  | @here es i target hmem =>
    obtain ⟨fs, j, rfl⟩ := Value.exists_map_of_isMap ((likeness_sameShape.isMap h).symm.trans rfl)
    obtain ⟨⟨key, u⟩, hf, rfl, hsame⟩ := h.entry hv hmem
    obtain rfl := Value.text?_eq_some_iff.mp (hsame.text?.symm.trans rfl)
    exact hR target (.here hf)
  | @inside v x target hx _ ih =>
    cases v with
    | list xs =>
      obtain ⟨ys, rfl⟩ := Value.exists_list_of_isList ((likeness_sameShape.isList h).symm.trans rfl)
      obtain ⟨y, hy, hxy⟩ := forall₂_left (likeness_sameShape.list_iff.mp h) hx
      exact ih (hv.item hx) hxy fun t ht => hR t (.inside hy ht)
    | map es i =>
      obtain ⟨fs, j, rfl⟩ := Value.exists_map_of_isMap ((likeness_sameShape.isMap h).symm.trans rfl)
      obtain ⟨e, he, rfl⟩ := List.mem_map.mp hx
      obtain ⟨f, hf, _, hsame⟩ := h.entry hv he
      exact ih (hv.entry he) hsame (Value.refersWithin_map_iff.mp hR f hf).1
    | atom => cases hx
    | _ => cases hv

/-! ## Values that expand -/

/-- References with this target lead to a definition that expands to a mapping. -/
def Lookup.Leads (find : Lookup) (target : String) : Prop :=
  ∀ bucket name, splitReference target = some (bucket, name) → ∃ d depth ds i,
    find bucket name = some d ∧ expandWithin find depth d = some (.map ds i)

/-- A value expands if all its references lead to definitions that do, a mapping to a mapping. -/
theorem Value.Writable.expands (hv : v.Writable) (hrefs : v.RefersWithin find.Leads) :
    ∃ depth u, expandWithin find depth v = some u ∧ u.isMap = v.isMap := by
  induction hv with
  | atom => exact ⟨1, _, rfl, rfl⟩
  | @list xs _ ih =>
    obtain ⟨depth, us, hus, _⟩ := forall₂_common_depth (Q := fun _ _ => True)
      (P := fun depth x u => expandWithin find depth x = some u)
      (fun _ _ _ _ hle => expandWithin_mono hle) (List.forall₂_same.mpr fun x hx => by
        obtain ⟨depth, u, hu, _⟩ := ih x hx fun t ht => hrefs t (.inside hx ht)
        exact ⟨depth, u, hu, trivial⟩)
    exact ⟨depth + 1, .list us, expandWithin_list_iff.mpr ⟨us, hus, rfl⟩, rfl⟩
  | @map es i _ _ _ ih =>
    obtain ⟨depth, fs, hfs, _⟩ := forall₂_common_depth (Q := fun _ _ => True)
      (P := EntryExpands find) (fun _ _ _ _ hle he => ⟨he.key, expandWithin_mono hle he.value⟩)
      (List.forall₂_same.mpr fun e he => by
        obtain ⟨depth, u, hu, _⟩ := ih e he (Value.refersWithin_map_iff.mp hrefs e he).1
        exact ⟨depth, (e.1, u), ⟨rfl, hu⟩, trivial⟩)
    cases htarget : Fields.target? es with
    | none => exact ⟨depth + 1, .map fs i, (expandWithin_map_iff htarget).mpr ⟨fs, hfs, rfl⟩, rfl⟩
    | some target =>
      obtain ⟨bucket, name⟩ := target
      obtain ⟨text, htext, hsplit⟩ := Option.bind_eq_some_iff.mp htarget
      obtain ⟨d, limit, ds, j, hd, hds⟩ := hrefs.refText? htext bucket name hsplit
      refine ⟨max depth limit + 1, _, (expandWithin_reference_iff htarget).mpr ⟨fs, d, ds, j,
        FieldsExpand.mono (fun _ _ => expandWithin_mono (Nat.le_max_left depth limit)) hfs, hd,
        expandWithin_mono (Nat.le_max_right depth limit) hds, rfl⟩, rfl⟩

/-! ## Titles -/

/-- The keys that count for the shape of a schema. -/
def CountsForShape (k : Atom) : Prop := (Atom.str "title" == k) = false

/-- Mappings of one shape but for their titles. -/
theorem withoutTitle_sameShape_iff {es fs : Fields} {i j : Option Nat} :
    (Json.withoutTitle (.map es i)).SameShape (Json.withoutTitle (.map fs j)) ↔
      FoundLike CountsForShape SameShape es fs := by
  have herase : ∀ {fs : Fields} {k : Atom}, CountsForShape k →
      OrderedMap.get? (OrderedMap.erase fs (.str "title")) k = OrderedMap.get? fs k :=
    fun hk => OrderedMap.get?_erase_of_ne hk
  constructor
  · intro h k hk
    cases h with
    | map h =>
      have hrel := h k
      rwa [herase hk, herase hk] at hrel
  · intro h
    refine .map fun k => ?_
    cases hk : (Atom.str "title" == k) with
    | true =>
      obtain rfl := Atom.str_beq_iff.mp hk
      rw [OrderedMap.get?_erase_self, OrderedMap.get?_erase_self]
      exact .none
    | false =>
      rw [herase hk, herase hk]
      exact h k hk

theorem Value.RefersWithin.withoutTitle (h : v.RefersWithin R) :
    (Json.withoutTitle v).RefersWithin R := by
  cases v with
  | map es i => exact Value.refersWithin_remove h
  | _ => exact h

/-- If the title of a schema brings no reference, the references of the schema are those of the
rest. -/
theorem Value.Writable.refersWithin_of_withoutTitle (hv : v.Writable)
    (htitle : ∀ t, v.field? "title" = some t → t.RefFree)
    (h : (Json.withoutTitle v).RefersWithin R) : v.RefersWithin R := by
  cases v with
  | map es i =>
    refine Value.refersWithin_map_iff.mpr fun e he => ?_
    cases hkey : (Atom.str "title" == e.1) with
    | true =>
      have hfound := hv.keyed.separate.get? he (BEq.symm hkey)
      refine ⟨(htitle e.2 hfound).within, fun href => ?_⟩
      rw [href] at hkey
      exact absurd hkey (by decide)
    | false =>
      refine Value.refersWithin_map_iff.mp h e (List.mem_filter.mpr ⟨he, ?_⟩)
      rw [Bool.not_eq_true']
      exact Bool.eq_false_iff.mpr fun hsame => Bool.false_ne_true (hkey.symm.trans (BEq.symm hsame))
  | _ => exact h

/-- A schema of the shape of one that expands, but for the titles, expands to a schema of the shape
of the expansion, but for the titles, if its own title brings no reference. -/
theorem expandWithin_but_title (hfind : find.Having Writable) (hfind' : find'.Having Writable)
    (hagree : LookupsAgree SameShape R find find') (hv : v.Writable) (hw : w.Writable)
    (hmap : w.isMap = true) (hR : v.RefersWithin R)
    (htitle : ∀ t, v.field? "title" = some t → t.RefFree)
    (hvw : (Json.withoutTitle v).SameShape (Json.withoutTitle w))
    (h : expandWithin find depth w = some u) : ∃ depth' u',
      expandWithin find' depth' v = some u' ∧
        (Json.withoutTitle u').SameShape (Json.withoutTitle u) := by
  obtain ⟨fs, j, rfl⟩ := Value.exists_map_of_isMap hmap
  obtain ⟨es, i, rfl⟩ : ∃ es i, v = .map es i := by
    cases v with
    | map es i => exact ⟨es, i, rfl⟩
    | atom => cases hvw
    | list => cases hvw
    | _ => cases hv
  have hlike := likeness_sameShape
  -- The title expands to itself at some depth, all else at the depth of the other schema.
  obtain ⟨limit, hlimit⟩ : ∃ limit, ∀ e ∈ es, ¬ CountsForShape e.1 →
      ∃ u, expandWithin find' limit e.2 = some u := by
    cases hget : OrderedMap.get? es (.str "title") with
    | none =>
      refine ⟨0, fun e he hkey => absurd ?_ hkey⟩
      refine Bool.eq_false_iff.mpr fun hsame => ?_
      have hfound := hv.keyed.separate.get? he (BEq.symm hsame)
      rw [hget] at hfound
      cases hfound
    | some t =>
      obtain ⟨key, hmem, _⟩ := OrderedMap.mem_of_get? hget
      have hexpands : ExpandsTo find' t t := .refFree (hv.entry hmem).proper (htitle t hget)
      obtain ⟨limit, u, hu, _⟩ := hexpands.expands
      refine ⟨limit, fun e he hkey => ⟨u, ?_⟩⟩
      have hsame : (Atom.str "title" == e.1) = true := by simpa [CountsForShape] using hkey
      have hfound := hv.keyed.separate.get? he (BEq.symm hsame)
      obtain rfl := Option.some.inj (hget.symm.trans hfound)
      exact hu
  cases depth with
  | zero => cases h
  | succ depth =>
    have hdeeper : ∀ {v w u : Value}, v.Writable → w.Writable → v.RefersWithin R →
        v.SameShape w → expandWithin find depth w = some u →
          ∃ u', expandWithin find' (max depth limit) v = some u' ∧ u'.SameShape u := by
      intro v w u hv hw hR hvw hu
      obtain ⟨u', hu', hsame⟩ := expandWithin_like hlike hfind.proper hfind'.proper hagree hv.proper
        hw.proper hR hvw hu
      exact ⟨u', expandWithin_mono (Nat.le_max_left _ _) hu', hsame⟩
    have hcounts : CountsForShape refKey :=
      show (Atom.str "title" == refKey) = false by decide
    obtain ⟨gs, gs', k, k', rfl, hexpand, _, _, hfound⟩ := expandWithin_map_like hlike hcounts
      hfind.proper hfind'.proper
      (fun e he f hf hef u hu => hdeeper (hv.entry he) (hw.entry hf)
        (Value.refersWithin_map_iff.mp hR e he).1 hef hu)
      (fun e he hkey => (hlimit e he hkey).imp fun u hu =>
        expandWithin_mono (Nat.le_max_right _ _) hu)
      (fun bucket name d u htarget hd hu => by
        obtain ⟨text, hes, hsplit⟩ := Option.bind_eq_some_iff.mp htarget
        obtain ⟨d', hd', hdd, hR'⟩ := hagree text (hR.refText? hes) _ _ d hsplit hd
        obtain ⟨u', hu', hsame⟩ := hdeeper (hfind' _ _ d' hd') (hfind _ _ d hd) hR' hdd hu
        exact ⟨d', u', hd', hu', hsame⟩)
      (withoutTitle_sameShape_iff.mp hvw) hv.keyed hw.keyed h
    exact ⟨_, _, hexpand, withoutTitle_sameShape_iff.mpr hfound⟩

end Shapes

end WireShape
