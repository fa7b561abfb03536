import WireShape.Proofs.Compile.Independence
import WireShape.Proofs.Compile.Keywords

/-!
# Branches that are kept

The branches of alternatives, the items of an array and the branches of conditions end up in lists:
forbidden ones are left out, required ones are marked and equal ones stand once. The lists of a node
share its keywords, though. The conditions write theirs last, so where alternatives and conditions have
the same keyword, the branches of the alternatives are lost (`Heap.branches_lost`); this is the only
way to lose one.

* `Value.StandsAmong`: a value in a list, by itself or as an equal one.
* `Value.Fields.Lists`, `Value.Fields.ListsItem`: schemas that are listed under a keyword, and as items.
* `Walked.assembled`: what a node without metadata gives.
* `Heap.branches_kept`: every branch is listed, unless alternatives and conditions share a keyword.
-/

namespace WireShape

open Value (Fields)

/-! ## Listed schemas -/

/-- A value or an equal one is in a list. -/
def Value.StandsAmong (v : Value) (xs : List Value) : Prop := v ∈ xs ∨ v.isIn xs = true

theorem Value.StandsAmong.append {v : Value} {xs ys : List Value} (h : v.StandsAmong xs) :
    v.StandsAmong (xs ++ ys) := by
  unfold StandsAmong isIn at h ⊢
  rw [List.mem_append, List.any_append, Bool.or_eq_true]
  exact h.imp .inl .inl

theorem Value.StandsAmong.isIn {v : Value} {xs : List Value} (h : v.StandsAmong xs)
    (hself : v.same v = true) : v.isIn xs = true := by
  rcases h with hmem | hin
  · exact List.any_eq_true.mpr ⟨v, hmem, hself⟩
  · exact hin

/-- Nothing is lost where equal ones are kept once. -/
theorem standsAmong_distinct {v : Value} {xs : List Value} (hv : v ∈ xs) :
    v.StandsAmong (distinct xs) := by
  have hfold : ∀ xs kept : List Value, v.StandsAmong kept ∨ v ∈ xs → v.StandsAmong
      (xs.foldl (fun kept s => if s.isIn kept then kept else kept ++ [s]) kept) := by
    intro xs
    induction xs with
    | nil => exact fun kept h => h.resolve_right List.not_mem_nil
    | cons x xs ih =>
      intro kept h
      rw [List.foldl_cons]
      apply ih
      rcases h with hkept | hmem
      · left
        split
        · exact hkept
        · exact hkept.append
      · rcases List.mem_cons.mp hmem with rfl | hrest
        · left
          split
          · rename_i hin
            exact .inr hin
          · exact .inl (List.mem_append_right _ List.mem_cons_self)
        · exact .inr hrest
  exact hfold xs [] (.inr hv)

namespace Value.Fields

/-- A schema is in the list under a keyword. -/
def Lists (fields : Fields) (keyword : String) (schema : Value) : Prop :=
  ∃ xs, OrderedMap.get? fields (.str keyword) = some (.list xs) ∧ schema.StandsAmong xs

/-- A schema is that of the items, or one of those of which each item has exactly one. -/
def ListsItem (fields : Fields) (schema : Value) : Prop :=
  ∃ items, OrderedMap.get? fields (.str "items") = some items ∧
    (schema.StandsAmong [items] ∨ ∃ choice : Fields, items = .ofEntries choice ∧
      choice.Lists "oneOf" schema)

end Value.Fields

theorem branchKeyword_lists {keyword : String} {schema : Value} {schemas : List Value}
    (hmem : schema ∈ schemas) : (branchKeyword keyword schemas).Lists keyword schema := by
  have hstands := standsAmong_distinct hmem
  unfold branchKeyword
  split
  · rename_i hnil
    rw [hnil] at hstands
    exact absurd hstands (by simp [Value.StandsAmong, Value.isIn])
  · exact ⟨_, get?_set_self, hstands⟩

theorem itemsValue_lists {schema : Value} {schemas : List Value} (hmem : schema ∈ schemas) :
    schema.StandsAmong [itemsValue schemas] ∨ ∃ choice : Fields,
      itemsValue schemas = .ofEntries choice ∧ choice.Lists "oneOf" schema := by
  have hstands := standsAmong_distinct hmem
  unfold itemsValue
  split
  · rename_i hnil
    rw [hnil] at hstands
    exact absurd hstands (by simp [Value.StandsAmong, Value.isIn])
  · rename_i hone
    rw [hone] at hstands
    exact .inl hstands
  · exact .inr ⟨_, rfl, _, rfl, hstands⟩

/-! ## Branches of a node -/

section Node

variable {h : Heap} {n : Node} {fields : Fields} {outcomes whenOutcomes : List Compiled}

/-- Every branch that is not forbidden is listed under a keyword, marked if it is required. -/
def Heap.KeepsBranches (h : Heap) (fields : Fields) (keyword : String) (branches : List Schema)
    (outcomes : List Compiled) : Prop :=
  ∀ t schema, (t, some schema) ∈ branches.zip outcomes →
    ∃ marked, markBranch h t (some schema) = .ok (some marked) ∧ fields.Lists keyword marked

/-- Branches that are not forbidden have values. -/
theorem branchValues_mem {branches : List Schema} {values : List Value} {t : Schema} {schema : Value}
    (hvalues : branchValues h branches outcomes = .ok values)
    (hmem : (t, some schema) ∈ branches.zip outcomes) :
    ∃ marked, markBranch h t (some schema) = .ok (some marked) ∧ marked ∈ values := by
  obtain ⟨all, hall, hpure⟩ := bind_eq_ok_iff.mp hvalues
  cases hpure
  obtain ⟨outcome, hin, hmark⟩ := forall₂_left (mapM_eq_ok_iff.mp hall) hmem
  obtain ⟨marked, rfl⟩ : ∃ marked, outcome = some marked := by
    dsimp only [markBranch] at hmark
    split at hmark
    · obtain ⟨marked, _, hpure⟩ := bind_eq_ok_iff.mp hmark
      cases hpure
      exact ⟨marked, rfl⟩
    · cases hmark
      exact ⟨schema, rfl⟩
  exact ⟨marked, hmark, List.mem_filterMap.mpr ⟨_, hin, rfl⟩⟩

theorem branchKeyword_keeps {keyword : String} {branches : List Schema} {values : List Value}
    (hvalues : branchValues h branches outcomes = .ok values) :
    h.KeepsBranches (branchKeyword keyword values) keyword branches outcomes := by
  intro t schema hmem
  obtain ⟨marked, hmark, hin⟩ := branchValues_mem hvalues hmem
  exact ⟨marked, hmark, branchKeyword_lists hin⟩

/-- Where all branches are forbidden, there is no list. -/
theorem branchValues_eq_nil {branches : List Schema} {values : List Value}
    (hnone : ∀ r ∈ outcomes, r = none) (hvalues : branchValues h branches outcomes = .ok values) :
    values = [] := by
  obtain ⟨all, hall, hpure⟩ := bind_eq_ok_iff.mp hvalues
  cases hpure
  refine List.filterMap_eq_nil_iff.mpr fun r hr => ?_
  obtain ⟨p, hp, hmark⟩ := forall₂_right (mapM_eq_ok_iff.mp hall) hr
  rw [hnone _ (List.of_mem_zip hp).2] at hmark
  cases hmark
  rfl

/-- Fields that find the same under a keyword list the same. -/
theorem Heap.KeepsBranches.congr {other : Fields} {keyword : String} {branches : List Schema}
    (hkeeps : h.KeepsBranches fields keyword branches outcomes)
    (hget : OrderedMap.get? other (.str keyword) = OrderedMap.get? fields (.str keyword)) :
    h.KeepsBranches other keyword branches outcomes := by
  intro t schema hmem
  obtain ⟨marked, hmark, xs, hxs, hstands⟩ := hkeeps t schema hmem
  exact ⟨marked, hmark, xs, hget.trans hxs, hstands⟩

theorem branchKeyword_separate {keyword : String} {values : List Value} :
    OrderedMap.Separate (branchKeyword keyword values) := by
  unfold branchKeyword
  split
  · exact .nil
  · exact OrderedMap.Separate.insert .nil

/-- Annotations leave lists of branches as they are. -/
theorem get?_annotate_branches {mode : String} :
    OrderedMap.get? (annotate n fields) (.str (mode ++ "Of")) =
      OrderedMap.get? fields (.str (mode ++ "Of")) := get?_annotate (of_not_mem (by decide))

theorem Node.whenKeyword_eq : ∃ mode, n.whenKeyword = mode ++ "Of" := by
  unfold whenKeyword
  split
  · exact ⟨"any", rfl⟩
  · exact ⟨"one", rfl⟩

/-- What a node without a literal schema is put together from. -/
theorem Node.assemble_eq_ok {kind : Kind} (hliteral : n.literal.truthy = false)
    (hfields : n.assemble h kind outcomes whenOutcomes = .ok fields) :
    ∃ own values, kind.fields h n outcomes = .ok own ∧
      branchValues h n.whenParts whenOutcomes = .ok values ∧
        fields = annotate n (own.merge (branchKeyword n.whenKeyword values)) := by
  obtain ⟨own, hown, hrest⟩ := bind_eq_ok_iff.mp hfields
  obtain ⟨conditional, hconditional, hlast⟩ := bind_eq_ok_iff.mp hrest
  obtain ⟨values, hvalues, hpure⟩ := bind_eq_ok_iff.mp hconditional
  cases hpure
  unfold addLiteral at hlast
  rw [hliteral] at hlast
  cases hlast
  exact ⟨own, values, hown, hvalues, rfl⟩

/-- The branches of conditions are written last, and so they are kept. -/
theorem Node.assemble_keeps_whens {kind : Kind} (hliteral : n.literal.truthy = false)
    (hfields : n.assemble h kind outcomes whenOutcomes = .ok fields) :
    h.KeepsBranches fields n.whenKeyword n.whenParts whenOutcomes := by
  obtain ⟨own, values, -, hvalues, rfl⟩ := Node.assemble_eq_ok hliteral hfields
  obtain ⟨mode, hmode⟩ := n.whenKeyword_eq
  have hkeeps : h.KeepsBranches (branchKeyword n.whenKeyword values) n.whenKeyword n.whenParts
      whenOutcomes := branchKeyword_keeps hvalues
  intro t schema hmem
  obtain ⟨marked, hmark, xs, hxs, hstands⟩ := hkeeps t schema hmem
  refine ⟨marked, hmark, xs, ?_, hstands⟩
  rw [hmode] at hxs ⊢
  rw [get?_annotate_branches]
  unfold Fields.merge
  rw [OrderedMap.get?_update branchKeyword_separate, hxs]
  rfl

/-- The branches of alternatives are kept where the conditions write nothing under their keyword. -/
theorem Node.assemble_keeps_choices (hliteral : n.literal.truthy = false)
    (hfields : n.assemble h .alternatives outcomes whenOutcomes = .ok fields) :
    ∃ mode, ((n.flag "match").orElse (.str "any")).display h.describe = .ok mode ∧
      ((n.whenKeyword = mode ++ "Of" → ∀ r ∈ whenOutcomes, r = none) →
        h.KeepsBranches fields (mode ++ "Of") (n.choices.flatMap Choice.branches) outcomes) := by
  obtain ⟨own, values, hown, hvalues, rfl⟩ := Node.assemble_eq_ok hliteral hfields
  obtain ⟨mode, hmode, hrest⟩ := bind_eq_ok_iff.mp hown
  obtain ⟨schemas, hschemas, hpure⟩ := bind_eq_ok_iff.mp hrest
  cases hpure
  refine ⟨mode, hmode, fun hapart => (branchKeyword_keeps hschemas).congr ?_⟩
  rw [get?_annotate_branches]
  refine OrderedMap.get?_update_of_none ?_
  by_cases hsame : n.whenKeyword = mode ++ "Of"
  · rw [branchValues_eq_nil (hapart hsame) hvalues]
    rfl
  · exact branchKeyword_get? hsame

/-- The items of an array are kept. -/
theorem Node.assemble_keeps_items (hliteral : n.literal.truthy = false)
    (hfields : n.assemble h .array outcomes whenOutcomes = .ok fields) {schema : Value}
    (hmem : some schema ∈ outcomes) : fields.ListsItem schema := by
  obtain ⟨own, both, hown, rfl, hboth⟩ := Node.assemble_parts hliteral hfields
  refine ⟨itemsValue (outcomes.filterMap id), ?_,
    itemsValue_lists (List.mem_filterMap.mpr ⟨_, hmem, rfl⟩)⟩
  rw [get?_annotate (by decide), hboth _ (by decide)]
  exact arrayFields_get? hown

end Node

/-! ## Positions without metadata -/

/-- The fields of a position, from the outcomes of its parts and then of its conditions, compiled one
after the other. -/
structure Heap.Assembles (h : Heap) (s : Schema) (ctx : Context) (kind : Kind)
    (outcomes whenOutcomes : List Compiled) (fields : Fields) (after : Context) : Prop where
  of_kind : (h.view s).kind? = some kind
  fresh : ctx.Fresh s
  walked : ∃ middle inner,
    Chain (fun t => Walked h t false) (kind.parts (h.view s)) (ctx.enterAt s) outcomes middle ∧
      Chain (fun t => Walked h t false) (h.view s).whenParts middle whenOutcomes inner ∧
        after = inner.leaveAt s
  assembled : (h.view s).assemble h kind outcomes whenOutcomes = .ok fields

section Position

variable {h : Heap} {s : Schema} {overriding : Bool} {ctx after : Context} {r : Compiled}

/-- A position that has no metadata and is not forbidden gives what is put together for it. -/
theorem Walked.assembled (hbare : (h.view s).metadata = [])
    (hallowed : (h.view s).isForbidden = false) (hrun : Walked h s overriding ctx r after) :
    ∃ kind outcomes whenOutcomes fields,
      h.Assembles s ctx kind outcomes whenOutcomes fields after ∧ r = some (.ofEntries fields) := by
  obtain ⟨hplain, hcompiled, hclass, -⟩ := Node.plain_of_bare hbare
  cases hrun.step with
  | override hoverride => cases hplain.symm.trans hoverride
  | literal _ hliteral => cases hcompiled.symm.trans hliteral
  | known _ _ hknown => cases hclass.symm.trans hknown
  | forbidden _ _ _ _ hforbidden => cases hallowed.symm.trans hforbidden
  | compiled _ _ hnone _ _ hfresh hkind hparts hwhens hfields hfinish =>
    cases hclass.symm.trans hnone
    cases hfinish
    exact ⟨_, _, _, _, ⟨hkind, hfresh, ⟨_, _, hparts, hwhens, rfl⟩, hfields⟩, rfl⟩

/-- A position that has no metadata and is not forbidden lists every branch of its conditions, every
item if it is an array, and every branch of its alternatives if it has them; these last ones unless
its conditions give branches under the same keyword. -/
theorem Heap.branches_kept (hbare : (h.view s).metadata = [])
    (hallowed : (h.view s).isForbidden = false) (hrun : Walked h s overriding ctx r after) :
    ∃ kind outcomes whenOutcomes fields,
      h.Assembles s ctx kind outcomes whenOutcomes fields after ∧ r = some (.ofEntries fields) ∧
      h.KeepsBranches fields (h.view s).whenKeyword (h.view s).whenParts whenOutcomes ∧
      (kind = .array → ∀ schema, some schema ∈ outcomes → fields.ListsItem schema) ∧
      (kind = .alternatives → ∃ mode,
        (((h.view s).flag "match").orElse (.str "any")).display h.describe = .ok mode ∧
          (((h.view s).whenKeyword = mode ++ "Of" → ∀ r ∈ whenOutcomes, r = none) →
            h.KeepsBranches fields (mode ++ "Of") ((h.view s).choices.flatMap Choice.branches)
              outcomes)) := by
  obtain ⟨kind, outcomes, whenOutcomes, fields, hassembles, hr⟩ := hrun.assembled hbare hallowed
  obtain ⟨-, -, -, hliteral⟩ := Node.plain_of_bare hbare
  have hfields := hassembles.assembled
  refine ⟨kind, outcomes, whenOutcomes, fields, hassembles, hr,
    Node.assemble_keeps_whens hliteral hfields, ?_, ?_⟩
  · rintro rfl schema hmem
    exact Node.assemble_keeps_items hliteral hfields hmem
  · rintro rfl
    exact Node.assemble_keeps_choices hliteral hfields

end Position

/-- Text, required text, a number and a truth value; exactly one of a text and a number under two
conditions, a list of texts and numbers, a text under two conditions, and exactly one text under one
condition. -/
def fareHeap : Heap where
  nodes := #[{ kind := "string" }, { kind := "string", flags := [("presence", .str "required")] },
    { kind := "number" }, { kind := "boolean" },
    { kind := "alternatives", choices := [.schema (.node 1), .schema (.node 2)],
      flags := [("match", .str "one")],
      whens := [{ condition := .str "a", consequent := some (.node 3) },
        { condition := .str "b", consequent := some (.node 1) }] },
    { kind := "array", items := [.node 0, .node 2, .node 0] },
    { kind := "alternatives", choices := [.schema (.node 0)],
      whens := [{ condition := .str "a", consequent := some (.node 2) },
        { condition := .str "b", consequent := some (.node 3) }] },
    { kind := "alternatives", choices := [.schema (.node 0)], flags := [("match", .str "one")],
      whens := [{ condition := .str "a", consequent := some (.node 2) }] }]

/-- Both kinds of branches are listed where their keywords differ, and so are the items of a list. -/
theorem Heap.branches_kept_fare :
    (∃ outcomes whenOutcomes, ∃ fields : Fields, ∃ after,
      Walked fareHeap (.node 4) false {} (some (.ofEntries fields)) after ∧
        fareHeap.Assembles (.node 4) {} .alternatives outcomes whenOutcomes fields after ∧
          fareHeap.KeepsBranches fields "anyOf" [.node 3, .node 1] whenOutcomes ∧
            fareHeap.KeepsBranches fields "oneOf" [.node 1, .node 2] outcomes) ∧
    ∃ outcomes whenOutcomes, ∃ fields : Fields, ∃ after,
      Walked fareHeap (.node 5) false {} (some (.ofEntries fields)) after ∧
        fareHeap.Assembles (.node 5) {} .array outcomes whenOutcomes fields after ∧
          ∀ schema, some schema ∈ outcomes → fields.ListsItem schema := by
  obtain ⟨⟨r, after, hrun⟩, ⟨r', after', hrun'⟩⟩ :
      (∃ r after, Walked fareHeap (.node 4) false {} r after) ∧
        ∃ r after, Walked fareHeap (.node 5) false {} r after :=
    ⟨⟨_, _, 2, rfl⟩, _, _, 2, rfl⟩
  obtain ⟨kind, outcomes, whenOutcomes, fields, hassembles, rfl, hwhens, -, hchoices⟩ :=
    branches_kept rfl rfl hrun
  obtain ⟨kind', outcomes', whenOutcomes', fields', hassembles', rfl, -, hitems, -⟩ :=
    branches_kept rfl rfl hrun'
  cases hassembles.of_kind
  cases hassembles'.of_kind
  obtain ⟨mode, hmode, hkept⟩ := hchoices rfl
  cases hmode
  exact ⟨⟨_, _, _, _, hrun, hassembles, hwhens, hkept fun hsame => absurd hsame (by decide)⟩,
    _, _, _, _, hrun', hassembles', hitems rfl⟩

/-- Where alternatives and conditions have the same keyword, which takes two conditions for any of the
alternatives and one condition for exactly one of them, the text is not listed. -/
theorem Heap.branches_lost :
    Walked fareHeap (.node 0) false {} (some (.ofFields [("type", .str "string")])) {} ∧
    ∀ id ∈ [6, 7], (fareHeap.get id).metadata = [] ∧ (fareHeap.get id).isForbidden = false ∧
      (fareHeap.view (.node id)).choices.flatMap Choice.branches = [.node 0] ∧
      ∃ (fields : Fields) (after : Context),
        Runs (fareHeap.compile (.node id)) {} (some (.ofEntries fields)) after ∧
          ∀ keyword ∈ ["oneOf", "anyOf", "allOf"],
            ¬ fields.Lists keyword (.ofFields [("type", .str "string")]) := by
  have hlost : ∀ {fields : Fields} {keyword : String},
      (∀ xs, OrderedMap.get? fields (.str keyword) = some (.list xs) →
        Value.isIn (.ofFields [("type", .str "string")]) xs = false) →
          ¬ fields.Lists keyword (.ofFields [("type", .str "string")]) := by
    rintro fields keyword hnot ⟨xs, hxs, hstands⟩
    exact Bool.false_ne_true ((hnot xs hxs).symm.trans (hstands.isIn rfl))
  refine ⟨⟨1, rfl⟩, List.forall_mem_cons.mpr ⟨⟨rfl, rfl, rfl, _, _, rfl, ?_⟩,
    List.forall_mem_singleton.mpr ⟨rfl, rfl, rfl, _, _, rfl, ?_⟩⟩⟩
  all_goals simp only [List.forall_mem_cons]
  · refine ⟨hlost nofun, hlost fun xs hxs => ?_, hlost nofun, nofun⟩
    cases hxs
    rfl
  · refine ⟨hlost fun xs hxs => ?_, hlost nofun, hlost nofun, nofun⟩
    cases hxs
    rfl

end WireShape
