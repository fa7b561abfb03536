import WireShape.Proofs.Formed.Regular
import WireShape.Proofs.Json.ByValue

/-!
# Schemas that are listed once

In lists of items and of branches equal schemas stand once. Where all that nodes supply is known to
the JSON standard, so is every schema that they are compiled to, and what equality says can be read
off the texts. Schemas with the same text are equal, so no list has two members with the same text.
Schemas that are equal have the same text by value, but `1`, `1.0` and `true` are equal, so one schema
may stand for another one that has a different text (`Heap.merged_differ`).

* `Node.SuppliesJson`: nodes whose values are standard.
* `Walked.standard`: what such nodes are compiled to is standard.
* `Heap.merged_texts`: which schemas of a list stand for others.
-/

namespace WireShape

open Value (Fields)
open NullTypes (Each)

/-! ## What nodes supply -/

/-- A node all of whose values are standard. A limit may be that of a sibling field, a pattern may be
compiled, and a default may be made anew for each request. A literal schema that is merged into others
has text keys, as the children have. -/
structure Node.SuppliesJson (n : Node) : Prop where
  valids : ∀ v ∈ n.valids, v.IsStandard
  invalids : ∀ v ∈ n.invalids, v.IsStandard
  examples : ∀ v ∈ n.examples, v.IsStandard
  limits : ∀ limit, n.HasLimit limit → (∃ key, limit = .ref key) ∨ limit.IsStandard
  siblings : (n.metaValue "refValues").IsStandard
  patterns : ∀ regex, .pattern regex ∈ n.rules → (Node.patternSource regex).IsStandard
  description : (n.flag "description").IsStandard
  label : (n.flag "label").IsStandard
  default : isGenerated (n.flag "default") = true ∨ (n.flag "default").IsStandard
  literal : n.literal.IsStandard
  literalKeys : n.isLiteral = false → ∀ es, n.literal.toEntries = .ok es →
    ∀ e ∈ es, ∃ s, e.1 = .str s
  keys : ∀ e ∈ n.children, ∃ s, e.1 = .str s

/-- All nodes at or below a position have only standard values. -/
def Heap.SuppliesJson (h : Heap) (s : Schema) : Prop :=
  ∀ t, h.Reaches s t → (h.view t).SuppliesJson

/-- A schema that a walk from a position ends with, or such a schema marked as that of a required
branch. -/
def Heap.Publishes (h : Heap) (s : Schema) (v : Value) : Prop :=
  ∃ overriding ctx u after, Walked h s overriding ctx (some u) after ∧
    (v = u ∨ markRequired u = .ok v)

/-! ## Standard fields -/

namespace Value.IsStandard

variable {v w : Value} {fields : Fields} {identity : Option Nat}

theorem of_each (h : Each (fun _ v => v.IsStandard) fields) :
    (Value.map fields identity).IsStandard := by
  refine .map h.text h.separate fun e he => ?_
  obtain ⟨s, hs⟩ := h.text e he
  exact h.entries e he s hs

theorem each (h : (Value.map fields identity).IsStandard) :
    Each (fun _ v => v.IsStandard) fields := by
  cases h with
  | map hkeys hseparate hes => exact ⟨⟨hseparate, hkeys⟩, fun e he _ _ => hes e he⟩

theorem reference {place what : String} : (WireShape.reference place what).IsStandard :=
  of_each (Each.set .nil (.atom (.str _)))

theorem marked (h : v.IsStandard) (hw : markRequired v = .ok w) : w.IsStandard := by
  cases v with
  | map fields identity =>
    cases hw
    exact of_each (h.each.set (.atom (.bool true)))
  | _ => cases hw

theorem itemsValue {xs : List Value} (h : ∀ x ∈ xs, x.IsStandard) : (itemsValue xs).IsStandard :=
  itemsValue_forall h (of_each .nil) fun _ hdistinct => of_each (Each.set .nil (.list hdistinct))

/-- The elements of a standard value are standard. -/
theorem elements (h : v.IsStandard) {xs : List Value} (hxs : v.elements? = some xs) :
    ∀ x ∈ xs, x.IsStandard := by
  cases h with
  | list hall =>
    cases hxs
    exact hall
  | map hkeys =>
    cases hxs
    refine List.forall_mem_map.mpr fun e he => ?_
    obtain ⟨s, hs⟩ := hkeys e he
    rw [hs]
    exact .atom (.str s)
  | atom ha =>
    cases ha with
    | str s =>
      cases hxs
      exact List.forall_mem_map.mpr fun c _ => .atom (.str _)
    | _ => cases hxs

/-- Pairs of standard values are written over entries with standard values. -/
theorem writePairs {pairs : List Value} (hpairs : ∀ p ∈ pairs, p.IsStandard) {index : Nat}
    {acc es : Fields} (hacc : OrderedMap.Separate acc ∧ ∀ e ∈ acc, e.2.IsStandard)
    (h : Value.writePairs index pairs acc = .ok es) :
    OrderedMap.Separate es ∧ ∀ e ∈ es, e.2.IsStandard := by
  induction pairs generalizing index acc with
  | nil =>
    cases h
    exact hacc
  | cons p rest ih =>
    unfold Value.writePairs at h
    split at h
    · cases h
    · rename_i k v hparts
      obtain ⟨key, _, hrest⟩ := bind_eq_ok_iff.mp h
      refine ih (fun q hq => hpairs q (List.mem_cons_of_mem _ hq)) ⟨hacc.1.insert, ?_⟩ hrest
      intro e he
      rcases OrderedMap.mem_insert he with hold | ⟨hvalue, _⟩
      · exact hacc.2 e hold
      · rw [hvalue]
        exact (hpairs p List.mem_cons_self).elements hparts v (by simp)
    · cases h

/-- A standard value that is read as entries with text keys gives standard fields. -/
theorem toEntries (h : v.IsStandard) (hfields : v.toEntries = .ok fields)
    (hkeys : ∀ e ∈ fields, ∃ s, e.1 = .str s) : Each (fun _ v => v.IsStandard) fields := by
  have hentries : OrderedMap.Separate fields ∧ ∀ e ∈ fields, e.2.IsStandard := by
    unfold Value.toEntries at hfields
    split at hfields
    · cases hfields
      exact ⟨h.each.separate, fun e he => by
        obtain ⟨s, hs⟩ := hkeys e he
        exact h.each.entries e he s hs⟩
    · obtain ⟨pairs, hpairs, hwritten⟩ := bind_eq_ok_iff.mp hfields
      unfold Value.elements at hpairs
      split at hpairs
      · rename_i xs hxs
        cases hpairs
        exact writePairs (h.elements hxs) ⟨.nil, List.forall_mem_nil _⟩ hwritten
      · cases hpairs
  exact ⟨⟨hentries.1, hkeys⟩, fun e he _ _ => hentries.2 e he⟩

end Value.IsStandard

/-! ## What nodes write -/

section Nodes

variable {h : Heap} {n : Node} {fields : Fields} {outcomes whenOutcomes : List Compiled}

namespace Node.SuppliesJson

/-- A limit is standard when that of a sibling field has been looked up. -/
theorem limitValue (hn : n.SuppliesJson) {limit v : Value}
    (hlimit : (∃ key, limit = .ref key) ∨ limit.IsStandard) (h : n.limitValue limit = .ok v) :
    v.IsStandard := by
  unfold Node.limitValue at h
  split at h
  · have hfallback : (Value.int 0).IsStandard := .atom (.int 0)
    have hsiblings := hn.siblings
    unfold Node.siblingValue at h
    dsimp only at h
    split at h
    · obtain ⟨found, hfound, hpure⟩ := bind_eq_ok_iff.mp h
      cases hpure
      cases found with
      | none => exact hfallback
      | some v =>
        generalize n.metaValue "refValues" = values at hsiblings hfound
        cases values with
        | map es identity => exact hsiblings.found (Except.ok.inj hfound)
        | _ => cases hfound
    · cases h
      exact hfallback
  · rename_i hplain
    cases h
    rcases hlimit with ⟨key, hkey⟩ | hstandard
    · exact absurd hkey (hplain key)
    · exact hstandard

/-- What such a node writes is standard if its parts are. -/
theorem writes (hn : n.SuppliesJson) {name : String} {v : Value}
    (h : n.Writes (fun k => ∃ s, k = .str s) Value.IsStandard Value.IsStandard name v) :
    v.IsStandard := by
  have hchosen : ∀ {vs xs : List Value}, (∀ v ∈ vs, v.IsStandard) →
      (∀ x ∈ xs, x ∈ vs ∧ x.isChoice = true) → (Value.list xs).IsStandard :=
    fun hvs hxs => .list fun x hx => hvs x (hxs x hx).1
  cases h with
  | type => exact .atom (.str _)
  | format => exact .atom (.str _)
  | positive => exact .atom (.int _)
  | negative => exact .atom (.int _)
  | limit _ hrule hv => exact hn.limitValue (hn.limits _ hrule) hv
  | letters => exact .atom (.str _)
  | token => exact .atom (.str _)
  | pattern hrule => exact hn.patterns _ hrule
  | place => exact .atom (.str _)
  | choices hxs => exact hchosen hn.valids hxs
  | denied hxs => exact .of_each (Each.set .nil (hchosen hn.invalids hxs))
  | properties hseparate hes =>
    exact .map (fun e he => (hes e he).1) hseparate fun e he => (hes e he).2
  | required hkeys =>
    refine .list (List.forall_mem_map.mpr fun k hk => ?_)
    obtain ⟨s, rfl⟩ := hkeys k hk
    exact .atom (.str s)
  | closed => exact .atom (.bool _)
  | additional hv => exact hv
  | items hxs => exact .itemsValue hxs
  | unique => exact .atom (.bool _)
  | branches _ hxs => exact .list hxs
  | mark => exact .atom (.bool _)
  | description => exact hn.description
  | title => exact hn.label
  | default hmade =>
    exact hn.default.resolve_left fun hyes => absurd (hmade.symm.trans hyes) Bool.false_ne_true
  | sample hv => exact hn.examples _ hv
  | samples => exact .list hn.examples

/-- What such a node is put together to is standard if its parts are. -/
theorem assemble (hn : n.SuppliesJson) {kind : Kind} (hliteral : n.isLiteral = false)
    (ho : ∀ v, some v ∈ outcomes → v.IsStandard)
    (hw : ∀ v, some v ∈ whenOutcomes → v.IsStandard)
    (hfields : n.assemble h kind outcomes whenOutcomes = .ok fields) :
    (Value.ofEntries fields).IsStandard := by
  obtain ⟨written, hwritten, hadded⟩ : ∃ written, Each (n.Writes (fun k => ∃ s, k = .str s)
      Value.IsStandard Value.IsStandard) written ∧ n.addLiteral written = .ok fields :=
    Node.assemble_writes hn.keys ho (fun _ _ => branchValues_forall .marked ho)
      (fun _ => branchValues_forall .marked hw) hfields
  have hstandard := hwritten.mono fun _ _ => hn.writes
  unfold Node.addLiteral at hadded
  split at hadded
  · obtain ⟨es, hes, hpure⟩ := bind_eq_ok_iff.mp hadded
    cases hpure
    exact .of_each (hstandard.merge (hn.literal.toEntries hes (hn.literalKeys hliteral es hes)))
  · cases hadded
    exact .of_each hstandard

end Node.SuppliesJson

end Nodes

/-! ## Walks -/

section Walks

variable {h : Heap} {s t : Schema} {overriding : Bool} {ctx after : Context} {r : Compiled}
  {v w : Value} {xs : List Value}

theorem Heap.SuppliesJson.below (hs : h.SuppliesJson s) (ht : h.Holds s t) : h.SuppliesJson t :=
  fun u hu => hs u (.head ht hu)

theorem Finish.standard {schema : Value} {c : Option (Atom × Atom)}
    (hfinish : Finish h schema ctx c r after) (hschema : schema.IsStandard) :
    ∀ v, r = some v → v.IsStandard := by
  intro v hv
  cases hfinish with
  | plain =>
    rw [Compiled.ofValue] at hv
    split at hv
    · cases hv
    · cases hv
      exact hschema
  | define =>
    cases hv
    exact .reference

/-- The outcome of a walk from nodes with standard values is standard. -/
theorem Walked.standard (hs : h.SuppliesJson s) (hrun : Walked h s overriding ctx r after) :
    ∀ v, r = some v → v.IsStandard := by
  revert hs
  refine hrun.induct (P := fun s _ _ r _ => h.SuppliesJson s → ∀ v, r = some v → v.IsStandard) ?_
  intro s overriding ctx r after hstep hs
  cases hstep with
  | override _ ht hr => exact hr.2 (hs.below (.inr ht))
  | literal _ _ _ hfinish => exact hfinish.standard (hs s .refl).literal
  | known =>
    rintro v ⟨⟩
    exact .reference
  | forbidden => exact nofun
  | compiled _ hliteral _ _ _ _ _ hparts hwhens hfields hfinish =>
    have hpart : ∀ {t : Schema}, t ∈ (h.view s).parts → h.SuppliesJson t :=
      fun ht => hs.below (.inl ht)
    exact hfinish.standard ((hs s .refl).assemble hliteral
      (hparts.forall_outcomes fun t ht _ _ _ hr => hr.2 (hpart (Kind.mem_parts ht)))
      (hwhens.forall_outcomes fun t ht _ _ _ hr => hr.2 (hpart (Node.mem_whenParts ht))) hfields)

theorem Heap.Publishes.standard (hs : h.SuppliesJson s) (hv : h.Publishes s v) : v.IsStandard := by
  obtain ⟨_, _, u, _, hrun, rfl | hmark⟩ := hv
  · exact hrun.standard hs v rfl
  · exact (hrun.standard hs u rfl).marked hmark

/-! ## Lists -/

/-- One of two schemas is left out if they are equal. -/
theorem distinct_pair_iff : distinct [v, w] = [v] ↔ v.same w = true := by
  have hpair : distinct [v, w] = if v.same w || false then [v] else [v, w] := rfl
  rw [hpair, Bool.or_false]
  cases v.same w with
  | true => exact ⟨fun _ => rfl, fun _ => rfl⟩
  | false => exact ⟨fun h => (by cases h), fun h => absurd h Bool.false_ne_true⟩

/-- Schemas that nodes with standard values are compiled to, in a list in which equal ones stand once.
Without a title, schemas with the same text are merged, and two are merged if and only if they have the
same text by value. So each is in the list or has the text of one that is, by value, and no two in the
list have the same text. -/
theorem Heap.merged_texts (hxs : ∀ x ∈ xs, ∃ s, h.SuppliesJson s ∧ h.Publishes s x) :
    (∀ v ∈ xs, ∀ w ∈ xs, v.field? "title" = none → w.field? "title" = none → ∃ a b a' b',
      Json.canonical h.describe v = .ok a ∧ Json.canonical h.describe w = .ok b ∧
        Json.canonical h.describe v.byValue = .ok a' ∧
          Json.canonical h.describe w.byValue = .ok b' ∧
            (a = b → distinct [v, w] = [v]) ∧ (distinct [v, w] = [v] ↔ a' = b')) ∧
    (∀ x ∈ xs, ∃ y ∈ distinct xs, ∃ a, Json.canonical h.describe x.byValue = .ok a ∧
      Json.canonical h.describe y.byValue = .ok a) ∧
    (distinct xs).Pairwise fun y z => y.field? "title" = none → z.field? "title" = none →
      Json.canonical h.describe y ≠ Json.canonical h.describe z := by
  have hstandard : ∀ x ∈ xs, x.IsStandard := by
    intro x hx
    obtain ⟨s, hs, hv⟩ := hxs x hx
    exact hv.standard hs
  refine ⟨fun v hv w hw htitle htitle' => ?_, fun x hx => ?_, ?_⟩
  · rw [distinct_pair_iff]
    exact Json.same_iff_texts (hstandard v hv) (hstandard w hw) htitle htitle'
  · have hself : x.same x = true :=
      (hstandard x hx).selfEqual.same_of_alike (hstandard x hx).proper.alike_refl
    obtain ⟨y, hy, hsame⟩ := List.any_eq_true.mp ((standsAmong_distinct hx).isIn hself)
    have hy' := hstandard y (mem_distinct hy)
    obtain ⟨a, b, ha, hb, hab⟩ := @Json.standard_shape_iff _ _ h.describe hy'.byValue
      (hstandard x hx).byValue
    rw [← hab.mpr ((hy'.same_iff (hstandard x hx)).mp hsame).butTitle] at hb
    exact ⟨y, hy, a, hb, ha⟩
  · refine distinct_pairwise.imp_of_mem fun {y z} hy hz hdiffer htitle htitle' heq => ?_
    obtain ⟨a, b, _, _, ha, hb, _, _, hmerged, _⟩ := @Json.same_iff_texts
      h.describe _ _ (hstandard y (mem_distinct hy)) (hstandard z (mem_distinct hz)) htitle htitle'
    rw [ha, hb] at heq
    exact absurd (hdiffer.symm.trans (hmerged (Except.ok.inj heq))) Bool.false_ne_true

end Walks

/-! ## Defaults that are equal -/

/-- A node without rules, values and literal schema supplies what its flags do. -/
theorem Node.SuppliesJson.of_plain {n : Node} (hrules : n.rules = [])
    (hvalues : n.valids = [] ∧ n.invalids = [] ∧ n.examples = [])
    (hliteral : n.literal = .null) (hsiblings : n.metaValue "refValues" = .null)
    (hflags : ∀ e ∈ n.flags, e.2.IsStandard) (hkeys : ∀ e ∈ n.children, ∃ s, e.1 = .str s) :
    n.SuppliesJson := by
  have hnull : Value.null.IsStandard := .atom .null
  have hflag : ∀ name, (n.flag name).IsStandard := by
    intro name
    unfold Node.flag OrderedMap.getD
    cases hget : OrderedMap.get? n.flags name with
    | none => exact hnull
    | some v =>
      obtain ⟨k, hmem, _⟩ := OrderedMap.mem_of_get? hget
      exact hflags (k, v) hmem
  obtain ⟨hvalids, hinvalids, hexamples⟩ := hvalues
  refine ⟨by simp [hvalids], by simp [hinvalids], by simp [hexamples], fun limit hrule => ?_,
    by rwa [hsiblings], by simp [hrules], hflag _, hflag _, .inr (hflag _), by rwa [hliteral],
    fun _ es hes => ?_, hkeys⟩
  · rw [Node.HasLimit, hrules] at hrule
    rcases hrule with hrule | hrule | hrule <;> cases hrule
  · rw [hliteral] at hes
    cases hes

/-- A node that has nothing but flags and items supplies what its flags do. -/
theorem Node.SuppliesJson.of_flags {kind : String} {flags : OrderedMap String Value}
    {items : List Schema} (hflags : ∀ e ∈ flags, e.2.IsStandard) :
    ({ kind := kind, flags := flags, items := items } : Node).SuppliesJson :=
  .of_plain rfl ⟨rfl, rfl, rfl⟩ rfl rfl hflags nofun

/-- Fields of any kind with the defaults one, true and two, and a list of them. -/
def defaultsHeap : Heap where
  nodes := #[
    { kind := "any", flags := [("default", .int 1)] },
    { kind := "any", flags := [("default", .bool true)] },
    { kind := "any", flags := [("default", .int 2)] },
    { kind := "array", items := [.node 0, .node 1, .node 2] }]

/-- A schema that says nothing but a default. -/
def defaultOf (a : Atom) : Value := .ofFields [("default", .atom a)]

/-- All that is supplied there is standard. -/
theorem defaultsHeap_supplies {i : Nat} (hi : i ≤ 3) : defaultsHeap.SuppliesJson (.node i) := by
  intro t ht
  have hdescends : defaultsHeap.Descends := Heap.descends_of_nodes (by decide)
  obtain ⟨j, hj, rfl⟩ := hdescends.reaches ht
  have hdefault : ∀ {v : Value}, v.IsStandard → ∀ e ∈ [("default", v)], e.2.IsStandard :=
    fun hv e he => by rwa [List.mem_singleton.mp he]
  rcases j with _ | _ | _ | _ | j
  · exact .of_flags (hdefault (.atom (.int 1)))
  · exact .of_flags (hdefault (.atom (.bool true)))
  · exact .of_flags (hdefault (.atom (.int 2)))
  · exact .of_flags nofun
  · exact absurd (hj.trans hi) (Nat.not_le.mpr (Nat.le_add_left 4 j))

/-- The fields are compiled to schemas that say their defaults. -/
theorem defaultsHeap_publishes : defaultsHeap.Publishes (.node 0) (defaultOf (.int 1)) ∧
    defaultsHeap.Publishes (.node 1) (defaultOf (.bool true)) ∧
    defaultsHeap.Publishes (.node 2) (defaultOf (.int 2)) :=
  ⟨⟨false, {}, _, {}, ⟨1, rfl⟩, .inl rfl⟩, ⟨false, {}, _, {}, ⟨1, rfl⟩, .inl rfl⟩,
    ⟨false, {}, _, {}, ⟨1, rfl⟩, .inl rfl⟩⟩

/-- The texts of defaults that are no title differ where the defaults do. -/
theorem canonical_defaultOf_ne {describe : Describe} {a b : Atom} (ha : a.IsStandard)
    (hb : b.IsStandard) (hne : a ≠ b) :
    Json.canonical describe (defaultOf a) ≠ Json.canonical describe (defaultOf b) := by
  have hstandard : ∀ {a : Atom}, a.IsStandard → (defaultOf a).IsStandard :=
    fun ha => .of_each (Each.set .nil (.atom ha))
  obtain ⟨s, t, hs, ht, htexts⟩ :=
    @Json.standard_shape_iff _ _ describe (hstandard ha) (hstandard hb)
  rw [hs, ht]
  intro heq
  have hdata : Option.Rel Value.SameData (some (.atom a)) (some (.atom b)) :=
    htexts.mp (Except.ok.inj heq) (.str "default") (by decide)
  cases hdata with
  | some hsame => exact hne (Value.sameData_atom_iff.mp hsame)

/-- The defaults one and true are merged, as they have the same text by value; the default two is kept,
and its text is another one. -/
theorem Heap.merged_texts_defaults :
    (∀ x ∈ [defaultOf (.int 1), defaultOf (.bool true), defaultOf (.int 2)],
      ∃ s, defaultsHeap.SuppliesJson s ∧ defaultsHeap.Publishes s x) ∧
    (∃ a, Json.canonical defaultsHeap.describe (defaultOf (.int 1)).byValue = .ok a ∧
      Json.canonical defaultsHeap.describe (defaultOf (.bool true)).byValue = .ok a) ∧
    distinct [defaultOf (.int 1), defaultOf (.bool true), defaultOf (.int 2)] =
      [defaultOf (.int 1), defaultOf (.int 2)] ∧
    Json.canonical defaultsHeap.describe (defaultOf (.int 1)) ≠
      Json.canonical defaultsHeap.describe (defaultOf (.int 2)) := by
  have hxs : ∀ x ∈ [defaultOf (.int 1), defaultOf (.bool true), defaultOf (.int 2)],
      ∃ s, defaultsHeap.SuppliesJson s ∧ defaultsHeap.Publishes s x := by
    obtain ⟨hone, htrue, htwo⟩ := defaultsHeap_publishes
    refine List.forall_mem_cons.mpr ⟨⟨_, defaultsHeap_supplies (by decide), hone⟩,
      List.forall_mem_cons.mpr ⟨⟨_, defaultsHeap_supplies (by decide), htrue⟩,
        List.forall_mem_singleton.mpr ⟨_, defaultsHeap_supplies (by decide), htwo⟩⟩⟩
  have hkept : distinct [defaultOf (.int 1), defaultOf (.bool true), defaultOf (.int 2)] =
      [defaultOf (.int 1), defaultOf (.int 2)] := by rfl
  obtain ⟨hpairs, _, hapart⟩ := merged_texts hxs
  obtain ⟨_, _, a, b, _, _, ha, hb, _, hmerged⟩ := hpairs (defaultOf (.int 1)) (by simp)
    (defaultOf (.bool true)) (by simp) rfl rfl
  rw [hkept] at hapart
  refine ⟨hxs, ⟨a, ha, ?_⟩, hkept, ?_⟩
  · rw [hmerged.mp rfl]
    exact hb
  · exact (List.pairwise_cons.mp hapart).1 _ List.mem_cons_self rfl rfl

/-- Schemas with different texts are merged: of fields with the defaults one and true, only the first
is among the items of the list. -/
theorem Heap.merged_differ :
    defaultsHeap.SuppliesJson (.node 0) ∧ defaultsHeap.SuppliesJson (.node 1) ∧
    defaultsHeap.Publishes (.node 0) (defaultOf (.int 1)) ∧
    defaultsHeap.Publishes (.node 1) (defaultOf (.bool true)) ∧
    (defaultOf (.int 1)).field? "title" = none ∧ (defaultOf (.bool true)).field? "title" = none ∧
    distinct [defaultOf (.int 1), defaultOf (.bool true)] = [defaultOf (.int 1)] ∧
    Json.canonical defaultsHeap.describe (defaultOf (.int 1)) ≠
      Json.canonical defaultsHeap.describe (defaultOf (.bool true)) ∧
    (defaultsHeap.compileAgainst [] (.node 3)).1 = .ok (some ⟨.ofFields [("type", .str "array"),
      ("items", .ofFields [("oneOf", .list [defaultOf (.int 1), defaultOf (.int 2)])])], []⟩) := by
  obtain ⟨hone, htrue, _⟩ := defaultsHeap_publishes
  exact ⟨defaultsHeap_supplies (by decide), defaultsHeap_supplies (by decide), hone, htrue, rfl, rfl,
    rfl, canonical_defaultOf_ne (.int 1) (.bool true) (by decide), rfl⟩

end WireShape
