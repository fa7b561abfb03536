import WireShape.Proofs.Compile.Writing
import WireShape.Proofs.Nullable.Translation

/-!
# Published schemas of nodes

What a node says about itself and what its parts compile to make up a published schema: each keyword
that a kind writes has a value of the published form, and the annotations have no mark.

* `Node.Translatable`: the nodes that are considered.
* `PublishedFields`: fields whose entries can stand in a published schema.
* `Node.Writes.published`: what such a node writes can stand in one.
* `Node.publishedFields_assemble`: what a node is put together to, if its parts are published.
-/

namespace WireShape

open Value (Fields Shown)
open NullTypes (Tidy)

/-- Nodes without conditions, class or literal schema. Their limits are integers once references to
siblings have been resolved, their patterns can be read, no child has the key of the mark, and
neither has a mapping in an annotation. Keys and annotations can be shown, as they can unless a
schema node in them has a label that is not text. -/
structure Node.Translatable (describe : Describe) (n : Node) : Prop where
  whens : n.whens = []
  choices : n.kind? = some .alternatives → n.choices = []
  literal : n.literal.isNull = true
  unnamed : n.className.truthy = false
  limits : ∀ limit, .min limit ∈ n.rules ∨ .max limit ∈ n.rules ∨ .length limit ∈ n.rules →
    ∃ i, n.limitValue limit = .ok (.int i)
  patterns : ∀ regex, .pattern regex ∈ n.rules →
    ∃ p, Assertion.patternOf (Node.patternSource regex) = .ok p
  keys : ∀ e ∈ n.children, e.1 ≠ .str "nullable" ∧ (Value.atom e.1).Shown describe
  annotations : ∀ name ∈ ["label", "description", "default"],
    (n.flag name).Unmarked ∧ (n.flag name).Shown describe
  examples : ∀ v ∈ n.examples, v.Unmarked ∧ v.Shown describe

/-- A node without metadata and flags whose limits are integers and that has no patterns. -/
theorem Node.Translatable.of_bare {describe : Describe} {n : Node}
    (hparts : n.whens = [] ∧ n.choices = [])
    (hnone : n.metadata = [] ∧ n.flags = [])
    (hrules : ∀ limit, .min limit ∈ n.rules ∨ .max limit ∈ n.rules ∨ .length limit ∈ n.rules →
      ∃ i, limit = .int i)
    (hpatterns : ∀ regex, .pattern regex ∉ n.rules)
    (hkeys : ∀ e ∈ n.children, ∃ s, e.1 = .str s ∧ s ≠ "nullable")
    (hexamples : ∀ v ∈ n.examples, v.Unmarked ∧ v.Shown describe) : n.Translatable describe := by
  obtain ⟨hmetadata, hflags⟩ := hnone
  have hmeta := metaValue_of_bare hmetadata
  refine ⟨hparts.1, fun _ => hparts.2, ?_, ?_, fun limit hlimit => ?_,
    fun regex hregex => absurd hregex (hpatterns regex), fun e he => ?_, fun name _ => ?_,
    hexamples⟩
  · rw [Node.literal, hmeta]
    rfl
  · rw [Node.className, hmeta]
    rfl
  · obtain ⟨i, rfl⟩ := hrules limit hlimit
    exact ⟨i, rfl⟩
  · obtain ⟨s, hs, hmark⟩ := hkeys e he
    rw [hs]
    exact ⟨fun heq => hmark (Atom.str.inj heq), ⟨_, rfl⟩⟩
  · rw [Node.flag, hflags]
    exact ⟨.atom _, ⟨_, rfl⟩⟩

/-! ## Entries -/

/-- What stands under a name in a published schema: the value of a keyword other than alternatives,
the mark, or an annotation. -/
def Published.Entry (describe : Describe) (name : String) (v : Value) : Prop :=
  match Keyword.ofName? name with
  | some kw => kw ≠ .oneOf ∧ kw.PublishedForm describe v ∧ ∀ u, kw.Inner v u → Published describe u
  | none => (name = "nullable" → v = .bool true) ∧ v.Unmarked ∧ v.Shown describe

/-- Fields whose entries can stand in a published schema. -/
structure PublishedFields (describe : Describe) (fields : Fields) : Prop extends Tidy fields where
  entries : ∀ e ∈ fields, ∀ s, e.1 = .str s → Published.Entry describe s e.2

namespace Published

variable {describe : Describe} {v : Value} {name : String}

/-- The value of a keyword in which no schemas stand. -/
theorem Entry.of_plain (kw : Keyword) (hplain : kw.hasSchemas = false)
    (hform : kw.PublishedForm describe v) : Entry describe kw.name v := by
  unfold Entry
  rw [Keyword.ofName?_name]
  refine ⟨?_, hform, fun u hu => ?_⟩
  · rintro rfl
    cases hplain
  · cases hu <;> cases hplain

theorem Entry.of_int (kw : Keyword) (hform : kw.PublishedForm describe = fun v => ∃ i, v = .int i)
    (hplain : kw.hasSchemas = false) (i : Int) : Entry describe kw.name (.int i) :=
  .of_plain kw hplain (by rw [hform]; exact ⟨i, rfl⟩)

theorem Entry.of_type {s : String} (h : (Assertion.typeTest? s).isSome = true) :
    Entry describe "type" (.str s) := by
  obtain ⟨test, htest⟩ := Option.isSome_iff_exists.mp h
  exact Entry.of_plain .type rfl ⟨s, test, rfl, htest⟩

theorem Entry.of_format {s : String} : Entry describe "format" (.str s) :=
  Entry.of_plain .format rfl ⟨s, rfl⟩

/-- What is no keyword is an annotation. -/
theorem Entry.of_annotated (hname : Keyword.ofName? name = none) (hmark : name ≠ "nullable")
    (hv : v.Unmarked ∧ v.Shown describe) : Entry describe name v := by
  unfold Entry
  rw [hname]
  exact ⟨fun heq => absurd heq hmark, hv⟩

theorem Entry.mark : Entry describe "nullable" (.bool true) :=
  ⟨fun _ => rfl, .atom _, ⟨_, rfl⟩⟩

end Published

open Published (Entry)

namespace PublishedFields

variable {describe : Describe} {fields : Fields} {name : String} {v : Value}

theorem of_each (h : NullTypes.Each (Entry describe) fields) : PublishedFields describe fields :=
  ⟨h.toTidy, h.entries⟩

theorem each (h : PublishedFields describe fields) : NullTypes.Each (Entry describe) fields :=
  ⟨h.toTidy, h.entries⟩

theorem nil : PublishedFields describe [] := .of_each .nil

theorem set (h : PublishedFields describe fields) (hv : Entry describe name v) :
    PublishedFields describe (fields.set name v) := .of_each (h.each.set hv)

theorem remove (h : PublishedFields describe fields) :
    PublishedFields describe (fields.remove name) := .of_each h.each.remove

/-- Fields with such entries make up a published schema. -/
theorem published (h : PublishedFields describe fields) {identity : Option Nat} :
    Published describe (.map fields identity) := by
  have hkeyword : ∀ (kw : Keyword) v, OrderedMap.get? fields (.str kw.name) = some v →
      kw ≠ .oneOf ∧ kw.PublishedForm describe v ∧ ∀ u, kw.Inner v u → Published describe u := by
    intro kw v hv
    have hentry := h.each.get? hv
    unfold Entry at hentry
    rwa [Keyword.ofName?_name] at hentry
  have hother : ∀ s v, OrderedMap.get? fields (.str s) = some v → Keyword.ofName? s = none →
      (s = "nullable" → v = .bool true) ∧ v.Unmarked ∧ v.Shown describe := by
    intro s v hv hs
    have hentry := h.each.get? hv
    unfold Entry at hentry
    rwa [hs] at hentry
  refine .intro (OrderedMap.contains fields (.str "nullable")) h.toTidy ?_ (fun _ => ?_)
    (fun kw v hv => (hkeyword kw v hv).2.1) (fun s v hv hs => (hother s v hv hs).2)
    fun kw v u hv hu => (hkeyword kw v hv).2.2 u hu
  · unfold OrderedMap.contains
    cases hget : OrderedMap.get? fields (.str "nullable") with
    | none => rfl
    | some v =>
      rw [(hother _ v hget rfl).1 rfl]
      rfl
  · cases hget : OrderedMap.get? fields (.str "oneOf") with
    | none => rfl
    | some v => exact absurd rfl (hkeyword .oneOf v hget).1

end PublishedFields

/-! ## Schemas in entries -/

section Inner

variable {describe : Describe} {v : Value}

theorem isScalar_of_isChoice (h : v.isChoice = true) : v.IsScalar := by
  rw [Value.isChoice, Bool.or_eq_true, Bool.or_eq_true] at h
  rcases h with (htext | hnumber) | hbool
  · unfold Value.isText at htext
    split at htext
    · exact .inl ⟨_, rfl⟩
    · cases htext
  · unfold Value.isNumber Value.number? at hnumber
    split at hnumber
    · exact .inr (.inl ⟨_, rfl⟩)
    · exact .inr (.inr (.inr ⟨_, rfl⟩))
    · cases hnumber
  · unfold Value.isBool at hbool
    split at hbool
    · exact .inr (.inr (.inl ⟨_, rfl⟩))
    · cases hbool

theorem Published.isMap {v : Value} (h : Published describe v) : v.isMap = true := by
  cases h with
  | intro => rfl

theorem Published.Entry.of_items {v : Value} (h : Published describe v) :
    Entry describe "items" v := by
  refine ⟨by decide, h.isMap, fun u hu => ?_⟩
  cases hu
  exact h

theorem Published.Entry.of_additional {v : Value} (h : Published describe v) :
    Entry describe "additionalProperties" v := by
  refine ⟨by decide, .inr h.isMap, fun u hu => ?_⟩
  cases hu
  exact h

/-- Published schemas side by side as alternatives. -/
theorem Published.alternatives {xs : List Value} (h : ∀ x ∈ xs, Published describe x) :
    Published describe (.ofFields [("oneOf", .list xs)]) := by
  have hget : ∀ {s : String} {v : Value},
      OrderedMap.get? [(Atom.str "oneOf", Value.list xs)] (.str s) = some v →
        s = "oneOf" ∧ v = .list xs := by
    intro s v hv
    obtain ⟨k, hmem, hk⟩ := OrderedMap.mem_of_get? hv
    obtain ⟨rfl, rfl⟩ := Prod.mk.inj (List.mem_singleton.mp hmem)
    exact ⟨Atom.str.inj (Atom.str_beq_iff.mp hk), rfl⟩
  have hkeyword : ∀ {kw : Keyword} {v : Value},
      OrderedMap.get? [(Atom.str "oneOf", Value.list xs)] (.str kw.name) = some v →
        kw = .oneOf ∧ v = .list xs := by
    intro kw v hv
    obtain ⟨hname, hlist⟩ := hget hv
    have hkw := Keyword.ofName?_name kw
    rw [hname] at hkw
    exact ⟨(Option.some.inj hkw).symm, hlist⟩
  refine .intro false ⟨List.pairwise_singleton _ _, fun e he => ?_⟩ rfl nofun (fun kw v hv => ?_)
    (fun s v hv hs => ?_) fun kw v u hv hu => ?_
  · obtain rfl := List.mem_singleton.mp he
    exact ⟨_, rfl⟩
  · obtain ⟨rfl, rfl⟩ := hkeyword hv
    exact ⟨xs, rfl⟩
  · obtain ⟨rfl, _⟩ := hget hv
    cases hs
  · obtain ⟨rfl, rfl⟩ := hkeyword hv
    cases hu with
    | branch hu => exact h u hu

theorem published_itemsValue {schemas : List Value}
    (hschemas : ∀ v ∈ schemas, Published describe v) : Published describe (itemsValue schemas) :=
  itemsValue_forall hschemas PublishedFields.nil.published fun _ => Published.alternatives

/-- Choices that are denied. -/
theorem Published.Entry.of_denied {xs : List Value} (hxs : ∀ x ∈ xs, x.IsScalar) :
    Entry describe "not" (.ofFields [("enum", .list xs)]) := by
  refine ⟨by decide, ⟨_, rfl, hxs⟩, fun u hu => ?_⟩
  cases hu
  exact (PublishedFields.set .nil (.of_plain .enum rfl ⟨_, rfl, hxs⟩)).published

/-- Properties under keys other than that of the mark. -/
theorem Published.Entry.of_properties {es : Fields} (hes : ∀ e ∈ es, (e.1 ≠ .str "nullable" ∧
      (Value.atom e.1).Shown describe) ∧ Published describe e.2) :
    Entry describe "properties" (.ofEntries es) := by
  refine ⟨by decide, ⟨es, none, rfl, fun e he => (hes e he).1⟩, fun u hu => ?_⟩
  cases hu with
  | property he => exact (hes _ he).2

theorem Published.Entry.closed : Entry describe "additionalProperties" (.bool false) := by
  refine ⟨by decide, .inl rfl, fun u hu => ?_⟩
  cases hu with
  | additional hmap => cases hmap

/-- A limit that is an integer can stand under every name of a limit. -/
theorem Published.Entry.of_limit {name : String} (hname : name ∈ limitNames) (i : Int) :
    Entry describe name (.int i) := by
  rcases List.mem_cons.mp hname with rfl | hname
  · exact Entry.of_int .minimum rfl rfl i
  rcases List.mem_cons.mp hname with rfl | hname
  · exact Entry.of_int .maximum rfl rfl i
  rcases List.mem_cons.mp hname with rfl | hname
  · exact Entry.of_int .minLength rfl rfl i
  rcases List.mem_cons.mp hname with rfl | hname
  · exact Entry.of_int .maxLength rfl rfl i
  rcases List.mem_cons.mp hname with rfl | hname
  · exact Entry.of_int .minItems rfl rfl i
  · obtain rfl := List.mem_singleton.mp hname
    exact Entry.of_int .maxItems rfl rfl i

end Inner

/-! ## What nodes write -/

section Node

variable {describe : Describe} {h : Heap} {n : Node} {fields : Fields}

/-- What a translatable node writes, branches apart, can stand in a published schema if its parts are
published. -/
theorem Node.Writes.published {name : String} {v : Value} (hn : n.Translatable describe)
    (h : n.Writes (fun k => k ≠ .str "nullable" ∧ (Value.atom k).Shown describe)
      (Published describe) (fun _ => False) name v) : Entry describe name v := by
  have hflag : ∀ name flag, flag ∈ ["label", "description", "default"] →
      Keyword.ofName? name = none → name ≠ "nullable" → Entry describe name (n.flag flag) :=
    fun _ _ hflag hname hmark => .of_annotated hname hmark (hn.annotations _ hflag)
  have hpattern : ∀ {v : Value}, (∃ p, Assertion.patternOf v = .ok p) →
      Entry describe "pattern" v := fun h => Entry.of_plain .pattern rfl h
  cases h with
  | type htest => exact .of_type (Option.isSome_iff_exists.mpr ⟨_, htest⟩)
  | format => exact .of_format
  | positive => exact .of_limit (by decide) 1
  | negative => exact .of_limit (by decide) (-1)
  | limit hname hrule hv =>
    obtain ⟨i, hi⟩ := hn.limits _ hrule
    cases hi.symm.trans hv
    exact .of_limit hname i
  | letters suffix =>
    refine hpattern (exists_of_isOk ?_)
    unfold alphanumPattern
    split <;> decide
  | token => exact hpattern (exists_of_isOk (by decide))
  | pattern hrule => exact hpattern (hn.patterns _ hrule)
  | place => exact .of_annotated rfl (by decide) ⟨.atom _, ⟨_, rfl⟩⟩
  | choices hxs =>
    exact .of_plain .enum rfl ⟨_, rfl, fun x hx => isScalar_of_isChoice (hxs x hx).2⟩
  | denied hxs => exact .of_denied fun x hx => isScalar_of_isChoice (hxs x hx).2
  | properties _ hes => exact .of_properties hes
  | required hkeys => exact .of_plain .required rfl ⟨_, rfl, fun k hk => (hkeys k hk).2⟩
  | closed => exact .closed
  | additional hv => exact .of_additional hv
  | items hxs => exact .of_items (published_itemsValue hxs)
  | unique => exact .of_plain .uniqueItems rfl ⟨true, rfl⟩
  | branches hne hxs => exact (hxs _ (List.head_mem hne)).elim
  | mark => exact Published.Entry.mark
  | description => exact hflag _ _ (by decide) rfl (by decide)
  | title => exact hflag _ _ (by decide) rfl (by decide)
  | default => exact hflag _ _ (by decide) rfl (by decide)
  | sample hv => exact .of_annotated rfl (by decide) (hn.examples _ hv)
  | samples =>
    exact .of_annotated rfl (by decide)
      ⟨.list fun v hv => (hn.examples v hv).1, Value.shown_list fun v hv => (hn.examples v hv).2⟩

/-- A node is put together to a published schema, if its parts are published. -/
theorem Node.publishedFields_assemble {kind : Kind} {outcomes whenOutcomes : List Compiled}
    (hn : n.Translatable describe) (hkind : n.kind? = some kind)
    (ho : ∀ v, some v ∈ outcomes → Published describe v)
    (hfields : n.assemble h kind outcomes whenOutcomes = .ok fields) :
    PublishedFields describe fields := by
  have hnone : ∀ {outcomes : List Compiled} {xs : List Value},
      branchValues h [] outcomes = .ok xs → ∀ x ∈ xs, False := by
    rintro outcomes xs ⟨⟩
    exact nofun
  obtain ⟨written, hwritten, hliteral⟩ : ∃ written, NullTypes.Each (n.Writes
      (fun k => k ≠ .str "nullable" ∧ (Value.atom k).Shown describe) (Published describe)
        fun _ => False) written ∧ n.addLiteral written = .ok fields := by
    refine Node.assemble_writes hn.keys ho (fun halternatives xs hxs => ?_) (fun xs hxs => ?_) hfields
    · rw [hn.choices (hkind.trans (congrArg some halternatives))] at hxs
      exact hnone hxs
    · rw [Node.whenParts, hn.whens] at hxs
      exact hnone hxs
  unfold addLiteral at hliteral
  rw [Value.isNull_iff.mp hn.literal] at hliteral
  cases hliteral
  exact .of_each (hwritten.mono fun _ _ => Node.Writes.published hn)

end Node

end WireShape
