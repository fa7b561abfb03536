import WireShape.Proofs.Compile.Scalars
import WireShape.Proofs.Compile.Step
import WireShape.Proofs.Keys

/-!
# Fields made of related outcomes

The fields of a node are made of the outcomes of its parts without looking into them, but for two
things: equal schemas in a list are kept once, and an empty schema of all keys does not count. So a
relation between outcomes carries over to fields, if it is a congruence and the two things do not
tell related outcomes apart. Everything about what schemas contain or stand for is obtained from
this.

* `Congruence`: relations that mappings and lists keep.
* `Node.supplied`: the values of a node that stand in its fields as they are.
* `Node.assemble_related`: the fields from related outcomes are related.
-/

namespace WireShape

open Value (Fields)

/-! ## Related fields -/

/-- The key under which a schema refers to a definition. -/
abbrev refKey : Atom := .str "$ref"

/-- Entries of one key with related values; a reference by text is no such entry. -/
structure EntryRel (Rel : Value → Value → Prop) (e f : Atom × Value) : Prop where
  key : e.1 = f.1
  value : Rel e.2 f.2
  plain : e.1 = refKey → ∀ t, e.2 ≠ .str t

/-- Fields with the same keys in the same order, no two of them the same, and with related values. Keys
that are no text have a property. -/
structure FieldsRel (Key : Atom → Prop) (Rel : Value → Value → Prop) (fs gs : Fields) : Prop where
  entries : List.Forall₂ (EntryRel Rel) fs gs
  separate : OrderedMap.Separate fs
  keys : ∀ e ∈ fs, (∃ s, e.1 = .str s) ∨ Key e.1

namespace FieldsRel

variable {Key : Atom → Prop} {Rel : Value → Value → Prop} {fs gs ls ms : Fields} {v w : Value}

theorem nil : FieldsRel Key Rel [] [] := ⟨.nil, .nil, fun _ he => by cases he⟩

theorem insert_entries {k : Atom} (h : List.Forall₂ (EntryRel Rel) fs gs) (hv : Rel v w)
    (hk : k = refKey → ∀ t, v ≠ .str t) :
    List.Forall₂ (EntryRel Rel) (OrderedMap.insert fs k v) (OrderedMap.insert gs k w) := by
  induction h with
  | nil => exact .cons ⟨rfl, hv, hk⟩ .nil
  | @cons e f fs gs hef _ ih =>
    obtain ⟨k', v'⟩ := e
    obtain ⟨_, w'⟩ := f
    obtain rfl : k' = _ := hef.key
    rw [OrderedMap.insert, OrderedMap.insert]
    split
    · rename_i hek
      refine .cons ⟨rfl, hv, ?_⟩ ‹_›
      intro href
      rw [show k' = refKey from href] at hek
      exact hk (Atom.str_beq_iff.mp hek)
    · exact .cons hef ih

theorem insert {k : Atom} (h : FieldsRel Key Rel fs gs) (hv : Rel v w)
    (hk : k = refKey → ∀ t, v ≠ .str t) (hkey : (∃ s, k = .str s) ∨ Key k) :
    FieldsRel Key Rel (OrderedMap.insert fs k v) (OrderedMap.insert gs k w) := by
  refine ⟨insert_entries h.entries hv hk, h.separate.insert, fun e he => ?_⟩
  rcases OrderedMap.mem_insert he with hold | ⟨_, hnew | ⟨⟨b, hb⟩, _⟩⟩
  · exact h.keys e hold
  · rw [hnew]
    exact hkey
  · exact h.keys (e.1, b) hb

theorem set {name : String} (h : FieldsRel Key Rel fs gs) (hname : name ≠ "$ref") (hv : Rel v w) :
    FieldsRel Key Rel (fs.set name v) (gs.set name w) := by
  exact h.insert hv (fun hkey => absurd (Atom.str.inj hkey) hname) (.inl ⟨name, rfl⟩)

theorem merge (h : FieldsRel Key Rel fs gs) (h' : FieldsRel Key Rel ls ms) :
    FieldsRel Key Rel (fs.merge ls) (gs.merge ms) := by
  obtain ⟨hentries, -, hkeys⟩ := h'
  unfold Fields.merge OrderedMap.update
  induction hentries generalizing fs gs with
  | nil => exact h
  | @cons e f ls ms hef _ ih =>
    rw [List.foldl_cons, List.foldl_cons, ← hef.key]
    exact ih (h.insert hef.value hef.plain (hkeys e List.mem_cons_self))
      fun e' he' => hkeys e' (List.mem_cons_of_mem _ he')

theorem remove {name : String} (h : FieldsRel Key Rel fs gs) :
    FieldsRel Key Rel (fs.remove name) (gs.remove name) := by
  refine ⟨?_, h.separate.filter _, fun e he => h.keys e (List.mem_of_mem_filter he)⟩
  obtain ⟨hentries, -, -⟩ := h
  unfold Fields.remove OrderedMap.erase
  induction hentries with
  | nil => exact .nil
  | @cons e f fs gs hef _ ih =>
    rw [List.filter_cons, List.filter_cons, ← hef.key]
    split
    · exact .cons hef ih
    · exact ih

end FieldsRel

/-- The atoms that fields are made of where a node supplies none. -/
def Atom.isBasic : Atom → Bool
  | .null | .bool _ | .int _ | .str _ => true
  | _ => false

/-- A relation that mappings and lists keep. -/
structure Congruence (Key : Atom → Prop) (Rel : Value → Value → Prop) : Prop where
  basic : ∀ a, a.isBasic = true → Rel (.atom a) (.atom a)
  key : ∀ k, Key k → Rel (.atom k) (.atom k)
  list : ∀ {xs ys}, List.Forall₂ Rel xs ys → Rel (.list xs) (.list ys)
  map : ∀ {fs gs}, FieldsRel Key Rel fs gs → Rel (.ofEntries fs) (.ofEntries gs)
  mark : ∀ {v w marked}, Rel v w → markRequired w = .ok marked →
    ∃ marked', markRequired v = .ok marked' ∧ Rel marked' marked

theorem FieldsRel.setText {Key : Atom → Prop} {Rel : Value → Value → Prop}
    (hRel : Congruence Key Rel) {fs gs : Fields} {name s : String} (h : FieldsRel Key Rel fs gs)
    (hname : name ≠ "$ref") : FieldsRel Key Rel (fs.set name (.str s)) (gs.set name (.str s)) :=
  h.set hname (hRel.basic _ rfl)

/-! ## What a node supplies -/

namespace Node

/-- The values that the metadata of a node give for sibling fields. -/
def siblingValues (n : Node) : List Value :=
  match n.metaValue "refValues" with
  | .map es _ => es.map (·.2)
  | _ => []

/-- The values of a node that stand in its fields as they are. -/
def supplied (n : Node) : List Value :=
  n.flags.values ++ n.rules.flatMap (fun r => r.arguments.map (·.2)) ++ n.valids ++ n.invalids ++
    n.examples ++ n.siblingValues

variable {n : Node} {Key : Atom → Prop} {Rel : Value → Value → Prop}

theorem flag_mem (name : String) : n.flag name = .null ∨ n.flag name ∈ n.supplied := by
  unfold flag OrderedMap.getD
  cases hget : OrderedMap.get? n.flags name with
  | none => exact .inl rfl
  | some v =>
    refine .inr ?_
    obtain ⟨k, hmem, _⟩ := OrderedMap.mem_of_get? hget
    have hvalue : v ∈ n.flags.values := List.mem_map.mpr ⟨(k, v), hmem, rfl⟩
    simp only [supplied, List.mem_append]
    exact .inl (.inl (.inl (.inl (.inl hvalue))))

theorem argument_mem {rule : Rule} {argument : String × Value} (hrule : rule ∈ n.rules)
    (hargument : argument ∈ rule.arguments) : argument.2 ∈ n.supplied := by
  simp only [supplied, List.mem_append]
  refine .inl (.inl (.inl (.inl (.inr ?_))))
  exact List.mem_flatMap.mpr ⟨rule, hrule, List.mem_map_of_mem hargument⟩

/-- A limit that is written as a keyword is supplied. -/
theorem hasLimit_mem {limit : Value} (h : n.HasLimit limit) : limit ∈ n.supplied := by
  rcases h with hrule | hrule | hrule <;>
    exact argument_mem hrule (List.mem_singleton.mpr rfl)

theorem valid_mem {v : Value} (h : v ∈ n.valids) : v ∈ n.supplied := by
  simp only [supplied, List.mem_append]
  exact .inl (.inl (.inl (.inr h)))

theorem invalid_mem {v : Value} (h : v ∈ n.invalids) : v ∈ n.supplied := by
  simp only [supplied, List.mem_append]
  exact .inl (.inl (.inr h))

theorem example_mem {v : Value} (h : v ∈ n.examples) : v ∈ n.supplied := by
  simp only [supplied, List.mem_append]
  exact .inl (.inr h)

theorem sibling_mem {v : Value} (h : v ∈ n.siblingValues) : v ∈ n.supplied :=
  List.mem_append_right _ h

theorem rule?_mem {name : String} {rule : Rule} (h : n.rule? name = some rule) : rule ∈ n.rules :=
  List.mem_of_find?_eq_some h

/-- A limit is a supplied value or a number that stands for one that is missing. -/
theorem limitValue_mem {limit v : Value}
    (hlimit : limit ∈ n.supplied ∨ ∃ a, a.isBasic = true ∧ limit = .atom a)
    (h : n.limitValue limit = .ok v) : v ∈ n.supplied ∨ ∃ a, a.isBasic = true ∧ v = .atom a := by
  unfold limitValue at h
  split at h
  · unfold siblingValue at h
    dsimp only at h
    split at h
    · obtain ⟨found, hfound, hv⟩ := bind_eq_ok_iff.mp h
      cases hv
      cases found with
      | none => exact .inr ⟨_, rfl, rfl⟩
      | some v =>
        refine .inl (sibling_mem ?_)
        unfold siblingValues
        cases hmeta : n.metaValue "refValues" with
        | map es identity =>
          rw [hmeta] at hfound
          obtain ⟨_, hmem, _⟩ := OrderedMap.mem_of_get? (Except.ok.inj hfound)
          exact List.mem_map.mpr ⟨_, hmem, rfl⟩
        | _ =>
          rw [hmeta] at hfound
          cases hfound
    · cases h
      exact .inr ⟨_, rfl, rfl⟩
  · cases h
    exact hlimit

end Node

/-! ## Fields of scalars and sizes -/

section Supplied

variable {Key : Atom → Prop} {Rel : Value → Value → Prop} {n : Node} (hRel : Congruence Key Rel)
  (hn : ∀ v ∈ n.supplied, Rel v v)
include hRel hn

theorem Congruence.limit {limit v : Value}
    (hlimit : limit ∈ n.supplied ∨ ∃ a, a.isBasic = true ∧ limit = .atom a)
    (h : n.limitValue limit = .ok v) : Rel v v := by
  rcases Node.limitValue_mem hlimit h with hmem | ⟨a, ha, rfl⟩
  · exact hn v hmem
  · exact hRel.basic a ha

theorem Congruence.flag {name : String} : Rel (n.flag name) (n.flag name) := by
  rcases n.flag_mem name with hnull | hmem
  · rw [hnull]
    exact hRel.basic _ rfl
  · exact hn _ hmem

omit hRel in
theorem Node.values_related {xs : List Value} (hxs : ∀ v ∈ xs, v ∈ n.supplied) :
    List.Forall₂ Rel xs xs := List.forall₂_same.mpr fun v hv => hn v (hxs v hv)

theorem sizeKeywords_related {suffix : String} {fields : Fields}
    (hmin : "min" ++ suffix ≠ "$ref") (hmax : "max" ++ suffix ≠ "$ref")
    (h : n.sizeKeywords suffix = .ok fields) : FieldsRel Key Rel fields fields := by
  refine Node.sizeKeywords_keeps (I := fun fields => FieldsRel Key Rel fields fields)
    (fun name hname limit v fields hlimit hv hfields => ?_) .nil h
  have hnames : ∀ name ∈ ["min" ++ suffix, "max" ++ suffix], name ≠ "$ref" :=
    List.forall_mem_cons.mpr ⟨hmin, List.forall_mem_singleton.mpr hmax⟩
  exact hfields.set (hnames name hname) (hRel.limit hn (.inl (Node.hasLimit_mem hlimit)) hv)

theorem valueKeywords_related {accept : Value → Bool} :
    FieldsRel Key Rel (n.valueKeywords accept) (n.valueKeywords accept) := by
  have hvalids : List.Forall₂ Rel (n.valids.filter accept) (n.valids.filter accept) :=
    Node.values_related hn fun v hv => Node.valid_mem (List.mem_of_mem_filter hv)
  have hinvalids : List.Forall₂ Rel (n.invalids.filter accept) (n.invalids.filter accept) :=
    Node.values_related hn fun v hv => Node.invalid_mem (List.mem_of_mem_filter hv)
  have henum : FieldsRel Key Rel [(.str "enum", .list (n.invalids.filter accept))]
      [(.str "enum", .list (n.invalids.filter accept))] :=
    FieldsRel.set .nil (by decide) (hRel.list hinvalids)
  have hstart : ∀ chosen : Bool, FieldsRel Key Rel
      (if chosen then Fields.set [] "enum" (.list (n.valids.filter accept)) else [])
      (if chosen then Fields.set [] "enum" (.list (n.valids.filter accept)) else []) := by
    intro chosen
    cases chosen with
    | false => exact .nil
    | true => exact FieldsRel.set .nil (by decide) (hRel.list hvalids)
  unfold Node.valueKeywords
  dsimp only
  split
  · exact hstart _
  · exact (hstart _).set (by decide) (hRel.map henum)

omit hn in
theorem signKeyword_related {fields : Fields} (h : FieldsRel Key Rel fields fields) :
    FieldsRel Key Rel (Scalar.signKeyword n fields) (Scalar.signKeyword n fields) := by
  unfold Scalar.signKeyword
  split
  · exact h.set (by decide) (hRel.basic _ rfl)
  · exact h.set (by decide) (hRel.basic _ rfl)
  · exact h

theorem limitKeyword_related {name : String} {limit? : Option Value} {fields after : Fields}
    (hname : name ≠ "$ref") (hlimit : ∀ limit, limit? = some limit → limit ∈ n.supplied)
    (hfields : FieldsRel Key Rel fields fields)
    (h : Scalar.limitKeyword n name limit? fields = .ok after) : FieldsRel Key Rel after after := by
  cases limit? with
  | none =>
    cases h
    exact hfields
  | some limit =>
    obtain ⟨v, hv, hset⟩ := bind_eq_ok_iff.mp h
    cases hset
    exact hfields.set hname (hRel.limit hn (.inl (hlimit _ rfl)) hv)

theorem numberKeywords_related {fields : Fields} (h : Scalar.numberKeywords n = .ok fields) :
    FieldsRel Key Rel fields fields := by
  rw [Scalar.numberKeywords_eq] at h
  obtain ⟨lower, hlower, hrest⟩ := bind_eq_ok_iff.mp h
  obtain ⟨upper, hupper, hfields⟩ := bind_eq_ok_iff.mp hrest
  cases hfields
  have htype : FieldsRel Key Rel (Scalar.numberType n) (Scalar.numberType n) := by
    unfold Scalar.numberType
    split
    · exact .setText hRel .nil (by decide)
    · exact .setText hRel (.setText hRel .nil (by decide)) (by decide)
  have hmin : FieldsRel Key Rel lower lower := by
    refine limitKeyword_related hRel hn (by decide) ?_ (signKeyword_related hRel htype) hlower
    intro limit hlimit
    exact Node.argument_mem (n.minimum?_mem hlimit) (List.mem_singleton.mpr rfl)
  have hmax : FieldsRel Key Rel upper upper := by
    refine limitKeyword_related hRel hn (by decide) ?_ hmin hupper
    intro limit hlimit
    exact Node.argument_mem (n.maximum?_mem hlimit) (List.mem_singleton.mpr rfl)
  exact hmax.merge (valueKeywords_related hRel hn)

theorem patternKeyword_related {fields : Fields} (h : FieldsRel Key Rel fields fields) :
    FieldsRel Key Rel (Scalar.patternKeyword n fields) (Scalar.patternKeyword n fields) := by
  have hset : ∀ {chosen : Bool} {s : String} {fields : Fields}, FieldsRel Key Rel fields fields →
      FieldsRel Key Rel (if chosen then fields.set "pattern" (.str s) else fields)
        (if chosen then fields.set "pattern" (.str s) else fields) := by
    intro chosen s fields h
    cases chosen with
    | false => exact h
    | true => exact h.setText hRel (by decide)
  unfold Scalar.patternKeyword
  dsimp only
  split
  · rename_i regex hrule
    refine FieldsRel.set (hset (hset h)) (by decide) ?_
    have hargument : ("regex", regex) ∈ Rule.arguments (.pattern regex) := List.mem_cons_self
    have hmem : regex ∈ n.supplied := Node.argument_mem (Node.rule?_mem hrule) hargument
    unfold Node.patternSource
    split
    · exact hRel.basic _ rfl
    · exact hn _ hmem
  · exact hset (hset h)

omit hn in
theorem formatKeyword_related {fields : Fields} (h : FieldsRel Key Rel fields fields) :
    FieldsRel Key Rel (Scalar.formatKeyword n fields) (Scalar.formatKeyword n fields) := by
  have hset : ∀ {chosen : Bool} {s : String} {fields : Fields}, FieldsRel Key Rel fields fields →
      FieldsRel Key Rel (if chosen then (fields.set "format" (.str s)).remove "pattern" else fields)
        (if chosen then (fields.set "format" (.str s)).remove "pattern" else fields) := by
    intro chosen s fields h
    cases chosen with
    | false => exact h
    | true => exact (h.setText hRel (by decide)).remove
  exact hset (hset (hset h))

theorem stringKeywords_related {fields : Fields} (h : Scalar.stringKeywords n = .ok fields) :
    FieldsRel Key Rel fields fields := by
  obtain ⟨sizes, hsizes, hfields⟩ := bind_eq_ok_iff.mp h
  cases hfields
  have hsize := sizeKeywords_related hRel hn (by decide) (by decide) hsizes
  refine (FieldsRel.merge ?_ hsize).merge (valueKeywords_related hRel hn)
  refine formatKeyword_related hRel (patternKeyword_related hRel hn ?_)
  exact .setText hRel .nil (by decide)

theorem keywords_related {kind : Scalar} {fields : Fields} (h : kind.keywords n = .ok fields) :
    FieldsRel Key Rel fields fields := by
  cases kind with
  | number => exact numberKeywords_related hRel hn h
  | string => exact stringKeywords_related hRel hn h
  | binary =>
    obtain ⟨sizes, hsizes, hfields⟩ := bind_eq_ok_iff.mp h
    cases hfields
    refine FieldsRel.merge ?_ (sizeKeywords_related hRel hn (by decide) (by decide) hsizes)
    exact .setText hRel (.setText hRel .nil (by decide)) (by decide)
  | date =>
    cases h
    exact .setText hRel (.setText hRel .nil (by decide)) (by decide)
  | boolean =>
    cases h
    exact FieldsRel.merge (.setText hRel .nil (by decide)) (valueKeywords_related hRel hn)
  | any =>
    cases h
    refine FieldsRel.merge ?_ (valueKeywords_related hRel hn)
    split
    · exact .setText hRel (.setText hRel .nil (by decide)) (by decide)
    · exact .nil

theorem annotate_related {fs gs : Fields} (h : FieldsRel Key Rel fs gs) :
    FieldsRel Key Rel (annotate n fs) (annotate n gs) := by
  have hset : ∀ {chosen : Bool} {name : String} {v : Value} {fs gs : Fields}, name ≠ "$ref" →
      Rel v v → FieldsRel Key Rel fs gs → FieldsRel Key Rel (if chosen then fs.set name v else fs)
        (if chosen then gs.set name v else gs) := by
    intro chosen name v fs gs hname hv h
    cases chosen with
    | false => exact h
    | true => exact h.set hname hv
  have hexamples : ∀ {fs gs : Fields}, FieldsRel Key Rel fs gs → FieldsRel Key Rel
      (exampleFields n.examples fs) (exampleFields n.examples gs) := by
    intro fs gs h
    have hall : List.Forall₂ Rel n.examples n.examples :=
      Node.values_related hn fun v hv => Node.example_mem hv
    revert hall
    rcases n.examples with _ | ⟨v, _ | ⟨w, rest⟩⟩ <;> intro hall
    · exact h
    · exact h.set (by decide) (List.forall₂_cons.mp hall).1
    · exact h.set (by decide) (hRel.list hall)
  have hdefault : ∀ {kept : Bool} {fs gs : Fields}, FieldsRel Key Rel fs gs →
      FieldsRel Key Rel (if kept then fs else fs.set "default" (n.flag "default"))
        (if kept then gs else gs.set "default" (n.flag "default")) := by
    intro kept fs gs h
    cases kept with
    | true => exact h
    | false => exact h.set (by decide) (hRel.flag hn)
  exact hdefault (hset (by decide) (hRel.flag hn) (hexamples (hset (by decide) (hRel.flag hn)
    (hset (by decide) (hRel.basic _ rfl) h))))

end Supplied

/-! ## Fields from outcomes -/

section Outcomes

variable {Key : Atom → Prop} {Rel : Value → Value → Prop} (hRel : Congruence Key Rel) {h : Heap} {n : Node}

/-- Schemas that are related mappings. -/
abbrev SchemaRel (Rel : Value → Value → Prop) (v w : Value) : Prop := Rel v w ∧ v.isMap = true

/-- Outcomes of the same positions, one by one forbidden or related. -/
abbrev OutcomesRel (Rel : Value → Value → Prop) : List Compiled → List Compiled → Prop :=
  List.Forall₂ (Option.Rel (SchemaRel Rel))

/-- The lists of schemas in which equal ones are kept once. -/
def Kind.listed (h : Heap) : Kind → Node → List Compiled → Except Fault (List Value)
  | .array, _, outcomes => .ok (outcomes.filterMap id)
  | .alternatives, n, outcomes => branchValues h (n.choices.flatMap Choice.branches) outcomes
  | _, _, _ => .ok []

theorem filterMap_related {outcomes outcomes' : List Compiled} (ho : OutcomesRel Rel outcomes outcomes') :
    List.Forall₂ Rel (outcomes.filterMap id) (outcomes'.filterMap id) := by
  induction ho with
  | nil => exact .nil
  | cons head _ ih =>
    cases head with
    | none => exact ih
    | some hv => exact .cons hv.1 ih

theorem branchValues_cons {s : Schema} {branches : List Schema} {outcome : Compiled}
    {outcomes : List Compiled} {ys : List Value} :
    branchValues h (s :: branches) (outcome :: outcomes) = .ok ys ↔ ∃ marked rest,
      markBranch h s outcome = .ok marked ∧ branchValues h branches outcomes = .ok rest ∧
        ys = marked.toList ++ rest := by
  unfold branchValues
  rw [List.zip_cons_cons, List.mapM_cons]
  simp only [bind_eq_ok_iff]
  constructor
  · rintro ⟨_, ⟨marked, hmarked, rest, hrest, hall⟩, hys⟩
    cases hall
    cases hys
    refine ⟨marked, _, hmarked, ⟨rest, hrest, rfl⟩, ?_⟩
    cases marked <;> rfl
  · rintro ⟨marked, _, hmarked, ⟨rest, hrest, hys⟩, rfl⟩
    cases hys
    refine ⟨_, ⟨marked, hmarked, rest, hrest, rfl⟩, ?_⟩
    cases marked <;> rfl

include hRel

theorem branchValues_related {branches : List Schema} {outcomes outcomes' : List Compiled}
    {ys : List Value} (ho : OutcomesRel Rel outcomes outcomes')
    (hys : branchValues h branches outcomes' = .ok ys) :
    ∃ xs, branchValues h branches outcomes = .ok xs ∧ List.Forall₂ Rel xs ys := by
  induction ho generalizing branches ys with
  | nil =>
    refine ⟨[], ?_, ?_⟩
    · unfold branchValues
      rw [List.zip_nil_right]
      rfl
    · unfold branchValues at hys
      rw [List.zip_nil_right] at hys
      cases hys
      exact .nil
  | @cons outcome outcome' outcomes outcomes' head _ ih =>
    cases branches with
    | nil =>
      cases hys
      exact ⟨[], rfl, .nil⟩
    | cons s branches =>
      obtain ⟨marked', rest', hmarked', hrest', rfl⟩ := branchValues_cons.mp hys
      obtain ⟨rest, hrest, hrel⟩ := ih hrest'
      cases head with
      | none =>
        cases hmarked'
        exact ⟨rest, branchValues_cons.mpr ⟨none, rest, rfl, hrest, rfl⟩, hrel⟩
      | @some v w hvw =>
        dsimp only [markBranch] at hmarked'
        split at hmarked'
        · rename_i hrequired
          obtain ⟨m', hm', hpure⟩ := bind_eq_ok_iff.mp hmarked'
          cases hpure
          obtain ⟨m, hm, hmm⟩ := hRel.mark hvw.1 hm'
          refine ⟨m :: rest, branchValues_cons.mpr ⟨some m, rest, ?_, hrest, rfl⟩, .cons hmm hrel⟩
          dsimp only [markBranch]
          rw [if_pos hrequired, hm]
          rfl
        · rename_i hrequired
          cases hmarked'
          refine ⟨v :: rest, branchValues_cons.mpr ⟨some v, rest, ?_, hrest, rfl⟩,
            .cons hvw.1 hrel⟩
          dsimp only [markBranch]
          rw [if_neg hrequired]

theorem branchKeyword_related {keyword : String} {xs ys : List Value}
    (hdistinct : List.Forall₂ Rel (distinct xs) (distinct ys)) :
    FieldsRel Key Rel (branchKeyword keyword xs) (branchKeyword keyword ys) := by
  unfold branchKeyword
  generalize distinct xs = xs at hdistinct
  generalize distinct ys = ys at hdistinct
  cases hdistinct with
  | nil => exact .nil
  | cons head tail =>
    refine FieldsRel.insert .nil (hRel.list (.cons head tail)) ?_ (.inl ⟨keyword, rfl⟩)
    intro _ t ht
    cases ht

theorem itemsValue_related {xs ys : List Value}
    (hdistinct : List.Forall₂ Rel (distinct xs) (distinct ys)) :
    Rel (itemsValue xs) (itemsValue ys) := by
  unfold itemsValue
  generalize distinct xs = xs at hdistinct
  generalize distinct ys = ys at hdistinct
  rcases hdistinct with _ | ⟨head, _ | ⟨head', tail⟩⟩
  · exact hRel.map .nil
  · exact head
  · have hne : "oneOf" ≠ "$ref" := by decide
    exact hRel.map (FieldsRel.set .nil hne (hRel.list (.cons head (.cons head' tail))))

/-- Properties are related one by one; the required names are the same. -/
theorem addChild_related {acc acc' : Fields × List Value} {entry : Atom × Schema}
    {outcome outcome' : Compiled} (hkey : Key entry.1) (ho : Option.Rel (SchemaRel Rel) outcome outcome')
    (hacc : FieldsRel Key Rel acc.1 acc'.1 ∧ List.Forall₂ Rel acc.2 acc'.2) :
    FieldsRel Key Rel (addChild h acc entry outcome).1 (addChild h acc' entry outcome').1 ∧
      List.Forall₂ Rel (addChild h acc entry outcome).2 (addChild h acc' entry outcome').2 := by
  cases ho with
  | none => exact hacc
  | @some v w hvw =>
    refine ⟨hacc.1.insert hvw.1 ?_ (.inr hkey), ?_⟩
    · rintro _ t rfl
      cases hvw.2
    · dsimp only [addChild]
      split
      · exact List.rel_append hacc.2 (.cons (hRel.key _ hkey) .nil)
      · exact hacc.2

theorem childFields_related {outcomes outcomes' : List Compiled}
    (hkeys : ∀ e ∈ n.children, Key e.1) (ho : OutcomesRel Rel outcomes outcomes') :
    FieldsRel Key Rel (childFields h n outcomes).1 (childFields h n outcomes').1 ∧
      List.Forall₂ Rel (childFields h n outcomes).2 (childFields h n outcomes').2 := by
  have hfold : ∀ (children : List (Atom × Schema)) (acc acc' : Fields × List Value),
      (∀ e ∈ children, Key e.1) → FieldsRel Key Rel acc.1 acc'.1 ∧ List.Forall₂ Rel acc.2 acc'.2 →
      let found := (children.zip outcomes).foldl (fun acc p => addChild h acc p.1 p.2) acc
      let found' := (children.zip outcomes').foldl (fun acc p => addChild h acc p.1 p.2) acc'
      FieldsRel Key Rel found.1 found'.1 ∧ List.Forall₂ Rel found.2 found'.2 := by
    induction ho with
    | nil =>
      intro children acc acc' _ hacc
      rw [List.zip_nil_right]
      exact hacc
    | @cons outcome outcome' outcomes outcomes' head _ ih =>
      intro children acc acc' hall hacc
      cases children with
      | nil => exact hacc
      | cons entry children =>
        rw [List.zip_cons_cons, List.zip_cons_cons, List.foldl_cons, List.foldl_cons]
        obtain ⟨hkey, hrest⟩ := List.forall_mem_cons.mp hall
        exact ih children _ _ hrest (addChild_related hRel hkey head hacc)
  exact hfold n.children ([], []) ([], []) hkeys ⟨.nil, .nil⟩

theorem closeObject_related {properties properties' : Fields} {required required' : List Value}
    {additional additional' : Compiled} (hproperties : FieldsRel Key Rel properties properties')
    (hrequired : List.Forall₂ Rel required required')
    (hadditional : Option.Rel (SchemaRel Rel) additional additional')
    (htruthy : ∀ v w, additional = some v → additional' = some w → v.truthy = w.truthy) :
    FieldsRel Key Rel (closeObject n properties required additional)
      (closeObject n properties' required' additional') := by
  have hstart : FieldsRel Key Rel
      ((Fields.set [] "type" (.str "object")).set "properties" (.ofEntries properties))
      ((Fields.set [] "type" (.str "object")).set "properties" (.ofEntries properties')) :=
    .set (.setText hRel .nil (by decide)) (by decide) (hRel.map hproperties)
  have hreq : ∀ {fs gs : Fields}, FieldsRel Key Rel fs gs → FieldsRel Key Rel
      (if required.isEmpty then fs else fs.set "required" (.list required))
      (if required'.isEmpty then gs else gs.set "required" (.list required')) := by
    intro fs gs hfg
    cases hrequired with
    | nil => exact hfg
    | cons head tail => exact hfg.set (by decide) (hRel.list (.cons head tail))
  have hclosed : ∀ {fs gs : Fields}, FieldsRel Key Rel fs gs → FieldsRel Key Rel
      (if n.isClosed then fs.set "additionalProperties" (.bool false) else fs)
      (if n.isClosed then gs.set "additionalProperties" (.bool false) else gs) := by
    intro fs gs hfg
    split
    · exact hfg.set (by decide) (hRel.basic _ rfl)
    · exact hfg
  cases hadditional with
  | none => exact hclosed (hreq hstart)
  | @some v w hvw =>
    unfold closeObject
    dsimp only
    rw [htruthy v w rfl rfl]
    split
    · exact (hclosed (hreq hstart)).set (by decide) hvw.1
    · exact hclosed (hreq hstart)

theorem objectFields_related {outcomes outcomes' : List Compiled}
    (hkeys : ∀ e ∈ n.children, Key e.1) (ho : OutcomesRel Rel outcomes outcomes')
    (htruthy : n.children.isEmpty = true → ∀ v w, outcomes.head?.join = some v →
      outcomes'.head?.join = some w → v.truthy = w.truthy) :
    FieldsRel Key Rel (objectFields h n outcomes) (objectFields h n outcomes') := by
  obtain ⟨hproperties, hrequired⟩ := childFields_related (h := h) (n := n) hRel hkeys ho
  have hhead : Option.Rel (SchemaRel Rel) outcomes.head?.join outcomes'.head?.join := by
    cases ho with
    | nil => exact .none
    | cons head _ => exact head
  refine closeObject_related hRel hproperties hrequired ?_ ?_
  · split
    · exact hhead
    · exact .none
  · split
    · rename_i hempty
      exact htruthy hempty
    · exact fun _ _ hv => by cases hv

/-- Whether two lists of related schemas keep related ones when equal ones are kept once. -/
def KeepsApart (Rel : Value → Value → Prop) (ys : List Value) : Prop :=
  ∀ xs, List.Forall₂ Rel xs ys → List.Forall₂ Rel (distinct xs) (distinct ys)

variable (hn : ∀ v ∈ n.supplied, Rel v v)
include hn

theorem arrayFields_related {outcomes outcomes' : List Compiled} {fields' : Fields}
    (ho : OutcomesRel Rel outcomes outcomes') (hlisted : KeepsApart Rel (outcomes'.filterMap id))
    (h' : arrayFields n outcomes' = .ok fields') :
    ∃ fields, arrayFields n outcomes = .ok fields ∧ FieldsRel Key Rel fields fields' := by
  obtain ⟨sizes, hsizes, hfields⟩ := bind_eq_ok_iff.mp h'
  have hitems := itemsValue_related hRel (hlisted _ (filterMap_related ho))
  have hsize := sizeKeywords_related hRel hn (by decide) (by decide) hsizes
  have hstart : FieldsRel Key Rel
      (((Fields.set [] "type" (.str "array")).set "items"
        (itemsValue (outcomes.filterMap id))).merge sizes)
      (((Fields.set [] "type" (.str "array")).set "items"
        (itemsValue (outcomes'.filterMap id))).merge sizes) :=
    .merge (.set (.setText hRel .nil (by decide)) (by decide) hitems) hsize
  cases hfields
  refine ⟨_, bind_eq_ok_iff.mpr ⟨sizes, hsizes, rfl⟩, ?_⟩
  split
  · exact hstart.set (by decide) (hRel.basic _ rfl)
  · exact hstart

theorem kindFields_related {kind : Kind} {outcomes outcomes' : List Compiled} {fields' : Fields}
    (hkeys : ∀ e ∈ n.children, Key e.1) (ho : OutcomesRel Rel outcomes outcomes')
    (hlisted : ∀ ys, kind.listed h n outcomes' = .ok ys → KeepsApart Rel ys)
    (htruthy : kind = .object → n.children.isEmpty = true → ∀ v w, outcomes.head?.join = some v →
      outcomes'.head?.join = some w → v.truthy = w.truthy)
    (h' : kind.fields h n outcomes' = .ok fields') :
    ∃ fields, kind.fields h n outcomes = .ok fields ∧ FieldsRel Key Rel fields fields' := by
  cases kind with
  | scalar kind => exact ⟨fields', h', keywords_related hRel hn h'⟩
  | object =>
    cases h'
    exact ⟨_, rfl, objectFields_related hRel hkeys ho (htruthy rfl)⟩
  | array => exact arrayFields_related hRel hn ho (hlisted _ rfl) h'
  | alternatives =>
    obtain ⟨mode, hmode, hrest⟩ := bind_eq_ok_iff.mp h'
    obtain ⟨ys, hys, hfields⟩ := bind_eq_ok_iff.mp hrest
    obtain ⟨xs, hxs, hrel⟩ := branchValues_related hRel ho hys
    cases hfields
    refine ⟨_, bind_eq_ok_iff.mpr ⟨mode, hmode, bind_eq_ok_iff.mpr ⟨xs, hxs, rfl⟩⟩, ?_⟩
    exact branchKeyword_related hRel (hlisted ys hys xs hrel)

/-- The fields of a node from related outcomes are related. -/
theorem Node.assemble_related {kind : Kind} {outcomes outcomes' whenOutcomes whenOutcomes' :
    List Compiled} {fields' : Fields} (hliteral : n.literal.truthy = false)
    (hkeys : ∀ e ∈ n.children, Key e.1) (ho : OutcomesRel Rel outcomes outcomes')
    (hw : OutcomesRel Rel whenOutcomes whenOutcomes')
    (hlisted : ∀ ys, kind.listed h n outcomes' = .ok ys → KeepsApart Rel ys)
    (hwhens : ∀ ys, branchValues h n.whenParts whenOutcomes' = .ok ys → KeepsApart Rel ys)
    (htruthy : kind = .object → n.children.isEmpty = true → ∀ v w, outcomes.head?.join = some v →
      outcomes'.head?.join = some w → v.truthy = w.truthy)
    (h' : n.assemble h kind outcomes' whenOutcomes' = .ok fields') :
    ∃ fields, n.assemble h kind outcomes whenOutcomes = .ok fields ∧
      FieldsRel Key Rel fields fields' := by
  obtain ⟨own', hown', hrest⟩ := bind_eq_ok_iff.mp h'
  obtain ⟨conditional', hconditional', hfields'⟩ := bind_eq_ok_iff.mp hrest
  obtain ⟨own, hown, hownRel⟩ := kindFields_related hRel hn hkeys ho hlisted htruthy hown'
  obtain ⟨ys, hys, hpure⟩ := bind_eq_ok_iff.mp hconditional'
  cases hpure
  obtain ⟨xs, hxs, hrel⟩ := branchValues_related hRel hw hys
  unfold addLiteral at hfields'
  rw [hliteral] at hfields'
  cases hfields'
  refine ⟨annotate n (own.merge (branchKeyword n.whenKeyword xs)), ?_, ?_⟩
  · have hconditional : whenFields h n whenOutcomes = .ok (branchKeyword n.whenKeyword xs) :=
      bind_eq_ok_iff.mpr ⟨xs, hxs, rfl⟩
    refine bind_eq_ok_iff.mpr ⟨own, hown, bind_eq_ok_iff.mpr ⟨_, hconditional, ?_⟩⟩
    unfold addLiteral
    rw [hliteral]
    rfl
  · exact annotate_related hRel hn
      (hownRel.merge (branchKeyword_related hRel (hwhens ys hys xs hrel)))

end Outcomes

/-! ## Properties of schemas -/

section Property

variable {P : Value → Prop} {xs ys : List Value} {outcomes : List Compiled}

/-- The relation between values with a property and themselves. -/
abbrev Having (P : Value → Prop) (v w : Value) : Prop := v = w ∧ P v

theorem forall₂_having (h : List.Forall₂ (Having P) xs ys) : xs = ys ∧ ∀ x ∈ xs, P x := by
  induction h with
  | nil => exact ⟨rfl, fun _ hx => by cases hx⟩
  | @cons x y xs ys hxy _ ih => exact ⟨by rw [hxy.1, ih.1], List.forall_mem_cons.mpr ⟨hxy.2, ih.2⟩⟩

theorem fields_having {Key : Atom → Prop} {fs gs : Fields} (h : FieldsRel Key (Having P) fs gs) :
    fs = gs ∧ ∀ e ∈ fs, P e.2 := by
  obtain ⟨hentries, -, -⟩ := h
  induction hentries with
  | nil => exact ⟨rfl, fun _ he => by cases he⟩
  | cons head _ ih =>
    obtain ⟨hkey, ⟨hvalue, hP⟩, _⟩ := head
    exact ⟨by rw [ih.1, Prod.ext hkey hvalue], List.forall_mem_cons.mpr ⟨hP, ih.2⟩⟩

theorem outcomes_having (h : ∀ r ∈ outcomes, ∀ v, r = some v → P v ∧ v.isMap = true) :
    OutcomesRel (Having P) outcomes outcomes := by
  refine List.forall₂_same.mpr fun r hr => ?_
  cases r with
  | none => exact .none
  | some v => exact .some ⟨⟨rfl, (h _ hr v rfl).1⟩, (h _ hr v rfl).2⟩

theorem mem_distinct {xs : List Value} {x : Value} (h : x ∈ distinct xs) : x ∈ xs := by
  have hfold : ∀ xs kept : List Value, x ∈ xs.foldl
      (fun kept s => if s.isIn kept then kept else kept ++ [s]) kept → x ∈ kept ∨ x ∈ xs := by
    intro xs
    induction xs with
    | nil => exact fun kept hx => .inl hx
    | cons y xs ih =>
      intro kept hx
      rw [List.foldl_cons] at hx
      rcases ih _ hx with hkept | hmem
      · split at hkept
        · exact .inl hkept
        · rcases List.mem_append.mp hkept with hold | hnew
          · exact .inl hold
          · exact .inr (List.mem_cons.mpr (.inl (List.mem_singleton.mp hnew)))
      · exact .inr (List.mem_cons_of_mem _ hmem)
  rcases hfold xs [] h with hnil | hmem
  · cases hnil
  · exact hmem

theorem keepsApart_having : KeepsApart (Having P) ys := by
  intro xs hxs
  obtain ⟨rfl, hall⟩ := forall₂_having hxs
  exact List.forall₂_same.mpr fun x hx => ⟨rfl, hall x (mem_distinct hx)⟩

/-- The fields of a node have a property that its parts and what it supplies have, if mappings and
lists keep the property. -/
theorem Node.assemble_having {Key : Atom → Prop} {h : Heap} {n : Node} {kind : Kind}
    {whenOutcomes : List Compiled} {fields : Fields} (hP : Congruence Key (Having P))
    (hn : ∀ v ∈ n.supplied, P v) (hliteral : n.literal.truthy = false)
    (hkeys : ∀ e ∈ n.children, Key e.1)
    (ho : ∀ r ∈ outcomes, ∀ v, r = some v → P v ∧ v.isMap = true)
    (hw : ∀ r ∈ whenOutcomes, ∀ v, r = some v → P v ∧ v.isMap = true)
    (hfields : n.assemble h kind outcomes whenOutcomes = .ok fields) :
    FieldsRel Key (Having P) fields fields := by
  obtain ⟨fields', hfields', hrel⟩ := Node.assemble_related hP (fun v hv => ⟨rfl, hn v hv⟩) hliteral
    hkeys (outcomes_having ho) (outcomes_having hw) (fun _ _ => keepsApart_having)
    (fun _ _ => keepsApart_having) (fun _ _ v w hv hw => by rw [Option.some.inj (hv.symm.trans hw)])
    hfields
  cases hfields.symm.trans hfields'
  exact hrel

end Property

end WireShape
