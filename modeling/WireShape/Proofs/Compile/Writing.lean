import WireShape.Proofs.Compile.Related
import WireShape.Proofs.NullTypes
import WireShape.Validation.Assertion

/-!
# What a node writes by itself

The fields of a node are written one after the other, and each of them comes from one place: from a
rule, from the values or flags of the node, or from the schemas of its parts. `Node.Writes` lists these
places. So a property of what nodes are compiled to need only be shown for each of them, whatever the
order in which they are written and whatever is written over.

* `Node.Writes`: what a node may write under a name.
* `Node.assemble_writes`: what is put together is made of such entries and of the literal schema.
-/

namespace WireShape

open Value (Fields)
open NullTypes (Each)

/-! ## Entries -/

/-- The names under which a limit stands. -/
def limitNames : List String :=
  ["minimum", "maximum", "minLength", "maxLength", "minItems", "maxItems"]

/-- The values that are listed as choices: text, numbers and booleans. -/
def Value.isChoice (v : Value) : Bool := v.isText || v.isNumber || v.isBool

/-- What a node may write under a name. The parameters are what is known of the keys of its children,
of the schemas of its parts and of those of its branches. -/
inductive Node.Writes (n : Node) (Key : Atom → Prop) (Part Branch : Value → Prop) :
    String → Value → Prop
  | type {t : String} {test : Value → Bool} (htest : Assertion.typeTest? t = some test) :
      Writes n Key Part Branch "type" (.str t)
  | format (s : String) : Writes n Key Part Branch "format" (.str s)
  | positive : Writes n Key Part Branch "minimum" (.int 1)
  | negative : Writes n Key Part Branch "maximum" (.int (-1))
  | limit {name : String} {limit v : Value} (hname : name ∈ limitNames)
      (hlimit : n.HasLimit limit) (hv : n.limitValue limit = .ok v) : Writes n Key Part Branch name v
  | letters (suffix : String) : Writes n Key Part Branch "pattern" (.str (alphanumPattern suffix))
  | token : Writes n Key Part Branch "pattern" (.str tokenPattern)
  | pattern {regex : Value} (hrule : .pattern regex ∈ n.rules) :
      Writes n Key Part Branch "pattern" (Node.patternSource regex)
  | place : Writes n Key Part Branch "in" (.str "formData")
  | choices {xs : List Value} (hxs : ∀ x ∈ xs, x ∈ n.valids ∧ x.isChoice = true) :
      Writes n Key Part Branch "enum" (.list xs)
  | denied {xs : List Value} (hxs : ∀ x ∈ xs, x ∈ n.invalids ∧ x.isChoice = true) :
      Writes n Key Part Branch "not" (.ofFields [("enum", .list xs)])
  | properties {es : Fields} (hseparate : OrderedMap.Separate es)
      (hes : ∀ e ∈ es, Key e.1 ∧ Part e.2) :
      Writes n Key Part Branch "properties" (.ofEntries es)
  | required {keys : List Atom} (hkeys : ∀ k ∈ keys, Key k) :
      Writes n Key Part Branch "required" (.list (keys.map .atom))
  | closed : Writes n Key Part Branch "additionalProperties" (.bool false)
  | additional {v : Value} (hv : Part v) : Writes n Key Part Branch "additionalProperties" v
  | items {xs : List Value} (hxs : ∀ x ∈ xs, Part x) :
      Writes n Key Part Branch "items" (itemsValue xs)
  | unique : Writes n Key Part Branch "uniqueItems" (.bool true)
  | branches {mode : String} {xs : List Value} (hne : xs ≠ []) (hxs : ∀ x ∈ xs, Branch x) :
      Writes n Key Part Branch (mode ++ "Of") (.list xs)
  | mark : Writes n Key Part Branch "nullable" (.bool true)
  | description : Writes n Key Part Branch "description" (n.flag "description")
  | title : Writes n Key Part Branch "title" (n.flag "label")
  | default (hmade : isGenerated (n.flag "default") = false) :
      Writes n Key Part Branch "default" (n.flag "default")
  | sample {v : Value} (hv : v ∈ n.examples) : Writes n Key Part Branch "example" v
  | samples : Writes n Key Part Branch "examples" (.list n.examples)

/-! ## Scalars -/

section Scalars

variable {n : Node} {Key : Atom → Prop} {Part Branch : Value → Prop} {fields after : Fields}

theorem sizeKeywords_writes {suffix : String} (hmin : "min" ++ suffix ∈ limitNames)
    (hmax : "max" ++ suffix ∈ limitNames) (h : n.sizeKeywords suffix = .ok fields) :
    Each (n.Writes Key Part Branch) fields := by
  refine Node.sizeKeywords_keeps (fun name hname limit v fields hlimit hv hfields => ?_) .nil h
  have hnames : ∀ name ∈ ["min" ++ suffix, "max" ++ suffix], name ∈ limitNames :=
    List.forall_mem_cons.mpr ⟨hmin, List.forall_mem_singleton.mpr hmax⟩
  exact hfields.set (.limit (hnames name hname) hlimit hv)

theorem valueKeywords_writes {accept : Value → Bool}
    (haccept : ∀ v, accept v = true → v.isChoice = true) :
    Each (n.Writes Key Part Branch) (n.valueKeywords accept) := by
  have hchosen : ∀ {vs : List Value}, ∀ v ∈ vs.filter accept, v ∈ vs ∧ v.isChoice = true :=
    fun v hv => (List.mem_filter.mp hv).imp_right (haccept v)
  have hstart : Each (n.Writes Key Part Branch)
      (if (n.flag "only").truthy && !(n.valids.filter accept).isEmpty then
        Fields.set [] "enum" (.list (n.valids.filter accept)) else []) :=
    .ite (.set .nil (.choices hchosen)) .nil
  exact .ite hstart (hstart.set (.denied hchosen))

theorem limitKeyword_writes {name : String} {limit? : Option Value} (hname : name ∈ limitNames)
    (hlimit : ∀ limit, limit? = some limit → .min limit ∈ n.rules ∨ .max limit ∈ n.rules)
    (hfields : Each (n.Writes Key Part Branch) fields)
    (h : Scalar.limitKeyword n name limit? fields = .ok after) :
    Each (n.Writes Key Part Branch) after := by
  cases limit? with
  | none =>
    cases h
    exact hfields
  | some limit =>
    obtain ⟨v, hv, hset⟩ := bind_eq_ok_iff.mp h
    cases hset
    exact hfields.set (.limit hname ((hlimit limit rfl).imp_right .inl) hv)

theorem numberKeywords_writes (h : Scalar.numberKeywords n = .ok fields) :
    Each (n.Writes Key Part Branch) fields := by
  rw [Scalar.numberKeywords_eq] at h
  obtain ⟨lower, hlower, hrest⟩ := bind_eq_ok_iff.mp h
  obtain ⟨upper, hupper, hfields⟩ := bind_eq_ok_iff.mp hrest
  cases hfields
  have htype : Each (n.Writes Key Part Branch) (Scalar.numberType n) :=
    .ite (.set .nil (.type rfl)) (.set (.set .nil (.type rfl)) (.format _))
  have hsign : Each (n.Writes Key Part Branch) (Scalar.signKeyword n (Scalar.numberType n)) := by
    unfold Scalar.signKeyword
    split
    · exact htype.set .positive
    · exact htype.set .negative
    · exact htype
  have hleast := limitKeyword_writes (by decide)
    (fun limit hlimit => .inl (n.minimum?_mem hlimit)) hsign hlower
  have hmost := limitKeyword_writes (by decide)
    (fun limit hlimit => .inr (n.maximum?_mem hlimit)) hleast hupper
  exact hmost.merge (valueKeywords_writes fun v hv => by
    rw [Value.isChoice, hv, Bool.or_true, Bool.true_or])

theorem patternKeyword_writes (hfields : Each (n.Writes Key Part Branch) fields) :
    Each (n.Writes Key Part Branch) (Scalar.patternKeyword n fields) := by
  have htext : ∀ {chosen : Bool} {s : String} {fields : Fields},
      n.Writes Key Part Branch "pattern" (.str s) → Each (n.Writes Key Part Branch) fields →
        Each (n.Writes Key Part Branch) (if chosen then fields.set "pattern" (.str s) else fields) :=
    fun hs h => .ite (h.set hs) h
  unfold Scalar.patternKeyword
  dsimp only
  split
  · rename_i regex hrule
    exact (htext .token (htext (.letters _) hfields)).set (.pattern (Node.rule?_mem hrule))
  · exact htext .token (htext (.letters _) hfields)

theorem formatKeyword_writes (hfields : Each (n.Writes Key Part Branch) fields) :
    Each (n.Writes Key Part Branch) (Scalar.formatKeyword n fields) := by
  have hformat : ∀ {chosen : Bool} {s : String} {fields : Fields},
      Each (n.Writes Key Part Branch) fields → Each (n.Writes Key Part Branch)
        (if chosen then (fields.set "format" (.str s)).remove "pattern" else fields) :=
    fun h => .ite (h.set (.format _)).remove h
  exact hformat (hformat (hformat hfields))

/-- The keywords of a scalar. -/
theorem keywords_writes {kind : Scalar} (h : kind.keywords n = .ok fields) :
    Each (n.Writes Key Part Branch) fields := by
  have hlengths : ∀ sizes, n.sizeKeywords "Length" = .ok sizes →
      Each (n.Writes Key Part Branch) sizes := fun _ => sizeKeywords_writes (by decide) (by decide)
  have htyped : ∀ {t test}, Assertion.typeTest? t = some test →
      Each (n.Writes Key Part Branch) (Fields.set [] "type" (.str t)) :=
    fun htest => .set .nil (.type htest)
  cases kind with
  | number => exact numberKeywords_writes h
  | string =>
    obtain ⟨sizes, hsizes, hfields⟩ := bind_eq_ok_iff.mp h
    cases hfields
    have hpattern := patternKeyword_writes (htyped (t := "string") rfl)
    refine ((formatKeyword_writes hpattern).merge (hlengths sizes hsizes)).merge
      (valueKeywords_writes fun v hv => ?_)
    rw [Value.isChoice, hv, Bool.true_or, Bool.true_or]
  | binary =>
    obtain ⟨sizes, hsizes, hfields⟩ := bind_eq_ok_iff.mp h
    cases hfields
    exact ((htyped rfl).set (.format _)).merge (hlengths sizes hsizes)
  | date =>
    cases h
    exact (htyped rfl).set (.format _)
  | boolean =>
    cases h
    refine (htyped rfl).merge (valueKeywords_writes fun v hv => ?_)
    rw [Value.isChoice, hv, Bool.or_true]
  | any =>
    cases h
    refine Each.merge (.ite ((htyped rfl).set .place) .nil) (valueKeywords_writes fun v hv => ?_)
    rw [Value.isChoice, hv, Bool.true_or]

end Scalars

/-! ## Nodes with parts -/

section Parts

variable {n : Node} {Key : Atom → Prop} {Part Branch P : Value → Prop} {h : Heap} {fields : Fields}
  {outcomes whenOutcomes : List Compiled} {xs : List Value}

/-- The schemas of branches, marked or not, have the property of the outcomes, if marks keep it. -/
theorem branchValues_forall (hmarks : ∀ {v w : Value}, P v → markRequired v = .ok w → P w)
    {branches : List Schema} (ho : ∀ v, some v ∈ outcomes → P v)
    (hxs : branchValues h branches outcomes = .ok xs) : ∀ x ∈ xs, P x := by
  induction branches generalizing outcomes xs with
  | nil =>
    cases hxs
    exact nofun
  | cons s branches ih =>
    cases outcomes with
    | nil =>
      cases hxs
      exact nofun
    | cons outcome outcomes =>
      obtain ⟨marked, rest, hmarked, hrest, rfl⟩ := branchValues_cons.mp hxs
      have hall := ih (fun v hv => ho v (List.mem_cons_of_mem _ hv)) hrest
      intro x hx
      rcases List.mem_append.mp hx with hfirst | hlater
      · obtain rfl := Option.mem_toList.mp hfirst
        cases outcome with
        | none => cases hmarked
        | some v =>
          have hv : P v := ho v List.mem_cons_self
          unfold markBranch at hmarked
          dsimp only at hmarked
          split at hmarked
          · obtain ⟨w, hw, hpure⟩ := bind_eq_ok_iff.mp hmarked
            cases hpure
            exact hmarks hv hw
          · cases hmarked
            exact hv
      · exact hall x hlater

theorem branchKeyword_writes {mode : String} (hxs : ∀ x ∈ xs, Branch x) :
    Each (n.Writes Key Part Branch) (branchKeyword (mode ++ "Of") xs) := by
  unfold branchKeyword
  split
  · exact .nil
  · rename_i hne
    exact Each.set .nil (.branches hne fun x hx => hxs x (mem_distinct hx))

/-- The fields of conditions: branches under one keyword. -/
theorem whenFields_writes
    (hbranches : ∀ xs, branchValues h n.whenParts whenOutcomes = .ok xs → ∀ x ∈ xs, Branch x)
    (hfields : whenFields h n whenOutcomes = .ok fields) :
    Each (n.Writes Key Part Branch) fields := by
  obtain ⟨xs, hxs, hpure⟩ := bind_eq_ok_iff.mp hfields
  cases hpure
  unfold Node.whenKeyword
  split
  · exact @branchKeyword_writes _ _ _ _ xs "any" (hbranches xs hxs)
  · exact @branchKeyword_writes _ _ _ _ xs "one" (hbranches xs hxs)

/-- Properties have different keys, which are those of children, and the schemas of outcomes; required
names are such keys. -/
theorem childFields_forall (hkeys : ∀ e ∈ n.children, Key e.1)
    (ho : ∀ v, some v ∈ outcomes → P v) : OrderedMap.Separate (childFields h n outcomes).1 ∧
      (∀ p ∈ (childFields h n outcomes).1, Key p.1 ∧ P p.2) ∧
        ∃ keys : List Atom, (childFields h n outcomes).2 = keys.map .atom ∧ ∀ k ∈ keys, Key k := by
  unfold childFields
  refine List.foldlRecOn (motive := fun acc : Fields × List Value => OrderedMap.Separate acc.1 ∧
    (∀ p ∈ acc.1, Key p.1 ∧ P p.2) ∧ ∃ keys : List Atom, acc.2 = keys.map .atom ∧ ∀ k ∈ keys, Key k)
    _ _ ⟨.nil, fun _ hp => absurd hp List.not_mem_nil, [], rfl, nofun⟩ ?_
  rintro ⟨properties, required⟩ ⟨hseparate, hproperties, keys, rfl, hrequired⟩ ⟨e, r⟩ hp
  have hkey : Key e.1 := hkeys e (List.of_mem_zip hp).1
  cases r with
  | none => exact ⟨hseparate, hproperties, keys, rfl, hrequired⟩
  | some v =>
    refine ⟨hseparate.insert, fun p hp' => ?_, ?_⟩
    · rcases OrderedMap.mem_insert hp' with hold | ⟨hvalue, hname⟩
      · exact hproperties p hold
      · rw [hvalue]
        refine ⟨?_, ho v (List.of_mem_zip hp).2⟩
        rcases hname with hname | ⟨⟨b, hb⟩, _⟩
        · rw [hname]
          exact hkey
        · exact (hproperties _ hb).1
    · dsimp only [addChild]
      split
      · refine ⟨keys ++ [e.1], by rw [List.map_append]; rfl, fun k hk => ?_⟩
        rcases List.mem_append.mp hk with hk | hk
        · exact hrequired k hk
        · rw [List.mem_singleton.mp hk]
          exact hkey
      · exact ⟨keys, rfl, hrequired⟩

theorem objectFields_writes (hkeys : ∀ e ∈ n.children, Key e.1)
    (ho : ∀ v, some v ∈ outcomes → Part v) :
    Each (n.Writes Key Part Branch) (objectFields h n outcomes) := by
  obtain ⟨hseparate, hproperties, keys, hrequired, hnames⟩ :=
    @childFields_forall n Key Part h outcomes hkeys ho
  have hdescribed : Each (n.Writes Key Part Branch) ((Fields.set [] "type" (.str "object")).set
      "properties" (.ofEntries (childFields h n outcomes).1)) :=
    .set (.set .nil (.type rfl)) (.properties hseparate hproperties)
  have hlisted : Each (n.Writes Key Part Branch) (if (childFields h n outcomes).2.isEmpty then
      (Fields.set [] "type" (.str "object")).set "properties"
        (.ofEntries (childFields h n outcomes).1)
      else ((Fields.set [] "type" (.str "object")).set "properties"
        (.ofEntries (childFields h n outcomes).1)).set "required"
          (.list (childFields h n outcomes).2)) := by
    refine .ite hdescribed (hdescribed.set ?_)
    rw [hrequired]
    exact .required hnames
  have hclosed := @Each.ite _ _ _ (n.isClosed = true) _ (hlisted.set .closed) hlisted
  unfold objectFields closeObject
  dsimp only
  split
  · rename_i schema hschema
    have houtcome : some schema ∈ outcomes := by
      split at hschema
      · exact List.mem_of_head? (Option.join_eq_some_iff.mp hschema)
      · cases hschema
    exact .ite (hclosed.set (.additional (ho schema houtcome))) hclosed
  · exact hclosed

/-- What the schemas of items have, what is said about items has: it is the empty schema, one of them,
or a choice between the distinct ones. -/
theorem itemsValue_forall (hxs : ∀ x ∈ xs, P x) (hnil : P (.ofEntries []))
    (hchoice : distinct xs ≠ [] → (∀ x ∈ distinct xs, P x) →
      P (.ofFields [("oneOf", .list (distinct xs))])) : P (itemsValue xs) := by
  have hdistinct : ∀ x ∈ distinct xs, P x := fun x hx => hxs x (mem_distinct hx)
  unfold itemsValue
  split
  · exact hnil
  · rename_i x heq
    exact hdistinct x (by rw [heq]; exact List.mem_singleton_self x)
  · rename_i hne _
    exact hchoice hne hdistinct

theorem arrayFields_writes (ho : ∀ v, some v ∈ outcomes → Part v)
    (hfields : arrayFields n outcomes = .ok fields) : Each (n.Writes Key Part Branch) fields := by
  obtain ⟨sizes, hsizes, hpure⟩ := bind_eq_ok_iff.mp hfields
  cases hpure
  have hparts : ∀ x ∈ outcomes.filterMap id, Part x := by
    intro x hx
    obtain ⟨r, hr, rfl⟩ := List.mem_filterMap.mp hx
    exact ho x hr
  have hstart : Each (n.Writes Key Part Branch) ((Fields.set [] "type" (.str "array")).set "items"
      (itemsValue (outcomes.filterMap id))) := .set (.set .nil (.type rfl)) (.items hparts)
  have hsized := hstart.merge (sizeKeywords_writes (by decide) (by decide) hsizes)
  exact .ite (hsized.set .unique) hsized

/-- What a kind says. -/
theorem Kind.fields_writes {kind : Kind} (hkeys : ∀ e ∈ n.children, Key e.1)
    (ho : ∀ v, some v ∈ outcomes → Part v)
    (hbranches : kind = .alternatives → ∀ xs,
      branchValues h (n.choices.flatMap Choice.branches) outcomes = .ok xs → ∀ x ∈ xs, Branch x)
    (hfields : kind.fields h n outcomes = .ok fields) : Each (n.Writes Key Part Branch) fields := by
  cases kind with
  | scalar => exact keywords_writes hfields
  | object =>
    cases hfields
    exact objectFields_writes hkeys ho
  | array => exact arrayFields_writes ho hfields
  | alternatives =>
    obtain ⟨mode, _, hrest⟩ := bind_eq_ok_iff.mp hfields
    obtain ⟨xs, hxs, hpure⟩ := bind_eq_ok_iff.mp hrest
    cases hpure
    exact branchKeyword_writes (hbranches rfl xs hxs)

theorem annotate_writes (hfields : Each (n.Writes Key Part Branch) fields) :
    Each (n.Writes Key Part Branch) (annotate n fields) := by
  have hset : ∀ {chosen : Bool} {name : String} {v : Value} {fields : Fields},
      Each (n.Writes Key Part Branch) fields → n.Writes Key Part Branch name v →
        Each (n.Writes Key Part Branch) (if chosen then fields.set name v else fields) :=
    fun hfields hv => .ite (hfields.set hv) hfields
  have hexample : ∀ {fields : Fields}, Each (n.Writes Key Part Branch) fields →
      Each (n.Writes Key Part Branch) (exampleFields n.examples fields) := by
    intro fields hfields
    unfold exampleFields
    split
    · exact hfields
    · rename_i v heq
      refine hfields.set (.sample ?_)
      rw [heq]
      exact List.mem_singleton_self v
    · exact hfields.set .samples
  have hmarked := @hset (Value.null.isIn n.valids) _ _ _ hfields .mark
  have hdescribed := @hset (n.flag "description").truthy _ _ _ hmarked .description
  have hlabelled := @hset (n.flag "label").truthy _ _ _ (hexample hdescribed) .title
  change Each (n.Writes Key Part Branch) (ite _ _ _)
  split
  · exact hlabelled
  · rename_i hkept
    rw [Bool.or_eq_true, not_or, Bool.not_eq_true, Bool.not_eq_true] at hkept
    exact hlabelled.set (.default hkept.2)

/-- What a node is put together to is made of what it writes and of its literal schema. -/
theorem Node.assemble_writes {kind : Kind} (hkeys : ∀ e ∈ n.children, Key e.1)
    (ho : ∀ v, some v ∈ outcomes → Part v)
    (hbranches : kind = .alternatives → ∀ xs,
      branchValues h (n.choices.flatMap Choice.branches) outcomes = .ok xs → ∀ x ∈ xs, Branch x)
    (hwhens : ∀ xs, branchValues h n.whenParts whenOutcomes = .ok xs → ∀ x ∈ xs, Branch x)
    (hfields : n.assemble h kind outcomes whenOutcomes = .ok fields) :
    ∃ written, Each (n.Writes Key Part Branch) written ∧ n.addLiteral written = .ok fields := by
  obtain ⟨own, hown, hrest⟩ := bind_eq_ok_iff.mp hfields
  obtain ⟨conditional, hconditional, hlast⟩ := bind_eq_ok_iff.mp hrest
  have hmerged := (Kind.fields_writes hkeys ho hbranches hown).merge
    (whenFields_writes hwhens hconditional)
  exact ⟨_, annotate_writes hmerged, hlast⟩

end Parts

end WireShape
