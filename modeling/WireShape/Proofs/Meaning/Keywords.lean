import WireShape.Proofs.Compile.Keywords
import WireShape.Proofs.Meaning.Basic
import WireShape.Proofs.Validation.Schemas

/-!
# What the schema of a plain node says

The schema of a plain node says for each keyword what the node says, and it can be brought into its
checked form. The parts of a node appear in it as the schemas that they compile to.

* `Heap.keyword?`: what each keyword says in the schema of a plain node.
* `NullTypes.Ready`: fields that can be brought into checked form.
* `Heap.Describes`: fields that say what the keywords of a plain node say.
* `annotate_describes`: annotations add nothing but the mark to what keywords say.
-/

namespace WireShape

open Value (Fields)
open NullTypes (Expands Tidy get?_set)

/-! ## Keywords of a node -/

namespace Node

/-- The type of the data that a node admits. -/
def dataType (n : Node) : String := if n.kind = "number" then "integer" else n.kind

/-- The keys of the children that must be there. -/
def requiredKeys (h : Heap) (n : Node) : List Atom :=
  (n.children.filter fun c => (h.view c.2).isRequired).map (·.1)

end Node

/-- What each keyword says in the schema of a plain node: the schema of its elements and the schemas
of its properties are given. -/
def Heap.keyword? (h : Heap) (n : Node) (item : Option Value) (properties : Option Fields) :
    Keyword → Option Value
  | .type => some (.str n.dataType)
  | .enum => if n.isLimited then some (.list n.named) else none
  | .not => if n.invalids.isEmpty then none else some (.ofFields [("enum", .list n.invalids)])
  | .minimum => if n.kind = "number" then n.leastNumber?.map .int else none
  | .maximum => if n.kind = "number" then n.greatestNumber?.map .int else none
  | .minLength => if n.kind = "string" then n.leastSize?.map .int else none
  | .maxLength => if n.kind = "string" then n.greatestSize?.map .int else none
  | .minItems => if n.kind = "array" then n.leastSize?.map .int else none
  | .maxItems => if n.kind = "array" then n.greatestSize?.map .int else none
  | .items => item
  | .properties => properties.map .ofEntries
  | .required =>
    if (n.requiredKeys h).isEmpty then none else some (.list ((n.requiredKeys h).map .atom))
  | .additionalProperties => if n.kind = "object" ∧ n.isClosed = true then some (.bool false) else none
  | _ => none

/-! ## Fields with a checked form -/

/-- Fields that can be brought into checked form. -/
structure NullTypes.Ready (fields : Fields) : Prop extends Tidy fields where
  expands : ∀ e ∈ fields, Expands e.2

namespace NullTypes.Ready

variable {fields later : Fields} {name : String} {v : Value}

theorem nil : Ready [] := ⟨.nil, fun _ he => by cases he⟩

theorem insert {k : Atom} (h : Ready fields) (hk : ∃ s, k = .str s) (hv : Expands v) :
    Ready (OrderedMap.insert fields k v) := by
  refine ⟨h.toTidy.insert hk, fun e he => ?_⟩
  rcases OrderedMap.mem_insert he with hold | ⟨hvalue, _⟩
  · exact h.expands e hold
  · rw [hvalue]
    exact hv

theorem set (h : Ready fields) (hv : Expands v) : Ready (fields.set name v) := h.insert ⟨name, rfl⟩ hv

theorem setAtom {a : Atom} (h : Ready fields) : Ready (fields.set name (.atom a)) :=
  h.set ⟨_, rfl⟩

theorem merge (h : Ready fields) (h' : Ready later) : Ready (fields.merge later) := by
  have hall : ∀ es : Fields, (∀ e ∈ es, (∃ s, e.1 = .str s) ∧ Expands e.2) → ∀ fields : Fields,
      Ready fields → Ready (fields.merge es) := by
    intro es
    induction es with
    | nil => exact fun _ _ hfields => hfields
    | cons e es ih =>
      intro hes fields hfields
      obtain ⟨hkey, hvalue⟩ := hes e List.mem_cons_self
      exact ih (fun e' he' => hes e' (List.mem_cons_of_mem _ he')) _ (hfields.insert hkey hvalue)
  exact hall later (fun e he => ⟨h'.text e he, h'.expands e he⟩) fields h

theorem ite {chosen : Prop} [Decidable chosen] (h : Ready fields) (h' : Ready later) :
    Ready (if chosen then fields else later) := by
  split
  · exact h
  · exact h'

/-- What is found after other fields have been written. -/
theorem get?_merge (h : Ready later) : OrderedMap.get? (fields.merge later) (.str name) =
    (OrderedMap.get? later (.str name)).or (OrderedMap.get? fields (.str name)) :=
  OrderedMap.get?_update h.separate

end NullTypes.Ready

open NullTypes (Ready)

/-! ## Sizes and values -/

section Node

variable {h : Heap} {n : Node} {form : Value → Prop}

theorem rule?_eq_none {name : String} (hrules : ∀ r ∈ n.rules, r.name ≠ name) :
    n.rule? name = none := by
  refine List.find?_eq_none.mpr fun r hr => ?_
  rw [beq_iff_eq]
  exact hrules r hr

theorem Rule.IsSize.name_mem {r : Rule} (h : r.IsSize) : r.name ∈ ["min", "max", "length"] := by
  obtain ⟨i, rfl | rfl | rfl⟩ := h <;> simp [Rule.name]

theorem hasRule_of_isSize {name : String} (hrules : ∀ r ∈ n.rules, r.IsSize)
    (hname : name ∉ ["min", "max", "length"]) : n.hasRule name = false := by
  unfold Node.hasRule
  rw [rule?_eq_none]
  · rfl
  · rintro r hr rfl
    exact hname (hrules r hr).name_mem

/-- Writes a limit, if there is one. -/
def setLimit (fields : Fields) (name : String) (limit? : Option Int) : Fields :=
  match limit? with
  | some i => fields.set name (.int i)
  | none => fields

theorem setLimit_ready {fields : Fields} {name : String} {limit? : Option Int}
    (hfields : Ready fields) : Ready (setLimit fields name limit?) := by
  cases limit? with
  | none => exact hfields
  | some i => exact hfields.setAtom

theorem get?_setLimit {fields : Fields} {name other : String} {limit? : Option Int} :
    OrderedMap.get? (setLimit fields name limit?) (.str other) =
      if name = other then (limit?.map Value.int).or (OrderedMap.get? fields (.str other))
      else OrderedMap.get? fields (.str other) := by
  cases limit? with
  | none => exact (ite_self _).symm
  | some i => exact get?_set

/-- The last limit of a list of rules is that of the first one, unless a later one has one. -/
theorem getLast?_cons_or {r : Rule} {rules : List Rule} {limit? : Rule → Option Int}
    {found : Option Value} :
    ((((r :: rules).filterMap limit?).getLast?).map Value.int).or found =
      (((rules.filterMap limit?).getLast?).map Value.int).or (((limit? r).map Value.int).or found) := by
  rw [List.filterMap_cons]
  cases limit? r with
  | none => rfl
  | some i =>
    dsimp only
    rw [List.getLast?_cons]
    cases (rules.filterMap limit?).getLast? <;> rfl

/-- The size keywords of a node are its least and its greatest size. -/
theorem sizeKeywords_of_isSize (suffix : String) (hne : "min" ++ suffix ≠ "max" ++ suffix)
    (hrules : ∀ r ∈ n.rules, r.IsSize) : ∃ sizes, n.sizeKeywords suffix = .ok sizes ∧ Ready sizes ∧
      ∀ name, OrderedMap.get? sizes (.str name) =
        if name = "min" ++ suffix then n.leastSize?.map .int
        else if name = "max" ++ suffix then n.greatestSize?.map .int else none := by
  have hstep : ∀ (r : Rule) (start : Fields), r.IsSize → n.sizeStep suffix start r =
      .ok (setLimit (setLimit start ("min" ++ suffix) r.least?) ("max" ++ suffix)
        r.greatest?) := by
    rintro r start ⟨i, rfl | rfl | rfl⟩ <;> rfl
  have hfrom : ∀ (rules : List Rule) (start : Fields), (∀ r ∈ rules, r.IsSize) → Ready start →
      ∃ final, rules.foldlM (n.sizeStep suffix) start = .ok final ∧ Ready final ∧
        ∀ name, OrderedMap.get? final (.str name) =
          if name = "min" ++ suffix then
            (((rules.filterMap Rule.least?).getLast?).map Value.int).or
              (OrderedMap.get? start (.str name))
          else if name = "max" ++ suffix then
            (((rules.filterMap Rule.greatest?).getLast?).map Value.int).or
              (OrderedMap.get? start (.str name))
          else OrderedMap.get? start (.str name) := by
    intro rules
    induction rules with
    | nil => exact fun start _ hstart => ⟨start, rfl, hstart, fun name => by simp⟩
    | cons r rules ih =>
      intro start hrules hstart
      obtain ⟨final, hfinal, hready, hget⟩ := ih _ (fun r hr => hrules r (List.mem_cons_of_mem _ hr))
        (setLimit_ready (setLimit_ready hstart) : Ready (setLimit (setLimit start ("min" ++ suffix)
          r.least?) ("max" ++ suffix) r.greatest?))
      refine ⟨final, ?_, hready, fun name => ?_⟩
      · rw [List.foldlM_cons, hstep r start (hrules r List.mem_cons_self)]
        exact hfinal
      · rw [hget, get?_setLimit, get?_setLimit, getLast?_cons_or, getLast?_cons_or]
        by_cases hmin : name = "min" ++ suffix
        · rw [if_pos hmin, if_pos hmin, if_neg (fun heq => hne (hmin.symm.trans heq.symm)),
            if_pos hmin.symm]
        · rw [if_neg hmin, if_neg hmin, if_neg (Ne.symm hmin)]
          by_cases hmax : name = "max" ++ suffix
          · rw [if_pos hmax, if_pos hmax, if_pos hmax.symm]
          · rw [if_neg hmax, if_neg hmax, if_neg (Ne.symm hmax)]
  obtain ⟨sizes, hsizes, hready, hget⟩ := hfrom n.rules [] hrules .nil
  refine ⟨sizes, hsizes, hready, fun name => ?_⟩
  rw [hget]
  simp [Node.leastSize?, Node.greatestSize?]

section Values

variable (accept : Value → Bool) (hvalues : n.Lists form) (haccept : ∀ v, form v → accept v = true)
  (hnull : accept .null = false)
include hvalues haccept hnull

theorem filter_valids : n.valids.filter accept = n.named := by
  unfold Node.named
  refine List.filter_congr fun v hv => ?_
  rcases hvalues.valids v hv with rfl | hform
  · exact hnull
  · rw [haccept v hform]
    cases hnot : v.isNull with
    | false => rfl
    | true =>
      unfold Value.isNull at hnot
      split at hnot
      · rw [haccept _ hform] at hnull
        cases hnull
      · cases hnot

omit hnull in
theorem filter_invalids : n.invalids.filter accept = n.invalids :=
  List.filter_eq_self.mpr fun v hv => haccept v (hvalues.invalids v hv)

/-- The value keywords of a node are the values that it names and those that it denies. -/
theorem valueKeywords_of_lists (hatoms : ∀ v, form v → ∃ a, v = .atom a) :
    Ready (n.valueKeywords accept) ∧ ∀ name, OrderedMap.get? (n.valueKeywords accept) (.str name) =
      if name = "enum" then h.keyword? n none none .enum
      else if name = "not" then h.keyword? n none none .not else none := by
  have hnamed : Expands (.list n.named) := by
    refine ⟨_, NullTypes.expand_atoms fun v hv => ?_⟩
    obtain ⟨hmem, hnot⟩ := List.mem_filter.mp hv
    rcases hvalues.valids v hmem with rfl | hform
    · cases hnot
    · exact hatoms v hform
  have hdenied : Expands (.ofFields [("enum", .list n.invalids)]) := by
    refine NullTypes.expand_unmarked (.map rfl fun e he => ?_)
    obtain rfl := List.mem_singleton.mp he
    refine .list fun v hv => ?_
    obtain ⟨a, rfl⟩ := hatoms v (hvalues.invalids v hv)
    exact .atom a
  unfold Node.valueKeywords Heap.keyword? Node.isLimited
  dsimp only
  rw [filter_valids accept hvalues haccept hnull, filter_invalids accept hvalues haccept]
  have hstart : Ready (if (n.flag "only").truthy && !n.named.isEmpty
      then Fields.set [] "enum" (.list n.named) else []) := .ite (.set .nil hnamed) .nil
  refine ⟨.ite hstart (hstart.set hdenied), fun name => ?_⟩
  by_cases henum : name = "enum"
  · subst henum
    split <;> split <;> simp_all [get?_set]
  · by_cases hnot : name = "not"
    · subst hnot
      split <;> split <;> simp_all [get?_set]
    · split <;> split <;> simp_all [get?_set, Ne.symm henum, Ne.symm hnot]

end Values

end Node

/-! ## Kinds -/

/-- Fields that say what a plain node says, with the schema of its elements and the schemas of its
properties, and that have the mark or not. -/
structure Heap.Describes (h : Heap) (n : Node) (item : Option Value) (properties : Option Fields)
    (marked : Bool) (fields : Fields) : Prop extends Ready fields where
  keyword : ∀ kw : Keyword, OrderedMap.get? fields (.str kw.name) = h.keyword? n item properties kw
  mark : OrderedMap.get? fields (.str "nullable") = if marked then some (.bool true) else none

section Kinds

variable {h : Heap} {n : Node}

theorem Node.Bare.children_eq_nil (hbare : n.Bare []) : n.children = [] := by
  have hparts := hbare.parts
  unfold Node.parts at hparts
  simp only [List.append_eq_nil_iff, List.map_eq_nil_iff] at hparts
  exact hparts.1.1.1.1

theorem Node.Bare.children_eq_nil_of_items {t : Schema} (hbare : n.Bare [t]) (hitems : n.items = [t]) :
    n.children = [] := by
  have hlength := congrArg List.length hbare.parts
  unfold Node.parts at hlength
  rw [hitems] at hlength
  simp only [List.length_append, List.length_map, List.length_singleton] at hlength
  exact List.eq_nil_of_length_eq_zero (by omega)

theorem Node.requiredKeys_of_nil (hchildren : n.children = []) : n.requiredKeys h = [] := by
  unfold requiredKeys
  rw [hchildren]
  rfl

theorem stringKeywords_describes (hkind : n.kind = "string") (hbare : n.Bare [])
    (hrules : ∀ r ∈ n.rules, r.IsSize) (hvalues : n.Lists fun v => v.isText = true) :
    ∃ fields, Scalar.stringKeywords n = .ok fields ∧ h.Describes n none none false fields := by
  obtain ⟨sizes, hsizes, hready, hget⟩ := sizeKeywords_of_isSize "Length" (by decide) hrules
  obtain ⟨hready', hget'⟩ := valueKeywords_of_lists (h := h) Value.isText hvalues
    (fun _ hv => hv) rfl (fun v hv => by
      cases v with
      | atom a => exact ⟨a, rfl⟩
      | _ => cases hv)
  have hno : ∀ name, name ∉ ["min", "max", "length"] → n.hasRule name = false :=
    fun name hname => hasRule_of_isSize hrules hname
  have hpattern : n.rule? "pattern" = none := by
    have hnone := hno "pattern" (by decide)
    unfold Node.hasRule at hnone
    rwa [Option.isSome_eq_false_iff, Option.isNone_iff_eq_none] at hnone
  have hplain : Scalar.formatKeyword n (Scalar.patternKeyword n (Fields.set [] "type" (.str "string")))
      = Fields.set [] "type" (.str "string") := by
    unfold Scalar.formatKeyword Scalar.patternKeyword textFormats
    simp [hno, hpattern]
  refine ⟨((Fields.set [] "type" (.str "string")).merge sizes).merge (n.valueKeywords Value.isText),
    ?_, (Ready.merge (.setAtom .nil) hready).merge hready', fun kw => ?_, ?_⟩
  · unfold Scalar.stringKeywords
    rw [hplain, hsizes]
    rfl
  · rw [hready'.get?_merge, hready.get?_merge, hget, hget', get?_set]
    unfold Heap.keyword?
    cases kw <;> simp [Keyword.name, hkind, Node.dataType,
      Node.requiredKeys_of_nil hbare.children_eq_nil]
  · rw [hready'.get?_merge, hready.get?_merge, hget, hget', get?_set]
    simp

theorem booleanKeywords_describes (hkind : n.kind = "boolean") (hbare : n.Bare [])
    (hvalues : n.Lists fun v => v.isBool = true) :
    h.Describes n none none false (Scalar.booleanKeywords n) := by
  obtain ⟨hready, hget⟩ := valueKeywords_of_lists (h := h) Value.isBool hvalues
    (fun _ hv => hv) rfl (fun v hv => by
      cases v with
      | atom a => exact ⟨a, rfl⟩
      | _ => cases hv)
  unfold Scalar.booleanKeywords
  refine ⟨Ready.merge (.setAtom .nil) hready, fun kw => ?_, ?_⟩
  · rw [hready.get?_merge, hget, get?_set]
    unfold Heap.keyword?
    cases kw <;> simp [Keyword.name, hkind, Node.dataType,
      Node.requiredKeys_of_nil hbare.children_eq_nil]
  · rw [hready.get?_merge, hget, get?_set]
    simp

theorem Node.name_of_rule? {name : String} {r : Rule} (h : n.rule? name = some r) :
    r.name = name := by
  have hfound := @List.find?_some Rule (fun r => r.name == name) r n.rules h
  exact beq_iff_eq.mp hfound

theorem Node.minimum?_eq (hlimits : ∀ limit, .min limit ∈ n.rules → ∃ i, limit = .int i) :
    n.minimum? = ((n.rule? "min").bind Rule.least?).map .int := by
  unfold minimum?
  cases hrule : n.rule? "min" with
  | none => rfl
  | some r =>
    have hname : r.name = "min" := Node.name_of_rule? hrule
    cases r with
    | min limit =>
      obtain ⟨i, rfl⟩ := hlimits limit (List.mem_of_find?_eq_some hrule)
      rfl
    | length => exact absurd hname (by simp [Rule.name])
    | _ => rfl

theorem Node.maximum?_eq (hlimits : ∀ limit, .max limit ∈ n.rules → ∃ i, limit = .int i) :
    n.maximum? = ((n.rule? "max").bind Rule.greatest?).map .int := by
  unfold maximum?
  cases hrule : n.rule? "max" with
  | none => rfl
  | some r =>
    have hname : r.name = "max" := Node.name_of_rule? hrule
    cases r with
    | max limit =>
      obtain ⟨i, rfl⟩ := hlimits limit (List.mem_of_find?_eq_some hrule)
      rfl
    | length => exact absurd hname (by simp [Rule.name])
    | _ => rfl

theorem limitKeyword_eq {name : String} {limit? : Option Int} {fields : Fields} :
    Scalar.limitKeyword n name (limit?.map .int) fields = .ok (setLimit fields name limit?) := by
  cases limit? <;> rfl

theorem signKeyword_eq {fields : Fields} : Scalar.signKeyword n fields =
    setLimit (setLimit fields "minimum" ((n.rule? "sign").bind Rule.leastOfSign?)) "maximum"
      ((n.rule? "sign").bind Rule.greatestOfSign?) := by
  unfold Scalar.signKeyword
  cases n.rule? "sign" with
  | none => rfl
  | some r =>
    cases r with
    | sign s => cases s <;> rfl
    | _ => rfl

theorem numberKeywords_describes (hkind : n.kind = "number") (hbare : n.Bare [])
    (hinteger : .integer ∈ n.rules) (hrules : ∀ r ∈ n.rules, r.IsInteger)
    (hvalues : n.Lists fun v => ∃ i, v = .int i) :
    ∃ fields, Scalar.numberKeywords n = .ok fields ∧ h.Describes n none none false fields := by
  obtain ⟨hready, hget⟩ := valueKeywords_of_lists (h := h) Value.isNumber hvalues
    (fun _ ⟨i, hi⟩ => hi ▸ rfl) rfl (fun v ⟨i, hi⟩ => ⟨.int i, hi⟩)
  have hmin : n.minimum? = ((n.rule? "min").bind Rule.least?).map .int := by
    refine n.minimum?_eq fun limit hmem => ?_
    obtain hinteger | ⟨s, hs⟩ | ⟨i, hi | hi⟩ := hrules _ hmem
    · cases hinteger
    · cases hs
    · exact ⟨i, Rule.min.inj hi⟩
    · cases hi
  have hmax : n.maximum? = ((n.rule? "max").bind Rule.greatest?).map .int := by
    refine n.maximum?_eq fun limit hmem => ?_
    obtain hinteger | ⟨s, hs⟩ | ⟨i, hi | hi⟩ := hrules _ hmem
    · cases hinteger
    · cases hs
    · cases hi
    · exact ⟨i, Rule.max.inj hi⟩
  have htype : Scalar.numberType n = Fields.set [] "type" (.str "integer") := by
    have hhas : n.hasRule "integer" = true := List.find?_isSome.mpr ⟨.integer, hinteger, rfl⟩
    unfold Scalar.numberType
    rw [if_pos hhas]
  have hnumber := Scalar.numberKeywords_eq n
  rw [signKeyword_eq, htype, hmin, hmax] at hnumber
  simp only [limitKeyword_eq, bind, Except.bind, pure, Except.pure] at hnumber
  have hlimits : Ready (setLimit (setLimit (setLimit (setLimit (Fields.set [] "type" (.str "integer"))
      "minimum" ((n.rule? "sign").bind Rule.leastOfSign?)) "maximum"
      ((n.rule? "sign").bind Rule.greatestOfSign?)) "minimum" ((n.rule? "min").bind Rule.least?))
      "maximum" ((n.rule? "max").bind Rule.greatest?)) :=
    setLimit_ready (setLimit_ready (setLimit_ready (setLimit_ready (.setAtom .nil))))
  refine ⟨_, hnumber, hlimits.merge hready, fun kw => ?_, ?_⟩
  · rw [hready.get?_merge, hget]
    simp only [get?_setLimit, get?_set]
    unfold Heap.keyword?
    cases kw <;> simp [Keyword.name, hkind, Node.dataType, Node.leastNumber?,
      Node.greatestNumber?, Option.map_or,
      Node.requiredKeys_of_nil hbare.children_eq_nil]
  · rw [hready.get?_merge, hget]
    simp only [get?_setLimit, get?_set]
    simp

/-! ## Arrays and objects -/

theorem named_of_lists_nothing (hvalues : n.Lists fun _ => False) :
    n.named = [] ∧ n.invalids = [] := by
  constructor
  · refine List.filter_eq_nil_iff.mpr fun v hv => ?_
    rcases hvalues.valids v hv with rfl | hform
    · exact Bool.false_ne_true
    · exact hform.elim
  · exact List.eq_nil_iff_forall_not_mem.mpr fun v hv => hvalues.invalids v hv

theorem arrayFields_describes {t : Schema} {v : Value} (hkind : n.kind = "array")
    (hbare : n.Bare [t]) (hitems : n.items = [t]) (hrules : ∀ r ∈ n.rules, r.IsSize)
    (hvalues : n.Lists fun _ => False) (hv : Expands v) :
    ∃ fields, arrayFields n [some v] = .ok fields ∧
      h.Describes n (some v) none false fields := by
  obtain ⟨sizes, hsizes, hready, hget⟩ := sizeKeywords_of_isSize "Items" (by decide) hrules
  obtain ⟨hnamed, hdenied⟩ := named_of_lists_nothing hvalues
  have hchildren : n.children = [] := hbare.children_eq_nil_of_items hitems
  have hunique : n.hasRule "unique" = false := hasRule_of_isSize hrules (by decide)
  refine ⟨((Fields.set [] "type" (.str "array")).set "items" v).merge sizes, ?_,
    Ready.merge ((Ready.setAtom .nil).set hv) hready, fun kw => ?_, ?_⟩
  · unfold arrayFields
    rw [hsizes]
    simp only [bind, Except.bind, hunique]
    rfl
  · rw [hready.get?_merge, hget, get?_set, get?_set]
    unfold Heap.keyword?
    cases kw <;> simp [Keyword.name, hkind, Node.dataType, Node.isLimited, hnamed,
      hdenied, Node.requiredKeys_of_nil hchildren]
  · rw [hready.get?_merge, hget, get?_set, get?_set]
    simp

/-- A presence is one thing only. -/
theorem Node.not_isForbidden_of_isRequired (hrequired : n.isRequired = true) :
    n.isForbidden = false := by
  have hsame : ∀ {v : Value} {s : String}, v.same (.str s) = true → v = .str s := by
    intro v s hv
    cases v with
    | atom a =>
      rw [Value.same] at hv
      exact congrArg Value.atom (Atom.beq_str_iff.mp hv)
    | _ => cases hv
  unfold isForbidden
  rw [hsame hrequired]
  rfl

/-- The properties of an object are the schemas of its children that are not forbidden, in their
order. -/
theorem childFields_of_outcomes {P : Atom × Schema → Value → Prop} {outcomes : List Compiled}
    (hseparate : OrderedMap.Separate n.children)
    (ho : List.Forall₂ (fun c r => if (h.view c.2).isForbidden = true then r = none
      else ∃ v, r = some v ∧ P c v) n.children outcomes) :
    ∃ properties : Fields, childFields h n outcomes = (properties, (n.requiredKeys h).map .atom) ∧
      List.Forall₂ (fun c p => p.1 = c.1 ∧ P c p.2)
        (n.children.filter fun c => !(h.view c.2).isForbidden) properties := by
  have hfold : ∀ {cs : List (Atom × Schema)} {outcomes : List Compiled},
      List.Forall₂ (fun c r => if (h.view c.2).isForbidden = true then r = none
        else ∃ v, r = some v ∧ P c v) cs outcomes → OrderedMap.Separate cs →
      ∀ (ps : Fields) (keys : List Value), (∀ e ∈ ps, ∀ c ∈ cs, (e.1 == c.1) = false) →
        ∃ properties : Fields, (cs.zip outcomes).foldl (fun acc p => addChild h acc p.1 p.2) (ps, keys) =
            (ps ++ properties, keys ++
              ((cs.filter fun c => (h.view c.2).isRequired).map fun c => .atom c.1)) ∧
          List.Forall₂ (fun c p => p.1 = c.1 ∧ P c p.2)
            (cs.filter fun c => !(h.view c.2).isForbidden) properties := by
    intro cs outcomes hall
    induction hall with
    | nil => exact fun _ ps keys _ => ⟨[], by simp, .nil⟩
    | @cons c r cs outcomes hhead htail ih =>
      intro hseparate ps keys hnew
      obtain ⟨hfirst, hrest⟩ := List.pairwise_cons.mp hseparate
      rw [List.zip_cons_cons, List.foldl_cons]
      cases hforbidden : (h.view c.2).isForbidden with
      | true =>
        rw [if_pos hforbidden] at hhead
        have hrequired : (h.view c.2).isRequired = false := by
          refine Bool.eq_false_iff.mpr fun hrequired => ?_
          rw [Node.not_isForbidden_of_isRequired hrequired] at hforbidden
          cases hforbidden
        obtain ⟨properties, hfields, hproperties⟩ := ih hrest ps keys
          fun e he c' hc' => hnew e he c' (List.mem_cons_of_mem _ hc')
        have hadd : addChild h (ps, keys) c r = (ps, keys) := by rw [hhead, addChild]
        refine ⟨properties, ?_, ?_⟩
        · rw [hadd, hfields, List.filter_cons, hrequired, if_neg Bool.false_ne_true]
        · rw [List.filter_cons, hforbidden]
          exact hproperties
      | false =>
        rw [hforbidden, if_neg Bool.false_ne_true] at hhead
        obtain ⟨v, rfl, hv⟩ := hhead
        have hadd : addChild h (ps, keys) c (some v) = (ps ++ [(c.1, v)],
            if (h.view c.2).isRequired then keys ++ [.atom c.1] else keys) := by
          rw [addChild, OrderedMap.insert_eq_append fun e he => hnew e he c List.mem_cons_self]
        obtain ⟨properties, hfields, hproperties⟩ := ih hrest (ps ++ [(c.1, v)])
          (if (h.view c.2).isRequired then keys ++ [.atom c.1] else keys) (by
            intro e he c' hc'
            rcases List.mem_append.mp he with hold | hlast
            · exact hnew e hold c' (List.mem_cons_of_mem _ hc')
            · obtain rfl := List.mem_singleton.mp hlast
              exact hfirst c' hc')
        refine ⟨(c.1, v) :: properties, ?_, ?_⟩
        · rw [hadd, hfields, List.filter_cons, List.append_assoc]
          cases (h.view c.2).isRequired with
          | true => simp
          | false => simp
        · rw [List.filter_cons, hforbidden]
          exact .cons ⟨rfl, hv⟩ hproperties
  obtain ⟨properties, hfields, hproperties⟩ := hfold ho hseparate [] [] fun _ he => by cases he
  refine ⟨properties, ?_, hproperties⟩
  unfold childFields Node.requiredKeys
  rw [hfields, List.nil_append, List.nil_append, List.map_map]
  rfl

theorem closeObject_describes {properties : Fields} (hkind : n.kind = "object")
    (hvalues : n.Lists fun _ => False) (hproperties : Expands (.ofEntries properties)) :
    h.Describes n none (some properties) false
      (closeObject n properties ((n.requiredKeys h).map .atom) none) := by
  obtain ⟨hnamed, hdenied⟩ := named_of_lists_nothing hvalues
  have hkeys : Expands (.list ((n.requiredKeys h).map .atom)) := by
    refine ⟨_, NullTypes.expand_atoms fun v hv => ?_⟩
    obtain ⟨a, _, rfl⟩ := List.mem_map.mp hv
    exact ⟨a, rfl⟩
  have hstart : Ready ((Fields.set [] "type" (.str "object")).set "properties" (.ofEntries properties)) :=
    (Ready.setAtom .nil).set hproperties
  unfold closeObject
  dsimp only
  refine ⟨?_, fun kw => ?_, ?_⟩
  · have hset := @Ready.set _ "required" _ hstart hkeys
    exact .ite (.setAtom (.ite hstart hset)) (.ite hstart hset)
  · unfold Heap.keyword?
    cases hempty : (n.requiredKeys h).isEmpty <;> cases hclosed : n.isClosed <;> cases kw <;>
      simp [Keyword.name, hkind, Node.dataType, Node.isLimited, hnamed, hdenied,
        get?_set, hempty]
  · cases hempty : (n.requiredKeys h).isEmpty <;> cases hclosed : n.isClosed <;>
      simp [get?_set, hempty]

/-! ## Annotations -/

theorem Keyword.not_common (kw : Keyword) : kw.name ∉ commonKeywords := by
  cases kw <;> decide

/-- Annotations leave what keywords say as it is and add the mark where null is named. -/
theorem annotate_describes {parts : List Schema} {item : Option Value} {properties : Option Fields}
    {fields : Fields} (hbare : n.Bare parts) (hfields : h.Describes n item properties false fields) :
    h.Describes n item properties (Value.null.isIn n.valids) (annotate n fields) := by
  have hflag : ∀ name ∈ ["label", "description", "default"], Expands (n.flag name) :=
    fun name hname => NullTypes.expand_unmarked (hbare.annotations name hname)
  have hexamples : ∀ v ∈ n.examples, Expands v :=
    fun v hv => NullTypes.expand_unmarked (hbare.examples v hv)
  have hlisted : Expands (.list n.examples) := by
    obtain ⟨ys, hys, _⟩ := NullTypes.expandItems_ok hexamples
    exact ⟨.list ys, by rw [NullTypes.expand, hys]; rfl⟩
  refine ⟨?_, fun kw => ?_, ?_⟩
  · have hset : ∀ {chosen : Bool} {name : String} {v : Value} {fields : Fields}, Ready fields →
        Expands v → Ready (if chosen then fields.set name v else fields) :=
      fun hfields hv => .ite (hfields.set hv) hfields
    have hexample : ∀ {fields : Fields}, Ready fields →
        Ready (exampleFields n.examples fields) := by
      intro fields hfields
      unfold exampleFields
      split
      · exact hfields
      · rename_i v heq
        exact hfields.set (hexamples v (by rw [heq]; exact List.mem_cons_self))
      · exact hfields.set hlisted
    have hmark : Expands (.bool true) := ⟨_, rfl⟩
    have hdescribed := @hset (n.flag "description").truthy "description" _ _
      (@hset (Value.null.isIn n.valids) "nullable" _ _ hfields.toReady hmark)
      (hflag "description" (by decide))
    have hlast := @hset (n.flag "label").truthy "title" _ _ (hexample hdescribed)
      (hflag "label" (by decide))
    exact .ite hlast (hlast.set (hflag "default" (by decide)))
  · rw [get?_annotate (Keyword.not_common kw)]
    exact hfields.keyword kw
  · rw [get?_annotate_mark, hfields.mark]
    rfl

end Kinds

end WireShape
