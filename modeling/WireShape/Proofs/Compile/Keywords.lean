import WireShape.Proofs.Compile.Related

/-!
# Which keywords a node has

Scalars write keywords from a fixed list, and so do the steps that are common to all kinds. What is
found under `properties` therefore comes from the children of an object and from nowhere else, and
what is found under `title` is the label of the node.

* `Fields.Among`: fields with keywords from a list.
* `Scalar.keywords_among`: the keywords of scalars.
* `Node.properties_of_assemble`: what is found under `properties`.
* `Node.title_of_assemble`: what is found under `title`.
* `Node.nameless_of_assemble`: nothing is found under `name`.
-/

namespace WireShape

open Value (Fields)

/-- All keys are keywords from a list. -/
def Value.Fields.Among (names : List String) (fields : Fields) : Prop :=
  ∀ e ∈ fields, ∃ name ∈ names, e.1 = .str name

namespace Value.Fields.Among

variable {names : List String} {fields later : Fields}

theorem nil : Among names [] := fun _ he => by cases he

theorem insert {name : String} {k : Atom} {v : Value} (h : Among names fields) (hname : name ∈ names)
    (hk : k = .str name) : Among names (OrderedMap.insert fields k v) := by
  subst hk
  intro e he
  rcases OrderedMap.mem_insert he with hold | ⟨_, hkey | ⟨⟨b, hb⟩, _⟩⟩
  · exact h e hold
  · exact ⟨name, hname, hkey⟩
  · exact h (e.1, b) hb

theorem set {name : String} {v : Value} (h : Among names fields) (hname : name ∈ names) :
    Among names (fields.set name v) := h.insert hname rfl

theorem merge (h : Among names fields) (h' : Among names later) :
    Among names (fields.merge later) := by
  unfold Fields.merge OrderedMap.update
  induction later generalizing fields with
  | nil => exact h
  | cons e later ih =>
    rw [List.foldl_cons]
    obtain ⟨name, hname, hkey⟩ := h' e List.mem_cons_self
    exact ih (h.insert hname hkey) fun e' he' => h' e' (List.mem_cons_of_mem _ he')

theorem remove {name : String} (h : Among names fields) : Among names (fields.remove name) :=
  fun e he => h e (List.mem_of_mem_filter he)

theorem mono {names' : List String} (h : Among names fields) (hnames : names ⊆ names') :
    Among names' fields := by
  intro e he
  obtain ⟨name, hname, hkey⟩ := h e he
  exact ⟨name, hnames hname, hkey⟩

theorem ite {chosen : Prop} [Decidable chosen] (h : Among names fields) (h' : Among names later) :
    Among names (if chosen then fields else later) := by
  split
  · exact h
  · exact h'

/-- A keyword that is not in the list is not found. -/
theorem get?_eq_none {name : String} (h : Among names fields) (hname : name ∉ names) :
    OrderedMap.get? fields (.str name) = none := by
  cases hget : OrderedMap.get? fields (.str name) with
  | none => rfl
  | some v =>
    obtain ⟨k, hmem, hk⟩ := OrderedMap.mem_of_get? hget
    obtain ⟨other, hother, hkey⟩ := h _ hmem
    have heq : k = .str name := Atom.beq_str_iff.mp hk
    rw [heq] at hkey
    injection hkey with hkey
    rw [hkey] at hname
    exact absurd hother hname

end Value.Fields.Among

/-! ## Scalars -/

/-- The keywords that scalars write. -/
def scalarKeywords : List String :=
  ["type", "format", "in", "minimum", "maximum", "minLength", "maxLength", "pattern", "enum", "not"]

section Scalars

variable {n : Node} {fields : Fields}

theorem sizeKeywords_among {names : List String} {suffix : String} (hmin : "min" ++ suffix ∈ names)
    (hmax : "max" ++ suffix ∈ names) (h : n.sizeKeywords suffix = .ok fields) :
    fields.Among names := by
  refine Node.sizeKeywords_keeps (fun name hname _ _ _ _ _ hfields => hfields.set ?_) .nil h
  have hnames : ∀ name ∈ ["min" ++ suffix, "max" ++ suffix], name ∈ names :=
    List.forall_mem_cons.mpr ⟨hmin, List.forall_mem_singleton.mpr hmax⟩
  exact hnames name hname

/-- The keywords of the values of a scalar. -/
def valueKeywordNames : List String := ["enum", "not"]

theorem valueKeywords_among {accept : Value → Bool} :
    (n.valueKeywords accept).Among valueKeywordNames := by
  unfold Node.valueKeywords
  dsimp only
  have hstart : ∀ (chosen : Bool) (xs : List Value), Fields.Among valueKeywordNames
      (if chosen then Fields.set [] "enum" (.list xs) else []) :=
    fun _ _ => .ite (.set .nil (by decide)) .nil
  exact .ite (hstart _ _) ((hstart _ _).set (by decide))

theorem limitKeyword_among {names : List String} {name : String} {limit? : Option Value}
    {after : Fields} (hname : name ∈ names) (hfields : fields.Among names)
    (h : Scalar.limitKeyword n name limit? fields = .ok after) : after.Among names := by
  cases limit? with
  | none =>
    cases h
    exact hfields
  | some limit =>
    obtain ⟨_, _, hset⟩ := bind_eq_ok_iff.mp h
    cases hset
    exact hfields.set hname

namespace Scalar

/-- The keywords that a kind of scalar writes, but for those of its values. -/
def ownKeywords : Scalar → List String
  | number => ["type", "format", "minimum", "maximum"]
  | string => ["type", "format", "pattern", "minLength", "maxLength"]
  | binary => ["type", "format", "minLength", "maxLength"]
  | date => ["type", "format"]
  | boolean => ["type"]
  | any => ["type", "in"]

/-- A number writes its type, its limits and its values. -/
theorem numberKeywords_own (h : numberKeywords n = .ok fields) :
    ∃ own : Fields, own.Among number.ownKeywords ∧
      fields = own.merge (n.valueKeywords Value.isNumber) := by
  rw [numberKeywords_eq] at h
  obtain ⟨lower, hlower, hrest⟩ := bind_eq_ok_iff.mp h
  obtain ⟨upper, hupper, hfields⟩ := bind_eq_ok_iff.mp hrest
  cases hfields
  have htype : (numberType n).Among number.ownKeywords :=
    .ite (.set .nil (by decide)) (.set (.set .nil (by decide)) (by decide))
  have hsign : (signKeyword n (numberType n)).Among number.ownKeywords := by
    unfold signKeyword
    split
    · exact htype.set (by decide)
    · exact htype.set (by decide)
    · exact htype
  have hmin := limitKeyword_among (by decide) hsign hlower
  exact ⟨upper, limitKeyword_among (by decide) hmin hupper, rfl⟩

theorem patternKeyword_among {names : List String} (hname : "pattern" ∈ names)
    (hfields : fields.Among names) : (patternKeyword n fields).Among names := by
  have hpattern : ∀ {chosen : Bool} {s : String} {fields : Fields}, fields.Among names →
      Fields.Among names (if chosen then fields.set "pattern" (.str s) else fields) :=
    fun h => .ite (h.set hname) h
  unfold patternKeyword
  dsimp only
  split
  · exact (hpattern (hpattern hfields)).set hname
  · exact hpattern (hpattern hfields)

/-- What a format step keeps that the steps to a format keep, all of them keep. -/
theorem formatKeyword_keeps {I : Fields → Prop} (hfields : I fields)
    (hstep : ∀ (fields : Fields) (fmt : String), I fields →
      I ((fields.set "format" (.str fmt)).remove "pattern")) : I (formatKeyword n fields) := by
  refine List.foldlRecOn (motive := I) textFormats _ hfields fun fields hkept step _ => ?_
  obtain ⟨rule, fmt⟩ := step
  dsimp only
  split
  · exact hstep fields fmt hkept
  · exact hkept

/-- A text writes its pattern or its format, its size and its values. -/
theorem stringKeywords_own (h : stringKeywords n = .ok fields) :
    ∃ sizes, n.sizeKeywords "Length" = .ok sizes ∧ fields =
      ((formatKeyword n (patternKeyword n (Fields.set [] "type" (.str "string")))).merge sizes).merge
        (n.valueKeywords Value.isText) := by
  obtain ⟨sizes, hsizes, hfields⟩ := bind_eq_ok_iff.mp h
  cases hfields
  exact ⟨sizes, hsizes, rfl⟩

/-- A scalar writes keywords of its own and then those of its values, if it lists any. -/
theorem keywords_own {kind : Scalar} (h : kind.keywords n = .ok fields) :
    ∃ own values : Fields, own.Among kind.ownKeywords ∧
      (values = [] ∨ ∃ accept, values = n.valueKeywords accept) ∧ fields = own.merge values := by
  cases kind with
  | number =>
    obtain ⟨own, hown, rfl⟩ := numberKeywords_own h
    exact ⟨own, _, hown, .inr ⟨_, rfl⟩, rfl⟩
  | string =>
    obtain ⟨sizes, hsizes, rfl⟩ := stringKeywords_own h
    refine ⟨_, _, Fields.Among.merge ?_ (sizeKeywords_among (by decide) (by decide) hsizes),
      .inr ⟨_, rfl⟩, rfl⟩
    exact formatKeyword_keeps (patternKeyword_among (by decide) (.set .nil (by decide)))
      fun _ _ hkept => (hkept.set (by decide)).remove
  | binary =>
    obtain ⟨sizes, hsizes, hfields⟩ := bind_eq_ok_iff.mp h
    cases hfields
    refine ⟨_, [], ?_, .inl rfl, rfl⟩
    exact Fields.Among.merge (.set (.set .nil (by decide)) (by decide))
      (sizeKeywords_among (by decide) (by decide) hsizes)
  | date =>
    cases h
    refine ⟨dateKeywords n, [], ?_, .inl rfl, rfl⟩
    unfold dateKeywords
    exact .set (.set .nil (by decide)) (by decide)
  | boolean =>
    cases h
    exact ⟨_, _, .set .nil (by decide), .inr ⟨_, rfl⟩, rfl⟩
  | any =>
    cases h
    exact ⟨_, _, .ite (.set (.set .nil (by decide)) (by decide)) .nil, .inr ⟨_, rfl⟩, rfl⟩

theorem keywords_among {kind : Scalar} (h : kind.keywords n = .ok fields) :
    fields.Among scalarKeywords := by
  obtain ⟨own, values, hown, hvalues, rfl⟩ := keywords_own h
  refine (hown.mono ?_).merge ?_
  · cases kind <;> decide
  · rcases hvalues with rfl | ⟨accept, rfl⟩
    · exact .nil
    · exact valueKeywords_among.mono (by decide)

end Scalar

end Scalars

/-! ## Properties -/

section Properties

variable {h : Heap} {n : Node} {fields : Fields}

theorem get?_set_of_ne {name other : String} {v : Value} (hne : name ≠ other) :
    OrderedMap.get? (fields.set name v) (.str other) = OrderedMap.get? fields (.str other) := by
  unfold Fields.set
  rw [OrderedMap.get?_insert, if_neg]
  intro heq
  exact hne (Atom.str.inj (Atom.beq_str_iff.mp heq))

theorem get?_set_self {name : String} {v : Value} :
    OrderedMap.get? (fields.set name v) (.str name) = some v := by
  unfold Fields.set
  rw [OrderedMap.get?_insert, if_pos (Atom.beq_str_iff.mpr rfl)]

/-- The keywords that are common to all kinds. -/
def commonKeywords : List String :=
  ["nullable", "description", "example", "examples", "title", "default"]

/-- Past the mark, annotations leave all other keywords as they are. -/
theorem get?_annotate_marked {name : String}
    (hname : name ∉ ["description", "example", "examples", "title", "default"]) :
    OrderedMap.get? (annotate n fields) (.str name) = OrderedMap.get?
      (if Value.null.isIn n.valids then fields.set "nullable" (.bool true) else fields)
        (.str name) := by
  have hset : ∀ {other : String} {v : Value} {fields : Fields},
      other ∈ ["description", "example", "examples", "title", "default"] →
        OrderedMap.get? (fields.set other v) (.str name) = OrderedMap.get? fields (.str name) :=
    fun hother => get?_set_of_ne fun heq => hname (heq ▸ hother)
  have hite : ∀ {chosen : Bool} {other : String} {v : Value} {fields : Fields},
      other ∈ ["description", "example", "examples", "title", "default"] →
        OrderedMap.get? (if chosen then fields.set other v else fields) (.str name) =
          OrderedMap.get? fields (.str name) := by
    intro chosen other v fields hother
    cases chosen with
    | false => rfl
    | true => exact hset hother
  have hexamples : ∀ fields : Fields,
      OrderedMap.get? (exampleFields n.examples fields) (.str name) =
        OrderedMap.get? fields (.str name) := by
    intro fields
    unfold exampleFields
    split
    · rfl
    · exact hset (by decide)
    · exact hset (by decide)
  have hdefault : ∀ (kept : Bool) (fields : Fields), OrderedMap.get?
      (if kept then fields else fields.set "default" (n.flag "default")) (.str name) =
        OrderedMap.get? fields (.str name) := by
    intro kept fields
    cases kept with
    | true => rfl
    | false => exact hset (by decide)
  exact (hdefault _ _).trans ((hite (by decide)).trans ((hexamples _).trans (hite (by decide))))

/-- Annotations leave all other keywords as they are. -/
theorem get?_annotate {name : String} (hname : name ∉ commonKeywords) :
    OrderedMap.get? (annotate n fields) (.str name) = OrderedMap.get? fields (.str name) := by
  rw [get?_annotate_marked fun hlater => hname (List.mem_cons_of_mem _ hlater)]
  split
  · exact get?_set_of_ne fun heq => hname (heq ▸ List.mem_cons_self)
  · rfl

/-- The mark stands where null is listed. -/
theorem get?_annotate_mark : OrderedMap.get? (annotate n fields) (.str "nullable") =
    if Value.null.isIn n.valids then some (.bool true)
    else OrderedMap.get? fields (.str "nullable") := by
  rw [get?_annotate_marked (by decide)]
  split
  · exact get?_set_self
  · rfl

/-- The label of a node is its title. -/
theorem get?_annotate_title : OrderedMap.get? (annotate n fields) (.str "title") =
    if (n.flag "label").truthy then some (n.flag "label")
    else OrderedMap.get? fields (.str "title") := by
  have hite : ∀ {chosen : Bool} {other : String} {v : Value} {fields : Fields}, other ≠ "title" →
      OrderedMap.get? (if chosen then fields.set other v else fields) (.str "title") =
        OrderedMap.get? fields (.str "title") := by
    intro chosen other v fields hne
    cases chosen with
    | false => rfl
    | true => exact get?_set_of_ne hne
  have hexamples : ∀ fields : Fields, OrderedMap.get? (exampleFields n.examples fields)
      (.str "title") = OrderedMap.get? fields (.str "title") := by
    intro fields
    unfold exampleFields
    split
    · rfl
    · exact get?_set_of_ne (by decide)
    · exact get?_set_of_ne (by decide)
  have hdefault : ∀ (kept : Bool) (fields : Fields), OrderedMap.get?
      (if kept then fields else fields.set "default" (n.flag "default")) (.str "title") =
        OrderedMap.get? fields (.str "title") := by
    intro kept fields
    cases kept with
    | true => rfl
    | false => exact get?_set_of_ne (by decide)
  refine (hdefault _ _).trans ?_
  split
  · exact get?_set_self
  · exact (hexamples _).trans ((hite (by decide)).trans (hite (by decide)))

theorem ends_with_of {mode name : String} (h : mode ++ "Of" = name) :
    name.toList.getLast? = some 'f' := by
  rw [← h, String.toList_append]
  exact List.getLast?_append

/-- The keywords of branches are in no list of names that end otherwise. -/
theorem of_not_mem {names : List String} (hnames : ∀ name ∈ names, name.toList.getLast? ≠ some 'f')
    {mode : String} : mode ++ "Of" ∉ names := fun hmem => hnames _ hmem (ends_with_of rfl)

theorem branchKeyword_get? {keyword name : String} {schemas : List Value} (hne : keyword ≠ name) :
    OrderedMap.get? (branchKeyword keyword schemas) (.str name) = none := by
  unfold branchKeyword
  split
  · rfl
  · exact get?_set_of_ne hne

/-- The keywords of arrays. -/
def arrayKeywords : List String := ["type", "items", "minItems", "maxItems", "uniqueItems"]

theorem arrayFields_among {outcomes : List Compiled} (h : arrayFields n outcomes = .ok fields) :
    fields.Among arrayKeywords := by
  obtain ⟨sizes, hsizes, hfields⟩ := bind_eq_ok_iff.mp h
  cases hfields
  have hsize : sizes.Among arrayKeywords := sizeKeywords_among (by decide) (by decide) hsizes
  have hstart : Fields.Among arrayKeywords
      ((Fields.set [] "type" (.str "array")).set "items" (itemsValue (outcomes.filterMap id))) :=
    .set (.set .nil (by decide)) (by decide)
  exact .ite ((hstart.merge hsize).set (by decide)) (hstart.merge hsize)

/-- What is said after the items of an array leaves them as they are. -/
theorem arrayFields_get? {outcomes : List Compiled} (h : arrayFields n outcomes = .ok fields) :
    OrderedMap.get? fields (.str "items") = some (itemsValue (outcomes.filterMap id)) := by
  obtain ⟨sizes, hsizes, hfields⟩ := bind_eq_ok_iff.mp h
  cases hfields
  have hlimits : sizes.Among ["minItems", "maxItems"] :=
    sizeKeywords_among (by decide) (by decide) hsizes
  have hsized : OrderedMap.get? (((Fields.set [] "type" (.str "array")).set "items"
      (itemsValue (outcomes.filterMap id))).merge sizes) (.str "items") =
        some (itemsValue (outcomes.filterMap id)) :=
    (OrderedMap.get?_update_of_none (hlimits.get?_eq_none (by decide))).trans get?_set_self
  split
  · exact (get?_set_of_ne (by decide)).trans hsized
  · exact hsized

/-- The keywords of objects. -/
def objectKeywords : List String := ["type", "properties", "required", "additionalProperties"]

theorem closeObject_among {properties : Fields} {required : List Value} {additional : Compiled} :
    (closeObject n properties required additional).Among objectKeywords := by
  have hstart : Fields.Among objectKeywords
      ((Fields.set [] "type" (.str "object")).set "properties" (.ofEntries properties)) :=
    .set (.set .nil (by decide)) (by decide)
  have hrequired : ∀ fields : Fields, fields.Among objectKeywords → Fields.Among objectKeywords
      (if required.isEmpty then fields else fields.set "required" (.list required)) :=
    fun _ hfields => .ite hfields (hfields.set (by decide))
  have hclosed : ∀ fields : Fields, fields.Among objectKeywords → Fields.Among objectKeywords
      (if n.isClosed then fields.set "additionalProperties" (.bool false) else fields) :=
    fun _ hfields => .ite (hfields.set (by decide)) hfields
  have hfields := hclosed _ (hrequired _ hstart)
  cases additional with
  | none => exact hfields
  | some schema => exact .ite (hfields.set (by decide)) hfields

/-- What is said after the properties of an object leaves them as they are. -/
theorem closeObject_get? {properties : Fields} {required : List Value} {additional : Compiled} :
    OrderedMap.get? (closeObject n properties required additional) (.str "properties") =
      some (.ofEntries properties) := by
  have hreq : ∀ fields : Fields, OrderedMap.get?
      (if required.isEmpty then fields else fields.set "required" (.list required))
        (.str "properties") = OrderedMap.get? fields (.str "properties") := by
    intro fields
    split
    · rfl
    · exact get?_set_of_ne (by decide)
  have hclosed : ∀ fields : Fields, OrderedMap.get?
      (if n.isClosed then fields.set "additionalProperties" (.bool false) else fields)
        (.str "properties") = OrderedMap.get? fields (.str "properties") := by
    intro fields
    split
    · exact get?_set_of_ne (by decide)
    · rfl
  have hfields := (hclosed _).trans ((hreq _).trans
    (@get?_set_self (Fields.set [] "type" (.str "object")) "properties" (.ofEntries properties)))
  cases additional with
  | none => exact hfields
  | some schema =>
    unfold closeObject
    dsimp only
    split
    · exact (get?_set_of_ne (by decide)).trans hfields
    · exact hfields

/-- What an object says about keys that it does not describe: the schema of all keys, if that says
something, and otherwise that they are refused, if the object is closed. -/
theorem closeObject_additional {properties : Fields} {required : List Value}
    {additional : Compiled} : OrderedMap.get? (closeObject n properties required additional)
      (.str "additionalProperties") =
        (additional.filter Value.truthy).or (if n.isClosed then some (.bool false) else none) := by
  have hstart : OrderedMap.get? (if required.isEmpty then
      (Fields.set [] "type" (.str "object")).set "properties" (.ofEntries properties) else
      ((Fields.set [] "type" (.str "object")).set "properties" (.ofEntries properties)).set "required"
        (.list required)) (.str "additionalProperties") = none := by
    split
    · rfl
    · exact get?_set_of_ne (by decide)
  have hclosed : ∀ fields : Fields, OrderedMap.get? fields (.str "additionalProperties") = none →
      OrderedMap.get? (if n.isClosed then fields.set "additionalProperties" (.bool false) else fields)
        (.str "additionalProperties") = if n.isClosed then some (.bool false) else none := by
    intro fields hfields
    split
    · exact get?_set_self
    · exact hfields
  cases additional with
  | none => exact hclosed _ hstart
  | some schema =>
    unfold closeObject
    dsimp only
    rw [Option.filter_some]
    split
    · exact get?_set_self
    · exact hclosed _ hstart

/-- The fields of a node are what its kind says, its conditions and its annotations. -/
theorem Node.assemble_parts {kind : Kind} {outcomes whenOutcomes : List Compiled}
    (hliteral : n.literal.truthy = false)
    (hfields : n.assemble h kind outcomes whenOutcomes = .ok fields) :
    ∃ own both, kind.fields h n outcomes = .ok own ∧ fields = annotate n both ∧
      ∀ name, name ∉ ["anyOf", "oneOf"] →
        OrderedMap.get? both (.str name) = OrderedMap.get? own (.str name) := by
  obtain ⟨own, hown, hrest⟩ := bind_eq_ok_iff.mp hfields
  obtain ⟨conditional, hconditional, hlast⟩ := bind_eq_ok_iff.mp hrest
  unfold addLiteral at hlast
  rw [hliteral] at hlast
  cases hlast
  obtain ⟨schemas, _, hpure⟩ := bind_eq_ok_iff.mp hconditional
  cases hpure
  refine ⟨own, _, hown, rfl, fun name hname => ?_⟩
  have hwhen : n.whenKeyword ≠ name := by
    rintro rfl
    apply hname
    unfold whenKeyword
    split <;> decide
  exact OrderedMap.get?_update_of_none (branchKeyword_get? hwhen)

/-- Under `properties` there is what the children of an object compile to. -/
theorem Node.properties_of_assemble {kind : Kind} {outcomes whenOutcomes : List Compiled} {p : Value}
    (hliteral : n.literal.truthy = false)
    (hfields : n.assemble h kind outcomes whenOutcomes = .ok fields)
    (hp : OrderedMap.get? fields (.str "properties") = some p) :
    p = .ofEntries (childFields h n outcomes).1 := by
  obtain ⟨own, both, hown, rfl, hboth⟩ := Node.assemble_parts hliteral hfields
  rw [get?_annotate (by decide), hboth _ (by decide)] at hp
  cases kind with
  | scalar kind =>
    rw [(Scalar.keywords_among hown).get?_eq_none (by decide)] at hp
    cases hp
  | object =>
    cases hown
    rw [objectFields, closeObject_get?] at hp
    cases hp
    rfl
  | array =>
    rw [(arrayFields_among hown).get?_eq_none (by decide)] at hp
    cases hp
  | alternatives =>
    obtain ⟨mode, _, hbranches⟩ := bind_eq_ok_iff.mp hown
    obtain ⟨values, _, hkeyword⟩ := bind_eq_ok_iff.mp hbranches
    cases hkeyword
    rw [branchKeyword_get?] at hp
    · cases hp
    · intro heq
      exact absurd (ends_with_of heq) (by decide)

/-- A kind says nothing under what is none of its keywords. -/
theorem Kind.fields_get?_eq_none {kind : Kind} {outcomes : List Compiled} {name : String}
    (hscalar : name ∉ scalarKeywords) (hobject : name ∉ objectKeywords)
    (harray : name ∉ arrayKeywords) (hending : name.toList.getLast? ≠ some 'f')
    (hfields : kind.fields h n outcomes = .ok fields) :
    OrderedMap.get? fields (.str name) = none := by
  cases kind with
  | scalar kind => exact (Scalar.keywords_among hfields).get?_eq_none hscalar
  | object =>
    cases hfields
    exact closeObject_among.get?_eq_none hobject
  | array => exact (arrayFields_among hfields).get?_eq_none harray
  | alternatives =>
    obtain ⟨mode, _, hbranches⟩ := bind_eq_ok_iff.mp hfields
    obtain ⟨values, _, hkeyword⟩ := bind_eq_ok_iff.mp hbranches
    cases hkeyword
    exact branchKeyword_get? fun heq => hending (ends_with_of heq)

/-- The schema of a node has no name, which tells it from a parameter. -/
theorem Node.nameless_of_assemble {kind : Kind} {outcomes whenOutcomes : List Compiled}
    (hliteral : n.literal.truthy = false)
    (hfields : n.assemble h kind outcomes whenOutcomes = .ok fields) :
    OrderedMap.get? fields (.str "name") = none := by
  obtain ⟨own, both, hown, rfl, hboth⟩ := Node.assemble_parts hliteral hfields
  rw [get?_annotate (by decide), hboth _ (by decide)]
  exact Kind.fields_get?_eq_none (by decide) (by decide) (by decide) (by decide) hown

/-- The title of a node is its label. -/
theorem Node.title_of_assemble {kind : Kind} {outcomes whenOutcomes : List Compiled} {t : Value}
    (hliteral : n.literal.truthy = false)
    (hfields : n.assemble h kind outcomes whenOutcomes = .ok fields)
    (ht : OrderedMap.get? fields (.str "title") = some t) : t = n.flag "label" := by
  obtain ⟨own, both, hown, rfl, hboth⟩ := Node.assemble_parts hliteral hfields
  rw [get?_annotate_title, hboth _ (by decide), Kind.fields_get?_eq_none (by decide) (by decide)
    (by decide) (by decide) hown] at ht
  split at ht
  · exact (Option.some.inj ht).symm
  · cases ht

/-- The properties of an object are outcomes of its children. -/
theorem childFields_mem {outcomes : List Compiled} {e : Atom × Value}
    (he : e ∈ (childFields h n outcomes).1) : some e.2 ∈ outcomes := by
  have hfold : ∀ (entries : List ((Atom × Schema) × Compiled)) (acc : Fields × List Value),
      e ∈ (entries.foldl (fun acc p => addChild h acc p.1 p.2) acc).1 →
        e ∈ acc.1 ∨ some e.2 ∈ entries.map (·.2) := by
    intro entries
    induction entries with
    | nil => exact fun acc h => .inl h
    | cons entry entries ih =>
      intro acc hmem
      rw [List.foldl_cons] at hmem
      rw [List.map_cons]
      rcases ih _ hmem with hacc | hlater
      · cases houtcome : entry.2 with
        | none =>
          rw [houtcome] at hacc
          exact .inl hacc
        | some v =>
          rw [houtcome] at hacc
          rcases OrderedMap.mem_insert hacc with hold | ⟨hv, _⟩
          · exact .inl hold
          · exact .inr (by rw [hv]; exact List.mem_cons_self)
      · exact .inr (List.mem_cons_of_mem _ hlater)
  rcases hfold (n.children.zip outcomes) ([], []) he with hnil | hmem
  · cases hnil
  · obtain ⟨p, hp, heq⟩ := List.mem_map.mp hmem
    rw [← heq]
    exact (List.of_mem_zip hp).2

end Properties

end WireShape
