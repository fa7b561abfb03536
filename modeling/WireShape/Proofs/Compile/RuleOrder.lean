import Mathlib.Data.List.Perm.Basic
import WireShape.Proofs.Compile.Scalars
import WireShape.Proofs.Runs

/-!
# The order of rules

A node has at most one rule of a name, and nearly all that is asked of its rules is whether there is
one of a name, so their order says nothing. Only the rules about sizes are gone through one by one,
where a later one writes over an earlier one. So the keywords of a scalar node stay as they are when
its rules are put into another order in which those about sizes keep their own, and the keywords of a
number stay whatever the order.

* `Rule.isSize`: the rules whose order counts.
* `Node.rule?_perm`: the rule of a name does not depend on the order.
* `Node.sizeKeywords_perm`: the size keywords depend on the order of the rules about sizes alone.
* `Scalar.extract_perm`: the keywords of a scalar node with its rules in another order.
-/

namespace WireShape

open Value (Fields)

/-- The rules about sizes. -/
def Rule.isSize : Rule → Bool
  | min _ | max _ | length _ => true
  | _ => false

namespace Node

/-- A node with other rules. -/
def withRules (n : Node) (rules : List Rule) : Node := { n with rules }

section Lookup

variable {n : Node} {rules : List Rule}

/-- Of rules with different names, the one of a name is found whatever their order. -/
theorem find?_perm {xs ys : List Rule} {name : String} (h : xs.Perm ys)
    (hnames : (ys.map Rule.name).Nodup) :
    xs.find? (fun r => r.name == name) = ys.find? fun r => r.name == name := by
  induction h with
  | nil => rfl
  | cons r _ ih =>
    have hrest := (List.nodup_cons.mp hnames).2
    simp only [List.find?_cons, ih hrest]
  | swap r r' rest =>
    have hne : r.name ≠ r'.name := by
      intro heq
      simp [heq] at hnames
    by_cases hr : r.name = name
    · have hr' : ¬ r'.name = name := fun heq => hne (hr.trans heq.symm)
      simp [hr, hr']
    · simp [List.find?_cons, hr]
  | trans h₁ h₂ ih₁ ih₂ =>
    have hmiddle := (h₂.map Rule.name).nodup_iff.mpr hnames
    exact (ih₁ hmiddle).trans (ih₂ hnames)

variable (hperm : rules.Perm n.rules) (hnames : (n.rules.map Rule.name).Nodup)
include hperm hnames

theorem rule?_perm (name : String) : (n.withRules rules).rule? name = n.rule? name :=
  find?_perm hperm hnames

theorem hasRule_perm (name : String) : (n.withRules rules).hasRule name = n.hasRule name := by
  rw [hasRule, hasRule, rule?_perm hperm hnames]

end Lookup

/-! ## Sizes -/

section Sizes

variable {n : Node} {rules : List Rule} {suffix : String} {fields : Fields} {rule : Rule}

/-- All limits that cannot be given fail alike: what stands for the values of the siblings is not a
mapping. -/
def limitFault (n : Node) : Fault := .noAttribute (n.metaValue "refValues").typeName "get"

theorem limitValue_cases {limit : Value} :
    (∃ v, n.limitValue limit = .ok v) ∨ n.limitValue limit = .error n.limitFault := by
  unfold limitValue
  split
  · unfold siblingValue limitFault
    dsimp only
    split
    · cases n.metaValue "refValues" with
      | map es identity => exact .inl ⟨_, rfl⟩
      | _ => exact .inr rfl
    · exact .inl ⟨_, rfl⟩
  · exact .inl ⟨_, rfl⟩

/-- Whether the limit of a rule can be given. -/
def givesLimit (n : Node) (rule : Rule) : Bool :=
  (n.limitValue (rule.limit?.getD .null)).isOk

theorem sizeStep_error (h : n.givesLimit rule = false) :
    n.sizeStep suffix fields rule = .error n.limitFault := by
  unfold givesLimit at h
  unfold sizeStep
  rcases @limitValue_cases n (rule.limit?.getD .null) with ⟨v, hv⟩ | hv
  · rw [hv] at h
    cases h
  · rw [hv]
    rfl

theorem exists_sizeStep (h : n.givesLimit rule = true) :
    ∃ after, n.sizeStep suffix fields rule = .ok after := by
  unfold givesLimit at h
  unfold sizeStep
  obtain ⟨v, hv⟩ := exists_of_isOk h
  rw [hv]
  cases rule <;> exact ⟨_, rfl⟩

/-- A rule about something else writes nothing. -/
theorem sizeStep_other (h : n.givesLimit rule = true) (hother : rule.isSize = false) :
    n.sizeStep suffix fields rule = .ok fields := by
  unfold givesLimit at h
  unfold sizeStep
  obtain ⟨v, hv⟩ := exists_of_isOk h
  rw [hv]
  cases rule with
  | min => cases hother
  | max => cases hother
  | length => cases hother
  | _ => rfl

/-- A limit that cannot be given is the end, wherever its rule stands. -/
theorem foldlM_sizeStep_error (h : ∃ rule ∈ rules, n.givesLimit rule = false) :
    rules.foldlM (n.sizeStep suffix) fields = .error n.limitFault := by
  induction rules generalizing fields with
  | nil => simp at h
  | cons rule rules ih =>
    rw [List.foldlM_cons]
    cases hrule : n.givesLimit rule with
    | false =>
      rw [sizeStep_error hrule]
      rfl
    | true =>
      obtain ⟨after, hafter⟩ := @exists_sizeStep n suffix fields rule hrule
      have hrest : ∃ r ∈ rules, n.givesLimit r = false := by simpa [hrule] using h
      rw [hafter]
      exact ih hrest

/-- Where all limits can be given, only the rules about sizes count. -/
theorem foldlM_sizeStep_filter (h : ∀ rule ∈ rules, n.givesLimit rule = true) :
    rules.foldlM (n.sizeStep suffix) fields =
      (rules.filter Rule.isSize).foldlM (n.sizeStep suffix) fields := by
  induction rules generalizing fields with
  | nil => rfl
  | cons rule rules ih =>
    obtain ⟨hrule, hrest⟩ := List.forall_mem_cons.mp h
    rw [List.foldlM_cons]
    cases hsize : rule.isSize with
    | true =>
      rw [List.filter_cons_of_pos hsize, List.foldlM_cons]
      exact bind_congr fun _ => ih hrest
    | false =>
      have hnot : ¬ rule.isSize = true := by simp [hsize]
      rw [List.filter_cons_of_neg hnot, sizeStep_other hrule hsize]
      exact ih hrest

/-- The size keywords depend on the order of the rules about sizes alone. -/
theorem sizeKeywords_perm (hperm : rules.Perm n.rules)
    (hsizes : rules.filter Rule.isSize = n.rules.filter Rule.isSize) :
    (n.withRules rules).sizeKeywords suffix = n.sizeKeywords suffix := by
  show rules.foldlM (n.sizeStep suffix) [] = n.rules.foldlM (n.sizeStep suffix) []
  by_cases hall : ∀ rule ∈ n.rules, n.givesLimit rule = true
  · have hall' : ∀ rule ∈ rules, n.givesLimit rule = true :=
      fun rule hrule => hall rule (hperm.mem_iff.mp hrule)
    rw [foldlM_sizeStep_filter hall, foldlM_sizeStep_filter hall', hsizes]
  · have hfails : ∃ rule ∈ n.rules, n.givesLimit rule = false := by simpa using hall
    have hfails' : ∃ rule ∈ rules, n.givesLimit rule = false := by
      obtain ⟨rule, hrule, hfalse⟩ := hfails
      exact ⟨rule, hperm.mem_iff.mpr hrule, hfalse⟩
    rw [foldlM_sizeStep_error hfails, foldlM_sizeStep_error hfails']

end Sizes

end Node

/-! ## Keywords -/

namespace Scalar

section Keywords

variable {n : Node} {rules : List Rule}

/-- The keywords of a number do not depend on the order of its rules. -/
theorem numberKeywords_perm (hperm : rules.Perm n.rules)
    (hnames : (n.rules.map Rule.name).Nodup) :
    numberKeywords (n.withRules rules) = numberKeywords n := by
  unfold numberKeywords
  simp only [Node.rule?_perm hperm hnames, Node.hasRule_perm hperm hnames]
  rfl

theorem patternKeyword_perm (hperm : rules.Perm n.rules) (hnames : (n.rules.map Rule.name).Nodup)
    (fields : Fields) : patternKeyword (n.withRules rules) fields = patternKeyword n fields := by
  unfold patternKeyword Node.caseSuffix
  simp only [Node.rule?_perm hperm hnames, Node.hasRule_perm hperm hnames]
  rfl

theorem formatKeyword_perm (hperm : rules.Perm n.rules) (hnames : (n.rules.map Rule.name).Nodup)
    (fields : Fields) : formatKeyword (n.withRules rules) fields = formatKeyword n fields := by
  unfold formatKeyword
  simp only [Node.hasRule_perm hperm hnames]

/-- The keywords of a scalar kind depend on the order of the rules about sizes alone. -/
theorem keywords_perm {kind : Scalar} (hperm : rules.Perm n.rules)
    (hnames : (n.rules.map Rule.name).Nodup)
    (hsizes : rules.filter Rule.isSize = n.rules.filter Rule.isSize) :
    kind.keywords (n.withRules rules) = kind.keywords n := by
  cases kind with
  | number => exact numberKeywords_perm hperm hnames
  | string =>
    show stringKeywords (n.withRules rules) = stringKeywords n
    unfold stringKeywords
    rw [Node.sizeKeywords_perm hperm hsizes, patternKeyword_perm hperm hnames,
      formatKeyword_perm hperm hnames]
    rfl
  | binary =>
    show binaryKeywords (n.withRules rules) = binaryKeywords n
    unfold binaryKeywords
    rw [Node.sizeKeywords_perm hperm hsizes]
    rfl
  | _ => rfl

end Keywords

/-- **The order of rules.** The keywords of a scalar node with rules of different names, or its
failure, are the same for all orders of the rules in which those about sizes keep their own, and for
all orders whatever if the node is a number. -/
theorem extract_perm {describe : Describe} {n : Node} {rules : List Rule}
    (hperm : rules.Perm n.rules) (hnames : (n.rules.map Rule.name).Nodup) :
    (rules.filter Rule.isSize = n.rules.filter Rule.isSize →
      extract describe (n.withRules rules) = extract describe n) ∧
    (n.baseKind = .str "number" → extract describe (n.withRules rules) = extract describe n) := by
  constructor
  · intro hsizes
    have hkeywords : ∀ kind : Scalar, kind.keywords (n.withRules rules) = kind.keywords n :=
      fun kind => keywords_perm hperm hnames hsizes
    unfold extract
    simp only [hkeywords]
    rfl
  · intro hnumber
    have hnumber' : (n.withRules rules).baseKind = .str "number" := hnumber
    unfold extract
    rw [hnumber, hnumber']
    exact numberKeywords_perm hperm hnames

/-- A positive integer whose least value is that of a sibling field. -/
def seatCount : Node where
  kind := "number"
  rules := [.integer, .sign .positive, .min (.ref "first"), .max (.int 40)]
  metadata := [(.str "refValues", .ofFields [("first", .int 7)])]

/-- A text of letters and digits in lower case that is an address as well. -/
def seatCode : Node where
  kind := "string"
  rules := [.alphanum, .min (.int 2), .max (.int 9)] ++ [.case .lower, .email]
  flags := [("convert", .bool false)]

/-- The rules of the text, those about sizes last. -/
def seatCodeRules : List Rule := [.case .lower, .email] ++ [.alphanum, .min (.int 2), .max (.int 9)]

/-- The rules of the number may stand the other way round, and those of the text with the ones about
sizes last. -/
theorem extract_perm_seat :
    seatCount.rules.reverse.Perm seatCount.rules ∧ (seatCount.rules.map Rule.name).Nodup ∧
    seatCount.baseKind = .str "number" ∧
    extract (fun _ => .ok "") (seatCount.withRules seatCount.rules.reverse) =
      .ok [(.str "type", .str "integer"), (.str "minimum", .int 7), (.str "maximum", .int 40)] ∧
    seatCodeRules.Perm seatCode.rules ∧ (seatCode.rules.map Rule.name).Nodup ∧
    seatCodeRules.filter Rule.isSize = seatCode.rules.filter Rule.isSize ∧
    extract (fun _ => .ok "") (seatCode.withRules seatCodeRules) =
      .ok [(.str "type", .str "string"), (.str "format", .str "email"), (.str "minLength", .int 2),
        (.str "maxLength", .int 9)] := by
  have hcount : (seatCount.rules.map Rule.name).Nodup := by decide
  have hcode : (seatCode.rules.map Rule.name).Nodup := by decide
  have hreverse : seatCount.rules.reverse.Perm seatCount.rules := List.reverse_perm _
  have hmoved : seatCodeRules.Perm seatCode.rules := List.perm_append_comm
  refine ⟨hreverse, hcount, rfl, ?_, hmoved, hcode, rfl, ?_⟩
  · rw [(extract_perm hreverse hcount).2 rfl]
    rfl
  · rw [(extract_perm hmoved hcode).1 rfl]
    rfl

/-- Of the rules about sizes the last one decides. -/
example :
    keywords .string { kind := "string", rules := [.length (.int 5), .min (.int 2)] } =
      .ok [(.str "type", .str "string"), (.str "minLength", .int 2), (.str "maxLength", .int 5)] ∧
    keywords .string { kind := "string", rules := [.min (.int 2), .length (.int 5)] } =
      .ok [(.str "type", .str "string"), (.str "minLength", .int 5), (.str "maxLength", .int 5)] :=
  ⟨rfl, rfl⟩

end Scalar

end WireShape
