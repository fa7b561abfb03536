import WireShape.Proofs.Sorting
import WireShape.Proofs.Validation.Outcomes

/-!
# What keywords say about data

What a keyword says about a datum may depend on what the schemas in its value say. A keyword without
schemas in it decides about data if its value is of its form.

* `Keyword.Form`: the form of the value of a keyword.
* `Checker.KeywordHolds`: what a keyword says about a datum.
* `Checker.type_decides`, …, `Checker.format_decides`: the keywords about one datum.
-/

namespace WireShape

open Value (Fields IsJson HasPath Shown)

namespace Keyword

/-- The name of a keyword. -/
def name : Keyword → String
  | reference => "$ref"
  | type => "type"
  | enum => "enum"
  | const => "const"
  | minimum => "minimum"
  | maximum => "maximum"
  | exclusiveMinimum => "exclusiveMinimum"
  | exclusiveMaximum => "exclusiveMaximum"
  | multipleOf => "multipleOf"
  | minLength => "minLength"
  | maxLength => "maxLength"
  | minItems => "minItems"
  | maxItems => "maxItems"
  | minProperties => "minProperties"
  | maxProperties => "maxProperties"
  | uniqueItems => "uniqueItems"
  | pattern => "pattern"
  | format => "format"
  | required => "required"
  | properties => "properties"
  | additionalProperties => "additionalProperties"
  | items => "items"
  | anyOf => "anyOf"
  | oneOf => "oneOf"
  | allOf => "allOf"
  | not => "not"

theorem ofName?_name (kw : Keyword) : ofName? kw.name = some kw := by
  cases kw <;> rfl

theorem eq_name_of_ofName? {s : String} {kw : Keyword} (h : ofName? s = some kw) : s = kw.name := by
  unfold ofName? at h
  split at h <;> cases h <;> rfl

/-- The form that the value of a keyword has in the schemas considered here. What messages show of
it can be shown. -/
def Form (describe : Describe) : Keyword → Value → Prop
  | type, v => ∃ names, Assertion.listedTypes v = .ok names ∧
      ∀ name ∈ names, ∃ s test, name = .str s ∧ Assertion.typeTest? s = some test
  | enum, v => ∃ xs, v = .list xs ∧ ∀ x ∈ xs, x.Shown describe
  | minimum, v | maximum, v | minLength, v | maxLength, v | minItems, v | maxItems, v =>
    ∃ i, v = .int i
  | required, v => ∃ keys : List Atom, v = .list (keys.map .atom) ∧
      ∀ k ∈ keys, (Value.atom k).Shown describe
  | properties, v | items, v => v.isMap = true
  | not, v => v.isMap = true ∧ v.Shown describe
  | additionalProperties, v => v = .bool false ∨ v.isMap = true
  | pattern, v => ∃ p, Assertion.patternOf v = .ok p
  | format, v => ∃ s, v = .str s
  | uniqueItems, v => ∃ b, v = .bool b
  | oneOf, v => ∃ xs, v = .list xs ∧ ∀ s ∈ xs, s.isMap = true ∧ s.Shown describe
  | _, _ => False

end Keyword

/-- One member of a list has a property, and all others lack it. -/
def ExactlyOne {α : Type} (P : α → Prop) (xs : List α) : Prop :=
  ∃ before a after, xs = before ++ a :: after ∧ P a ∧ (∀ b ∈ before, ¬ P b) ∧ ∀ b ∈ after, ¬ P b

namespace Checker

variable (c : Checker)

/-- A schema finds nothing about a datum. -/
def Accepts (schema x : Value) : Prop := (c.schema schema .full x).violations = []

/-- What a keyword of a schema says about a datum. -/
def KeywordHolds (fields : Fields) (kw : Keyword) (v x : Value) : Prop :=
  match kw with
  | .type => ∃ names, Assertion.listedTypes v = .ok names ∧
      ∃ name ∈ names, Assertion.fitsType name x = .ok true
  | .enum => ∀ xs, v = .list xs → ∃ w ∈ xs, w.sameStrict x = true
  | .minimum => ∀ i a, v = .int i → x.number? = some a → a.compare? (.int i) ≠ some .lt
  | .maximum => ∀ i a, v = .int i → x.number? = some a → a.compare? (.int i) ≠ some .gt
  | .minLength => ∀ (i : Int) n, v = .int i → Assertion.textSize? x = some n → i ≤ n
  | .maxLength => ∀ (i : Int) n, v = .int i → Assertion.textSize? x = some n → n ≤ i
  | .minItems => ∀ (i : Int) n, v = .int i → Assertion.listSize? x = some n → i ≤ n
  | .maxItems => ∀ (i : Int) n, v = .int i → Assertion.listSize? x = some n → n ≤ i
  | .required => ∀ es identity, x = .map es identity → ∀ keys : List Atom,
      v = .list (keys.map .atom) → ∀ k ∈ keys, OrderedMap.contains es k = true
  | .properties => ∀ es identity, x = .map es identity → ∀ props identity',
      v = .map props identity' → ∀ p ∈ props, ∀ y, OrderedMap.get? es p.1 = some y → c.Accepts p.2 y
  | .additionalProperties => ∀ es identity, x = .map es identity → ∀ props identity',
      (OrderedMap.get? fields (.str "properties")).getD (.ofEntries []) = .map props identity' →
        ∀ e ∈ es, OrderedMap.contains props e.1 = true ∨ v.isMap = true ∧ c.Accepts v e.2
  | .items => ∀ xs, x = .list xs → ∀ y ∈ xs, c.Accepts v y
  | .not => ¬ c.Accepts v x
  | .pattern => ∀ p s, Assertion.patternOf v = .ok p → x = .str s → p.found s = true
  | .format => ∀ name s test, v = .str name → x = .str s → Format.check? name = some test →
      test s = true
  | .uniqueItems => ∀ xs, x = .list xs → v.truthy = true → Value.allDistinct xs = true
  | .oneOf => ∀ branches, v = .list branches → ExactlyOne (fun s => c.Accepts s x) branches
  | _ => True

end Checker

namespace Checker

variable {c : Checker} {x : Value} {p : Prop}

/-! ## Keywords about one datum -/

theorem refuse_ok {describe : Describe} (hx : x.Shown describe) {phrase : String} :
    ∃ message, Assertion.refuse describe x phrase = .ok (some message) := by
  obtain ⟨text, htext⟩ := hx
  unfold Assertion.refuse
  rw [htext]
  exact ⟨_, rfl⟩

/-- A keyword that gives no text where a property holds, and some text where it fails, decides. -/
theorem outcome_decides {kw : Keyword} {schema : Value} {refusal : Assertion.Refusal}
    (htypes : schema.NamesTypes) (hpass : p → refusal = .ok none)
    (hfail : ¬ p → ∃ message, refusal = .ok (some message)) :
    Outcome.Decides x (Site.outcome ⟨kw, schema, x⟩ refusal) p := by
  by_cases hp : p
  · have hvalid : Site.outcome ⟨kw, schema, x⟩ refusal = .valid := by
      unfold Site.outcome
      rw [hpass hp]
      rfl
    rw [hvalid]
    exact Outcome.decides_valid hp
  · obtain ⟨message, hmessage⟩ := hfail hp
    have hsingle : Site.outcome ⟨kw, schema, x⟩ refusal =
        .single (Site.violation ⟨kw, schema, x⟩ message []) := by
      unfold Site.outcome
      rw [hmessage]
      rfl
    rw [hsingle]
    exact Outcome.decides_single (.alone rfl htypes rfl) hp

section Keywords

variable {schema v : Value} {kw : Keyword} (htypes : schema.NamesTypes) (hx : x.IsJson)
include htypes hx

theorem type_decides (hform : Keyword.Form c.describe .type v) {fields : Fields} :
    Outcome.Decides x (Site.outcome ⟨kw, schema, x⟩ (Assertion.type c.describe v x))
      (c.KeywordHolds fields .type v x) := by
  obtain ⟨names, hlisted, hnames⟩ := hform
  have hany : ∃ b, names.anyM (fun name => Assertion.fitsType name x) = .ok b ∧
      (b = true ↔ ∃ name ∈ names, Assertion.fitsType name x = .ok true) := by
    clear hlisted
    induction names with
    | nil => exact ⟨false, rfl, by simp⟩
    | cons name names ih =>
      obtain ⟨b, hb, hiff⟩ := ih fun n hn => hnames n (List.mem_cons_of_mem _ hn)
      obtain ⟨s, test, rfl, htest⟩ := hnames name List.mem_cons_self
      have hfits : Assertion.fitsType (.str s) x = .ok (test x) := Assertion.fitsType_str htest
      rw [List.anyM_cons, hfits]
      cases htrue : test x with
      | true =>
        refine ⟨true, by simp [bind, Except.bind, pure, Except.pure], iff_of_true rfl ?_⟩
        exact ⟨_, List.mem_cons_self, by rw [hfits, htrue]⟩
      | false =>
        refine ⟨b, by simp [bind, Except.bind, hb], hiff.trans ?_⟩
        constructor
        · rintro ⟨name, hname, hfit⟩
          exact ⟨name, List.mem_cons_of_mem _ hname, hfit⟩
        · rintro ⟨name, hname, hfit⟩
          rcases List.mem_cons.mp hname with rfl | hmem
          · rw [hfits, htrue] at hfit
            cases hfit
          · exact ⟨name, hmem, hfit⟩
  obtain ⟨b, hb, hiff⟩ := hany
  have hholds : c.KeywordHolds fields .type v x ↔ b = true := by
    constructor
    · rintro ⟨names', hlisted', hfit⟩
      rw [hlisted] at hlisted'
      cases hlisted'
      exact hiff.mpr hfit
    · exact fun htrue => ⟨names, hlisted, hiff.mp htrue⟩
  refine outcome_decides htypes (fun hp => ?_) fun hp => ?_
  · unfold Assertion.type
    rw [hlisted]
    simp only [bind, Except.bind, hb, hholds.mp hp, ↓reduceIte]
    rfl
  · have hfalse : b = false := Bool.eq_false_iff.mpr fun htrue => hp (hholds.mpr htrue)
    have hshown : ∃ texts, Value.quotedItems c.describe names = .ok texts := by
      refine Value.quotedItems_ok fun name hname => ?_
      obtain ⟨s, _, rfl, _⟩ := hnames name hname
      exact ⟨_, rfl⟩
    obtain ⟨texts, htexts⟩ := hshown
    unfold Assertion.type
    rw [hlisted]
    simp only [bind, Except.bind, hb, hfalse, Bool.false_eq_true, ↓reduceIte, htexts]
    exact refuse_ok hx.shown

theorem enum_decides (hform : Keyword.Form c.describe .enum v) {fields : Fields} :
    Outcome.Decides x (Site.outcome ⟨kw, schema, x⟩ (Assertion.enum c.describe v x))
      (c.KeywordHolds fields .enum v x) := by
  obtain ⟨xs, rfl, hshown⟩ := hform
  have hholds : c.KeywordHolds fields .enum (.list xs) x ↔ (xs.any fun w => w.sameStrict x) = true := by
    rw [List.any_eq_true]
    constructor
    · exact fun hall => hall xs rfl
    · rintro hany ys hys
      cases hys
      exact hany
  refine outcome_decides htypes (fun hp => ?_) fun hp => ?_
  · unfold Assertion.enum
    simp only [Value.elements, Value.elements?, bind, Except.bind, hholds.mp hp, ↓reduceIte]
    rfl
  · have hfalse : (xs.any fun w => w.sameStrict x) = false :=
      Bool.eq_false_iff.mpr fun htrue => hp (hholds.mpr htrue)
    obtain ⟨text, htext⟩ := Value.shown_list hshown
    unfold Assertion.enum
    simp only [Value.elements, Value.elements?, bind, Except.bind, hfalse, Bool.false_eq_true,
      ↓reduceIte, htext]
    exact refuse_ok hx.shown

/-- A limit of a number is kept unless the order to it is the one that is refused. -/
theorem bound_decides {b : Assertion.Bound} {refused : Ordering} {i : Int}
    (hb : ∀ o, b.refuses o = true ↔ o = refused) :
    Outcome.Decides x (Site.outcome ⟨kw, schema, x⟩ (Assertion.bound c.describe b (.int i) x))
      (∀ a, x.number? = some a → a.compare? (.int i) ≠ some refused) := by
  cases hnumber : x.number? with
  | none =>
    refine outcome_decides htypes (fun _ => ?_) fun hp => ?_
    · unfold Assertion.bound Value.isNumber
      rw [hnumber]
      rfl
    · exact absurd (fun a ha => by cases ha) hp
  | some a =>
    have hnumberOf : Assertion.numberOf? x = some a := by
      cases x with
      | atom y =>
        cases y with
        | int => exact hnumber
        | float => exact hnumber
        | _ => cases hnumber
      | _ => cases hnumber
    have hcompare : Assertion.compareNumbers b.relation x (.int i) = .ok (a.compare? (.int i)) := by
      unfold Assertion.compareNumbers
      rw [hnumberOf]
      rfl
    have hany : (a.compare? (.int i)).any b.refuses = true ↔ a.compare? (.int i) = some refused := by
      cases a.compare? (.int i) with
      | none => simp
      | some o => simp [hb]
    refine outcome_decides htypes (fun hp => ?_) fun hp => ?_
    · have hfalse : (a.compare? (.int i)).any b.refuses = false :=
        Bool.eq_false_iff.mpr fun htrue => hp a rfl (hany.mp htrue)
      unfold Assertion.bound Value.isNumber
      rw [hnumber]
      simp only [Option.isSome_some, Bool.not_true, Bool.false_eq_true, ↓reduceIte, bind, Except.bind,
        hcompare, hfalse]
      rfl
    · have htrue : (a.compare? (.int i)).any b.refuses = true := by
        refine hany.mpr ?_
        by_contra hne
        refine hp fun a' ha' => ?_
        cases ha'
        exact hne
      unfold Assertion.bound Value.isNumber
      rw [hnumber]
      simp only [Option.isSome_some, Bool.not_true, Bool.false_eq_true, ↓reduceIte, bind, Except.bind,
        hcompare, htrue]
      exact refuse_ok hx.shown

/-- A limit of a size is kept unless the order to it is the one that is refused. -/
theorem sizeBound_decides {b : Assertion.SizeBound} {refused : Ordering} {i : Int}
    (hb : ∀ o, b.refuses o = true ↔ o = refused) :
    Outcome.Decides x (Site.outcome ⟨kw, schema, x⟩ (Assertion.sizeBound c.describe b (.int i) x))
      (∀ n : Nat, b.size? x = some n → compare (n : Int) i ≠ refused) := by
  cases hsize : b.size? x with
  | none =>
    refine outcome_decides htypes (fun _ => ?_) fun hp => ?_
    · unfold Assertion.sizeBound
      rw [hsize]
      rfl
    · exact absurd (fun a ha => by cases ha) hp
  | some n =>
    have hcompare : Assertion.compareNumbers b.relation (.int n) (.int i) =
        .ok (some (compare (n : Int) i)) := rfl
    refine outcome_decides htypes (fun hp => ?_) fun hp => ?_
    · have hfalse : b.refuses (compare (n : Int) i) = false :=
        Bool.eq_false_iff.mpr fun htrue => hp n rfl ((hb _).mp htrue)
      unfold Assertion.sizeBound
      simp only [hsize, bind, Except.bind, hcompare, Option.any_some, hfalse, Bool.false_eq_true,
        ↓reduceIte]
      rfl
    · have htrue : b.refuses (compare (n : Int) i) = true := by
        refine (hb _).mpr ?_
        by_contra hne
        refine hp fun n' hn' => ?_
        cases hn'
        exact hne
      unfold Assertion.sizeBound
      simp only [hsize, bind, Except.bind, hcompare, Option.any_some, htrue, ↓reduceIte]
      exact refuse_ok hx.shown

/-! ## Keywords about lists and texts -/

theorem unique_decides (hform : Keyword.Form c.describe .uniqueItems v) {fields : Fields} :
    Outcome.Decides x (Site.outcome ⟨kw, schema, x⟩ (Assertion.unique c.describe v x))
      (c.KeywordHolds fields .uniqueItems v x) := by
  obtain ⟨b, rfl⟩ := hform
  cases x with
  | list xs =>
    have hholds : c.KeywordHolds fields .uniqueItems (.bool b) (.list xs) ↔
        (b && !Value.allDistinct xs) = false := by
      rw [Bool.and_eq_false_imp, Bool.not_eq_false']
      constructor
      · exact fun hall => hall xs rfl
      · rintro hdistinct _ ⟨⟩
        exact hdistinct
    refine outcome_decides htypes (fun hp => ?_) fun hp => ?_
    · have hfalse : ((Value.bool b).truthy && !Value.allDistinct xs) = false := hholds.mp hp
      unfold Assertion.unique
      dsimp only
      rw [if_neg (by rw [hfalse]; exact Bool.false_ne_true)]
      rfl
    · have htrue : ((Value.bool b).truthy && !Value.allDistinct xs) = true :=
        Bool.not_eq_false _ ▸ fun hfalse => hp (hholds.mpr hfalse)
      unfold Assertion.unique
      dsimp only
      rw [if_pos htrue]
      exact refuse_ok hx.shown
  | _ => exact outcome_decides htypes (fun _ => rfl) fun hp => absurd (fun _ heq => by cases heq) hp

theorem pattern_decides (hform : Keyword.Form c.describe .pattern v) {fields : Fields} :
    Outcome.Decides x (Site.outcome ⟨kw, schema, x⟩ (Assertion.pattern c.describe v x))
      (c.KeywordHolds fields .pattern v x) := by
  obtain ⟨p, hpattern⟩ := hform
  cases hx with
  | str s =>
    have hholds : c.KeywordHolds fields .pattern v (.str s) ↔ p.found s = true := by
      constructor
      · exact fun hall => hall p s hpattern rfl
      · rintro hfound p' _ hp' ⟨⟩
        cases hpattern.symm.trans hp'
        exact hfound
    have hshown : v.Shown c.describe := by
      unfold Assertion.patternOf at hpattern
      split at hpattern
      · exact ⟨_, rfl⟩
      · cases hpattern
    refine outcome_decides htypes (fun hp => ?_) fun hp => ?_
    · unfold Assertion.pattern
      simp only [hpattern, bind, Except.bind, hholds.mp hp, ↓reduceIte]
      rfl
    · have hfalse : p.found s = false := Bool.eq_false_iff.mpr fun htrue => hp (hholds.mpr htrue)
      obtain ⟨text, htext⟩ := hshown
      unfold Assertion.pattern
      simp only [hpattern, bind, Except.bind, hfalse, Bool.false_eq_true, ↓reduceIte, htext]
      exact refuse_ok (IsJson.str s).shown
  | _ =>
    refine outcome_decides htypes (fun _ => rfl) fun hp => absurd ?_ hp
    intro _ _ _ heq
    cases heq

theorem format_decides (hform : Keyword.Form c.describe .format v) {fields : Fields} :
    Outcome.Decides x (Site.outcome ⟨kw, schema, x⟩ (Assertion.format c.describe v x))
      (c.KeywordHolds fields .format v x) := by
  obtain ⟨name, rfl⟩ := hform
  cases hx with
  | str s =>
    cases hcheck : Format.check? name with
    | none =>
      refine outcome_decides htypes (fun _ => ?_) fun hp => absurd ?_ hp
      · unfold Assertion.format
        simp only [Value.asKey, bind, Except.bind, hcheck]
        rfl
      · rintro _ _ test ⟨⟩ _ htest
        cases hcheck.symm.trans htest
    | some test =>
      have hholds : c.KeywordHolds fields .format (.str name) (.str s) ↔ test s = true := by
        constructor
        · exact fun hall => hall name s test rfl rfl hcheck
        · rintro htest _ _ test' ⟨⟩ ⟨⟩ htest'
          cases hcheck.symm.trans htest'
          exact htest
      refine outcome_decides htypes (fun hp => ?_) fun hp => ?_
      · unfold Assertion.format
        simp only [Value.asKey, bind, Except.bind, hcheck, hholds.mp hp, ↓reduceIte]
        rfl
      · have hfalse : test s = false := Bool.eq_false_iff.mpr fun htrue => hp (hholds.mpr htrue)
        unfold Assertion.format
        simp only [Value.asKey, bind, Except.bind, hcheck, hfalse, Bool.false_eq_true, ↓reduceIte,
          Value.quoted]
        exact refuse_ok (IsJson.str s).shown
  | _ =>
    refine outcome_decides htypes (fun _ => rfl) fun hp => absurd ?_ hp
    intro _ _ _ _ heq
    cases heq

end Keywords

end Checker

end WireShape
