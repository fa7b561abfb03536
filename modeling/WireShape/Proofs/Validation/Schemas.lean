import WireShape.Proofs.Validation.Composites

/-!
# What schemas say about data

A schema whose keywords have values of their form decides about data: a check ends without a fault,
and it finds nothing exactly where each keyword of the schema holds.

* `Checkable`: schemas whose keywords have values of their form, at every depth.
* `Checkable.decides`, `Checkable.accepts_iff`: the check of such a schema decides about data.
-/

namespace WireShape

open Value (Fields IsJson Shown)

/-- The schemas that stand in the value of a keyword. -/
inductive Keyword.Inner : Keyword → Value → Value → Prop
  | property {props : Fields} {identity : Option Nat} {p : Atom × Value} (hp : p ∈ props) :
      Inner .properties (.map props identity) p.2
  | additional {v : Value} (hmap : v.isMap = true) : Inner .additionalProperties v v
  | item {v : Value} : Inner .items v v
  | denied {v : Value} : Inner .not v v
  | branch {xs : List Value} {s : Value} (hs : s ∈ xs) : Inner .oneOf (.list xs) s

/-- Schemas whose keywords have values of their form, at every depth. -/
inductive Checkable (describe : Describe) : Value → Prop
  | intro {fields : Fields} {identity : Option Nat} (hseparate : OrderedMap.Separate fields)
      (htext : ∀ e ∈ fields, ∃ s, e.1 = .str s)
      (hform : ∀ kw v, OrderedMap.get? fields (.str (Keyword.name kw)) = some v →
        kw.Form describe v)
      (hinner : ∀ kw v u, OrderedMap.get? fields (.str (Keyword.name kw)) = some v → kw.Inner v u →
        Checkable describe u) : Checkable describe (.map fields identity)

namespace Checker

variable {c : Checker} {x : Value}

/-- The value of an entry of a schema with the checks of the schemas in it. -/
def partOf (v : Value) : Part := ⟨v, c.schema v, c.membersOf v, c.fieldsOf v⟩

theorem parts_eq {fields : Fields} : c.parts fields = fields.map fun e => (e.1, c.partOf e.2) := by
  induction fields with
  | nil => rfl
  | cons e fields ih =>
    rw [parts, ih]
    rfl

/-- A keyword with a value of its form decides, if the schemas in the value do. -/
theorem keyword_decides {kw : Keyword} {fields : Fields} {identity : Option Nat} {v : Value}
    {extent : Extent} (htypes : (Value.map fields identity).NamesTypes) (hx : x.IsJson)
    (hform : kw.Form c.describe v)
    (hproperties : ∀ u, OrderedMap.get? fields (.str "properties") = some u → u.isMap = true)
    (hinner : ∀ u, kw.Inner v u → ∀ extent y, y.IsJson →
      Outcome.Decides y (c.schema u extent y) (c.Accepts u y)) :
    Outcome.Decides x (c.keyword kw (.map fields identity) (c.partOf v) extent x)
      (c.KeywordHolds fields kw v x) := by
  -- A limit holds of a datum exactly where the order to it is not the refused one.
  have hleast : ∀ {size? : Value → Option Nat} {i : Int}, v = .int i →
      ((∀ n : Nat, size? x = some n → compare (n : Int) i ≠ .lt) ↔
        ∀ (j : Int) n, v = .int j → size? x = some n → j ≤ n) := by
    rintro size? i rfl
    constructor
    · rintro hall j n heq hn
      cases heq
      exact compare_ge_iff_ge.mp (hall n hn)
    · exact fun hall n hn => compare_ge_iff_ge.mpr (hall i n rfl hn)
  have hmost : ∀ {size? : Value → Option Nat} {i : Int}, v = .int i →
      ((∀ n : Nat, size? x = some n → compare (n : Int) i ≠ .gt) ↔
        ∀ (j : Int) n, v = .int j → size? x = some n → n ≤ j) := by
    rintro size? i rfl
    constructor
    · rintro hall j n heq hn
      cases heq
      exact compare_le_iff_le.mp (hall n hn)
    · exact fun hall n hn => compare_le_iff_le.mpr (hall i n rfl hn)
  have hnumber : ∀ {refused : Ordering} {i : Int}, v = .int i →
      ((∀ a, x.number? = some a → a.compare? (.int i) ≠ some refused) ↔
        ∀ j a, v = .int j → x.number? = some a → a.compare? (.int j) ≠ some refused) := by
    rintro refused i rfl
    constructor
    · rintro hall j a heq ha
      cases heq
      exact hall a ha
    · exact fun hall a ha => hall i a rfl ha
  cases kw with
  | type => exact type_decides htypes hx hform
  | enum => exact enum_decides htypes hx hform
  | minimum =>
    obtain ⟨i, hi⟩ := hform
    subst hi
    exact (bound_decides htypes hx (by decide)).iff (hnumber rfl)
  | maximum =>
    obtain ⟨i, hi⟩ := hform
    subst hi
    exact (bound_decides htypes hx (by decide)).iff (hnumber rfl)
  | minLength =>
    obtain ⟨i, hi⟩ := hform
    subst hi
    exact (sizeBound_decides htypes hx (by decide)).iff (hleast rfl)
  | maxLength =>
    obtain ⟨i, hi⟩ := hform
    subst hi
    exact (sizeBound_decides htypes hx (by decide)).iff (hmost rfl)
  | minItems =>
    obtain ⟨i, hi⟩ := hform
    subst hi
    exact (sizeBound_decides htypes hx (by decide)).iff (hleast rfl)
  | maxItems =>
    obtain ⟨i, hi⟩ := hform
    subst hi
    exact (sizeBound_decides htypes hx (by decide)).iff (hmost rfl)
  | required => exact required_decides htypes hx hform
  | properties =>
    cases v with
    | map props identity' =>
      exact properties_decides hx fun p hp => hinner p.2 (.property hp) extent
    | _ => cases hform
  | additionalProperties =>
    have hdescribed :
        (((Value.map fields identity).field? "properties").getD (.ofEntries [])).isMap = true := by
      change ((OrderedMap.get? fields (.str "properties")).getD (.ofEntries [])).isMap = true
      cases hget : OrderedMap.get? fields (.str "properties") with
      | none => rfl
      | some u => exact hproperties u hget
    rcases hform with rfl | hmap
    · exact additionalProperties_decides htypes hx rfl hdescribed rfl
    · exact additionalSchema_decides hx rfl hmap rfl hdescribed rfl
        (hinner v (.additional hmap) extent)
  | items => exact items_decides hx hform rfl rfl (hinner v .item extent)
  | not => exact not_decides htypes hx hform rfl rfl (hinner v .denied .first x hx)
  | oneOf =>
    refine oneOf_decides htypes hx hform rfl ?_
    rintro xs rfl s hs extent
    exact hinner s (.branch hs) extent x hx
  | pattern => exact pattern_decides htypes hx hform
  | format => exact format_decides htypes hx hform
  | uniqueItems => exact unique_decides htypes hx hform
  | _ => cases hform

end Checker

open Checker in
/-- The check of a schema whose keywords have values of their form decides what the keywords say. -/
theorem Checkable.decides_keywords {c : Checker} {schema x : Value}
    (h : Checkable c.describe schema) (hx : x.IsJson) (extent : Extent) :
    ∀ fields identity, schema = .map fields identity →
      Outcome.Decides x (c.schema schema extent x) (∀ kw v,
        OrderedMap.get? fields (.str (Keyword.name kw)) = some v → c.KeywordHolds fields kw v x) := by
  induction h generalizing x extent with
  | @intro fields identity hseparate htext hform hinner ih =>
    rintro _ _ ⟨rfl, rfl⟩
    -- A schema in the value of a keyword decides whether it accepts.
    have haccepts : ∀ {v : Value}, Checkable c.describe v →
        (∀ {x : Value}, x.IsJson → ∀ extent fields identity, v = .map fields identity →
          Outcome.Decides x (c.schema v extent x) (∀ kw w,
            OrderedMap.get? fields (.str (Keyword.name kw)) = some w →
              c.KeywordHolds fields kw w x)) →
        ∀ extent y, y.IsJson → Outcome.Decides y (c.schema v extent y) (c.Accepts v y) := by
      intro v hv ih extent y hy
      cases hv with
      | intro => exact (ih hy extent _ _ rfl).iff (ih hy .full _ _ rfl).empty.symm
    have htypes : (Value.map fields identity).NamesTypes := fun v hv => hform .type v hv
    have hmap : ∀ u, OrderedMap.get? fields (.str "properties") = some u → u.isMap = true :=
      fun u hu => hform .properties u hu
    have hentry : ∀ e ∈ fields, Outcome.Decides x
        (c.entry (.map fields identity) e.1 (c.partOf e.2) extent x)
        (∀ kw : Keyword, e.1 = .str kw.name → c.KeywordHolds fields kw e.2 x) := by
      intro e he
      obtain ⟨s, hs⟩ := htext e he
      have hget : OrderedMap.get? fields (.str s) = some e.2 :=
        hseparate.get? he (by rw [hs]; exact Atom.beq_str_iff.mpr rfl)
      unfold entry
      rw [hs]
      dsimp only
      cases hname : Keyword.ofName? s with
      | none =>
        refine Outcome.decides_valid fun kw heq => ?_
        rw [Atom.str.inj heq, Keyword.ofName?_name] at hname
        cases hname
      | some kw =>
        obtain rfl := Keyword.eq_name_of_ofName? hname
        refine (keyword_decides htypes hx (hform kw _ hget) hmap fun u hu =>
          haccepts (hinner kw _ u hget hu) (ih kw _ u hget hu)).iff ?_
        · constructor
          · rintro hholds kw' heq
            have hsome := (Keyword.ofName?_name kw').symm.trans
              ((congrArg Keyword.ofName? (Atom.str.inj heq).symm).trans hname)
            cases hsome
            exact hholds
          · exact fun hall => hall kw rfl
    rw [Checker.schema, parts_eq, Outcome.all_map]
    refine (Outcome.Decides.all hentry).iff ?_
    constructor
    · rintro hall kw v hget
      obtain ⟨k, hmem, hk⟩ := OrderedMap.mem_of_get? hget
      exact hall (k, v) hmem kw (Atom.beq_str_iff.mp hk)
    · rintro hall e he kw hkey
      exact hall kw e.2 (hseparate.get? he (by rw [hkey]; exact Atom.beq_str_iff.mpr rfl))

/-- What a schema whose keywords have values of their form accepts. -/
theorem Checkable.accepts_iff {c : Checker} {fields : Fields} {identity : Option Nat} {x : Value}
    (h : Checkable c.describe (.map fields identity)) (hx : x.IsJson) :
    c.Accepts (.map fields identity) x ↔ ∀ kw v,
      OrderedMap.get? fields (.str (Keyword.name kw)) = some v → c.KeywordHolds fields kw v x :=
  (h.decides_keywords hx .full fields identity rfl).empty

/-- The check of a schema whose keywords have values of their form decides. -/
theorem Checkable.decides {c : Checker} {schema x : Value} (h : Checkable c.describe schema)
    (hx : x.IsJson) (extent : Extent) :
    Outcome.Decides x (c.schema schema extent x) (c.Accepts schema x) := by
  have hmap : ∃ fields identity, schema = .map fields identity := by
    cases h with
    | intro => exact ⟨_, _, rfl⟩
  obtain ⟨fields, identity, rfl⟩ := hmap
  exact (h.decides_keywords hx extent fields identity rfl).iff (h.accepts_iff hx).symm

end WireShape
