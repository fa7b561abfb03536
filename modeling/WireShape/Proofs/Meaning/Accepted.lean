import WireShape.Proofs.Meaning.Checked

/-!
# What the checked form accepts

Each keyword of the checked form is a part of the meaning of the node: the type is its kind, the
values are those that it names and denies, the limits are its limits, and what is said about items
and properties is what its parts admit. Null passes all but the type and the values, and both admit
it where it is named.

* `Checker.Keeps`: a datum keeps what a keyword says, if the keyword is there.
* `Heap.Plain.accepts_iff`: the checked form accepts what the node admits.
-/

namespace WireShape

open Value (Fields IsJson)
open NullTypes (Tidy admittingNullIf)

/-- A datum keeps what a keyword says, if the keyword is there. -/
def Checker.Keeps (c : Checker) (fields : Fields) (kw : Keyword) (x : Value) : Prop :=
  ∀ v, OrderedMap.get? fields (.str kw.name) = some v → c.KeywordHolds fields kw v x

section Keeps

variable {c : Checker} {fields : Fields} {kw : Keyword} {x v : Value}

theorem Checker.keeps_of_none (h : OrderedMap.get? fields (.str kw.name) = none) :
    c.Keeps fields kw x := by
  intro v hv
  rw [h] at hv
  cases hv

theorem Checker.keeps_iff_of_some (h : OrderedMap.get? fields (.str kw.name) = some v) :
    c.Keeps fields kw x ↔ c.KeywordHolds fields kw v x := by
  constructor
  · exact fun hkeeps => hkeeps v h
  · intro hholds w hw
    rw [h] at hw
    cases hw
    exact hholds

end Keeps

section Keywords

variable {h : Heap} {s : Schema} {item : Option Value} {properties : Option Fields} {marked : Bool}
  {fields : Fields} {c : Checker} {x : Value} (hs : h.Plain s)
  (hget : ∀ kw : Keyword, OrderedMap.get? fields (.str kw.name) =
    (h.keyword? (h.view s) item properties kw).map (admittingNullIf marked kw.name))

/-! ## Types and values -/

include hs hget in
theorem keeps_type_iff (hx : x.IsJson) :
    c.Keeps fields .type x ↔ (h.view s).fits x = true ∨ marked = true ∧ x = .null := by
  obtain ⟨test, htest, hfits⟩ := hs.dataType
  have hname : Assertion.fitsType (.str (h.view s).dataType) x = .ok ((h.view s).fits x) := by
    rw [Assertion.fitsType_str htest, hfits x hx]
  have hnull : Assertion.fitsType (.str "null") x = .ok x.isNull := rfl
  refine (Checker.keeps_iff_of_some (hget .type)).trans ?_
  cases marked with
  | false =>
    constructor
    · rintro ⟨names, hlisted, name, hmem, hfit⟩
      cases hlisted
      obtain rfl := List.mem_singleton.mp hmem
      rw [hname] at hfit
      exact .inl (Except.ok.inj hfit)
    · rintro (hfit | ⟨hmarked, _⟩)
      · exact ⟨_, rfl, _, List.mem_singleton_self _, by rw [hname, hfit]⟩
      · cases hmarked
  | true =>
    constructor
    · rintro ⟨names, hlisted, name, hmem, hfit⟩
      cases hlisted
      rcases List.mem_cons.mp hmem with rfl | hmem
      · rw [hname] at hfit
        exact .inl (Except.ok.inj hfit)
      · obtain rfl := List.mem_singleton.mp hmem
        rw [hnull] at hfit
        have hisNull : x.isNull = true := Except.ok.inj hfit
        unfold Value.isNull at hisNull
        split at hisNull
        · exact .inr ⟨rfl, rfl⟩
        · cases hisNull
    · rintro (hfit | ⟨_, rfl⟩)
      · exact ⟨_, rfl, .str (h.view s).dataType, List.mem_cons_self, by rw [hname, hfit]⟩
      · exact ⟨_, rfl, .str "null", List.mem_cons_of_mem _ (List.mem_singleton_self _), hnull⟩

include hget in
theorem keeps_enum_iff (hx : x.IsJson) : c.Keeps fields .enum x ↔ ((h.view s).isLimited = true →
    ((h.view s).named.any fun w => w.sameStrict x) = true ∨ marked = true ∧ x = .null) := by
  have hfield := hget .enum
  unfold Heap.keyword? at hfield
  dsimp only at hfield
  cases hlimited : (h.view s).isLimited with
  | false =>
    rw [hlimited, if_neg Bool.false_ne_true] at hfield
    exact iff_of_true (Checker.keeps_of_none hfield) fun heq => by cases heq
  | true =>
    rw [hlimited, if_pos rfl] at hfield
    refine (Checker.keeps_iff_of_some hfield).trans ?_
    rw [List.any_eq_true]
    cases marked with
    | false =>
      constructor
      · exact fun hall _ => .inl (hall _ rfl)
      · rintro hany xs heq
        cases heq
        rcases hany rfl with hany | ⟨hmarked, _⟩
        · exact hany
        · cases hmarked
    | true =>
      constructor
      · rintro hall -
        obtain ⟨w, hw, hsame⟩ := hall _ rfl
        rcases List.mem_append.mp hw with hw | hw
        · exact .inl ⟨w, hw, hsame⟩
        · obtain rfl := List.mem_singleton.mp hw
          exact .inr ⟨rfl, (null_sameStrict_iff hx).mp hsame⟩
      · rintro hany xs heq
        cases heq
        rcases hany rfl with ⟨w, hw, hsame⟩ | ⟨_, hnull⟩
        · exact ⟨w, List.mem_append_left _ hw, hsame⟩
        · refine ⟨.null, List.mem_append_right _ (List.mem_singleton_self _), ?_⟩
          exact (null_sameStrict_iff hx).mpr hnull

include hs hget in
theorem keeps_not_iff (hx : x.IsJson) : c.Keeps fields .not x ↔
    ((h.view s).invalids.any fun w => w.sameStrict x) = false := by
  have hfield := (hget .not).trans (map_admittingNullIf (by decide) (by decide))
  unfold Heap.keyword? at hfield
  dsimp only at hfield
  cases hempty : (h.view s).invalids.isEmpty with
  | true =>
    rw [hempty, if_pos rfl] at hfield
    refine iff_of_true (Checker.keeps_of_none hfield) ?_
    rw [List.isEmpty_iff.mp hempty]
    rfl
  | false =>
    rw [hempty, if_neg Bool.false_ne_true] at hfield
    refine (Checker.keeps_iff_of_some hfield).trans ?_
    have hdenied : c.Accepts (.ofFields [("enum", .list (h.view s).invalids)]) x ↔
        ∃ w ∈ (h.view s).invalids, w.sameStrict x = true :=
      accepts_denied (fun w hw => (hs.lists.invalids w hw).shown) hx
    rw [Bool.eq_false_iff, ne_eq, List.any_eq_true, ← hdenied]
    exact Iff.rfl

/-! ## Limits -/

include hget in
/-- A datum keeps a limit that the schema states for one kind of nodes. -/
theorem keeps_limit_iff {kw : Keyword} {kind : String} {limit? : Option Int} (htype : kw ≠ .type)
    (henum : kw ≠ .enum) (hkeyword : h.keyword? (h.view s) item properties kw =
      if (h.view s).kind = kind then limit?.map .int else none) : c.Keeps fields kw x ↔
    ((h.view s).kind = kind → ∀ i, limit? = some i → c.KeywordHolds fields kw (.int i) x) := by
  have hfield := (hget kw).trans (map_admittingNullIf htype henum)
  rw [hkeyword] at hfield
  by_cases hkind : (h.view s).kind = kind
  · rw [if_pos hkind] at hfield
    cases limit? with
    | none => exact iff_of_true (Checker.keeps_of_none hfield) fun _ _ heq => by cases heq
    | some i =>
      refine (Checker.keeps_iff_of_some hfield).trans ⟨?_, fun hall => hall hkind i rfl⟩
      rintro hholds - _ ⟨⟩
      exact hholds
  · rw [if_neg hkind] at hfield
    exact iff_of_true (Checker.keeps_of_none hfield) fun heq => absurd heq hkind

theorem kind_of_fits {n : Node} (hfits : n.fits x = true) :
    n.kind = "string" ∧ x.isText = true ∨ n.kind = "number" ∧ Assertion.isInteger x = true ∨
      n.kind = "boolean" ∧ x.isBool = true ∨ n.kind = "array" ∧ Assertion.isList x = true ∨
        n.kind = "object" ∧ x.isMap = true := by
  unfold Node.fits at hfits
  split at hfits
  · rename_i hkind
    exact .inl ⟨hkind, hfits⟩
  · rename_i hkind
    exact .inr (.inl ⟨hkind, hfits⟩)
  · rename_i hkind
    exact .inr (.inr (.inl ⟨hkind, hfits⟩))
  · rename_i hkind
    exact .inr (.inr (.inr (.inl ⟨hkind, hfits⟩)))
  · rename_i hkind
    exact .inr (.inr (.inr (.inr ⟨hkind, hfits⟩)))
  · cases hfits

theorem all_limit_iff {limit? : Option Int} {p : Int → Bool} :
    limit?.all p = true ↔ ∀ i, limit? = some i → p i = true := by
  cases limit? with
  | none => exact iff_of_true rfl fun _ heq => by cases heq
  | some i =>
    constructor
    · rintro hp _ ⟨⟩
      exact hp
    · exact fun hall => hall i rfl

/-- Whole numbers are in order with all integers. -/
theorem compare?_of_isInteger {a : Number} (hinteger : Assertion.isInteger x = true)
    (ha : x.number? = some a) (i : Int) : ∃ o, a.compare? (.int i) = some o ∧
      (Number.int i).compare? a = some o.swap := by
  unfold Assertion.isInteger at hinteger
  split at hinteger
  · rename_i j
    cases ha
    exact ⟨compare j i, rfl, congrArg some Std.OrientedCmp.eq_swap⟩
  · rename_i y
    cases ha
    cases y with
    | finite => exact ⟨_, rfl, rfl⟩
    | _ => cases hinteger
  · cases hinteger

theorem allowsNumber_iff {n : Node} {a : Number} (hinteger : Assertion.isInteger x = true)
    (ha : x.number? = some a) : n.allowsNumber a = true ↔
      (∀ i, n.leastNumber? = some i → a.compare? (.int i) ≠ some .lt) ∧
        ∀ i, n.greatestNumber? = some i → a.compare? (.int i) ≠ some .gt := by
  unfold Node.allowsNumber
  rw [Bool.and_eq_true, all_limit_iff, all_limit_iff]
  refine and_congr (forall₂_congr fun i _ => ?_) (forall₂_congr fun i _ => ?_)
  · obtain ⟨o, ho, hswap⟩ := compare?_of_isInteger hinteger ha i
    unfold Number.le
    rw [ho, hswap]
    cases o <;> decide
  · obtain ⟨o, ho, _⟩ := compare?_of_isInteger hinteger ha i
    unfold Number.le
    rw [ho]
    cases o <;> decide

theorem allowsSize_iff {n : Node} {size : Nat} : n.allowsSize size = true ↔
    (∀ i, n.leastSize? = some i → i ≤ size) ∧ ∀ i, n.greatestSize? = some i → (size : Int) ≤ i := by
  unfold Node.allowsSize
  rw [Bool.and_eq_true, all_limit_iff, all_limit_iff]
  simp only [decide_eq_true_eq]

include hget in
/-- The limits that the schema states are those of the node. -/
theorem keeps_limits_iff (hfits : (h.view s).fits x = true) :
    ((c.Keeps fields .minimum x ∧ c.Keeps fields .maximum x) ∧
      (c.Keeps fields .minLength x ∧ c.Keeps fields .maxLength x) ∧
        c.Keeps fields .minItems x ∧ c.Keeps fields .maxItems x) ↔
      (h.view s).keepsLimits x = true := by
  have hmin : c.Keeps fields .minimum x ↔ ((h.view s).kind = "number" → ∀ i,
      (h.view s).leastNumber? = some i → c.KeywordHolds fields .minimum (.int i) x) :=
    keeps_limit_iff hget (by decide) (by decide) rfl
  have hmax : c.Keeps fields .maximum x ↔ ((h.view s).kind = "number" → ∀ i,
      (h.view s).greatestNumber? = some i → c.KeywordHolds fields .maximum (.int i) x) :=
    keeps_limit_iff hget (by decide) (by decide) rfl
  have hminLength : c.Keeps fields .minLength x ↔ ((h.view s).kind = "string" → ∀ i,
      (h.view s).leastSize? = some i → c.KeywordHolds fields .minLength (.int i) x) :=
    keeps_limit_iff hget (by decide) (by decide) rfl
  have hmaxLength : c.Keeps fields .maxLength x ↔ ((h.view s).kind = "string" → ∀ i,
      (h.view s).greatestSize? = some i → c.KeywordHolds fields .maxLength (.int i) x) :=
    keeps_limit_iff hget (by decide) (by decide) rfl
  have hminItems : c.Keeps fields .minItems x ↔ ((h.view s).kind = "array" → ∀ i,
      (h.view s).leastSize? = some i → c.KeywordHolds fields .minItems (.int i) x) :=
    keeps_limit_iff hget (by decide) (by decide) rfl
  have hmaxItems : c.Keeps fields .maxItems x ↔ ((h.view s).kind = "array" → ∀ i,
      (h.view s).greatestSize? = some i → c.KeywordHolds fields .maxItems (.int i) x) :=
    keeps_limit_iff hget (by decide) (by decide) rfl
  rw [hmin, hmax, hminLength, hmaxLength, hminItems, hmaxItems]
  obtain ⟨hkind, hx⟩ | ⟨hkind, hx⟩ | ⟨hkind, hx⟩ | ⟨hkind, hx⟩ | ⟨hkind, hx⟩ := kind_of_fits hfits
  · cases x with
    | atom a =>
      cases a with
      | str t =>
        have hlimits : (h.view s).keepsLimits (.str t) = (h.view s).allowsSize t.length := rfl
        rw [hlimits, allowsSize_iff]
        simp [hkind, Checker.KeywordHolds, Assertion.textSize?]
      | _ => cases hx
    | _ => cases hx
  · cases hnumber : x.number? with
    | none => 
      unfold Assertion.isInteger at hx
      split at hx
      · cases hnumber
      · cases hnumber
      · cases hx
    | some a =>
      have hlimits : (h.view s).keepsLimits x = (h.view s).allowsNumber a := by
        cases x with
        | atom b => cases b <;> first | cases hnumber; rfl | cases hnumber
        | _ => cases hnumber
      rw [hlimits, allowsNumber_iff hx hnumber]
      simp [hkind, Checker.KeywordHolds, hnumber]
  · cases x with
    | atom a =>
      cases a with
      | bool b => simp [hkind, Node.keepsLimits, Value.number?]
      | _ => cases hx
    | _ => cases hx
  · cases x with
    | list xs =>
      have hlimits : (h.view s).keepsLimits (.list xs) = (h.view s).allowsSize xs.length := rfl
      rw [hlimits, allowsSize_iff]
      simp [hkind, Checker.KeywordHolds, Assertion.listSize?]
    | _ => cases hx
  · cases x with
    | map es identity => simp [hkind, Node.keepsLimits, Value.number?]
    | _ => cases hx

/-! ## Parts -/

section Parts

variable (hparts : h.PartsAccepting (h.view s) item properties)

include hget hparts in
/-- The schema of the elements accepts what the part of an array admits. -/
theorem keeps_items_iff {xs : List Value} (hx : (Value.list xs).IsJson) :
    c.Keeps fields .items (.list xs) ↔
      ((h.view s).items.all fun t => h.admitsItems t xs) = true := by
  have hfield : OrderedMap.get? fields (.str "items") = item :=
    (hget .items).trans (map_admittingNullIf (by decide) (by decide))
  have hitem := hparts.item
  cases item with
  | none =>
    refine iff_of_true (Checker.keeps_of_none hfield) ?_
    rw [List.forall₂_nil_right_iff.mp hitem]
    rfl
  | some v =>
    obtain ⟨t, ts, haccepting, hnil, hitems⟩ := List.forall₂_cons_right_iff.mp hitem
    rw [hitems, List.forall₂_nil_right_iff.mp hnil, List.all_cons, List.all_nil, Bool.and_true,
      Heap.admitsItems_iff]
    refine (Checker.keeps_iff_of_some hfield).trans ⟨fun hall y hy => ?_, ?_⟩
    · exact (haccepting.accepts c y (hx.item hy)).mp (hall xs rfl y hy)
    · rintro hall ys ⟨⟩ y hy
      exact (haccepting.accepts c y (hx.item hy)).mpr (hall y hy)

variable {es : List (Atom × Value)} {identity : Option Nat}

include hget in
theorem keeps_properties_iff : c.Keeps fields .properties (.map es identity) ↔
    ∀ p ∈ properties.getD [], ∀ y, OrderedMap.get? es p.1 = some y → c.Accepts p.2 y := by
  have hfield : OrderedMap.get? fields (.str "properties") = properties.map .ofEntries :=
    (hget .properties).trans (map_admittingNullIf (by decide) (by decide))
  cases properties with
  | none => exact iff_of_true (Checker.keeps_of_none hfield) fun _ hp => by cases hp
  | some ps =>
    refine (Checker.keeps_iff_of_some hfield).trans ⟨fun hall => hall es identity rfl ps none rfl, ?_⟩
    rintro hall _ _ ⟨⟩ _ _ ⟨⟩
    exact hall

include hget in
theorem keeps_required_iff : c.Keeps fields .required (.map es identity) ↔
    ((h.view s).children.all fun e => !(h.view e.2).isRequired || OrderedMap.contains es e.1) =
      true := by
  have hfield := (hget .required).trans (map_admittingNullIf (by decide) (by decide))
  have hkeys : ((h.view s).children.all fun e => !(h.view e.2).isRequired ||
      OrderedMap.contains es e.1) = true ↔
        ∀ k ∈ (h.view s).requiredKeys h, OrderedMap.contains es k = true := by
    simp [Node.requiredKeys, List.all_eq_true, or_iff_not_imp_left]
  rw [hkeys]
  unfold Heap.keyword? at hfield
  dsimp only at hfield
  cases hempty : ((h.view s).requiredKeys h).isEmpty with
  | true =>
    rw [hempty, if_pos rfl] at hfield
    refine iff_of_true (Checker.keeps_of_none hfield) ?_
    rw [List.isEmpty_iff.mp hempty]
    exact fun _ hk => by cases hk
  | false =>
    rw [hempty, if_neg Bool.false_ne_true] at hfield
    refine (Checker.keeps_iff_of_some hfield).trans ⟨fun hall => hall es identity rfl _ rfl, ?_⟩
    rintro hall _ _ ⟨⟩ keys heq k hk
    have hmem : Value.atom k ∈ ((h.view s).requiredKeys h).map .atom := by
      rw [Value.list.inj heq]
      exact List.mem_map_of_mem hk
    obtain ⟨k', hk', heq'⟩ := List.mem_map.mp hmem
    cases heq'
    exact hall k hk'

include hget in
theorem keeps_additional_iff (hkind : (h.view s).kind = "object") :
    c.Keeps fields .additionalProperties (.map es identity) ↔ ((h.view s).isClosed = true →
      ∀ e ∈ es, OrderedMap.contains (properties.getD []) e.1 = true) := by
  have hfield := (hget .additionalProperties).trans (map_admittingNullIf (by decide) (by decide))
  have hproperties : (OrderedMap.get? fields (.str "properties")).getD (.ofEntries []) =
      .ofEntries (properties.getD []) := by
    have hfound : OrderedMap.get? fields (.str "properties") = properties.map .ofEntries :=
      (hget .properties).trans (map_admittingNullIf (by decide) (by decide))
    rw [hfound]
    cases properties <;> rfl
  unfold Heap.keyword? at hfield
  dsimp only at hfield
  by_cases hclosed : (h.view s).isClosed = true
  · rw [if_pos ⟨hkind, hclosed⟩] at hfield
    refine (Checker.keeps_iff_of_some hfield).trans ⟨fun hall _ e he => ?_, ?_⟩
    · rcases hall es identity rfl _ none hproperties e he with hcontains | ⟨hmap, _⟩
      · exact hcontains
      · cases hmap
    · rintro hall _ _ ⟨⟩ ps _ heq e he
      rw [hproperties] at heq
      cases heq
      exact .inl (hall hclosed e he)
  · rw [if_neg fun hboth => hclosed hboth.2] at hfield
    exact iff_of_true (Checker.keeps_of_none hfield) fun heq => absurd heq hclosed

include hs hget hparts in
/-- The schemas of the properties accept what the children of an object admit, and other keys are
refused unless they are allowed. -/
theorem keeps_entries_iff (hkind : (h.view s).kind = "object")
    (hx : (Value.map es identity).IsJson) :
    (c.Keeps fields .properties (.map es identity) ∧
      c.Keeps fields .additionalProperties (.map es identity)) ↔
        h.admitsEntries (h.view s) es = true := by
  obtain ⟨hseparate, hchildren⟩ := hs.children
  have hjson : OrderedMap.Separate es := by
    cases hx with
    | map _ hes _ => exact hes
  -- The properties are those of the children that may be there, under the same keys.
  have hchild : ∀ {k : String} {p : Atom × Value}, p ∈ properties.getD [] → p.1 = .str k →
      ∃ t, OrderedMap.get? (h.view s).children (.str k) = some t ∧
        (h.view t).isForbidden = false ∧ h.Accepting t p.2 := by
    intro k p hp hk
    obtain ⟨e, he, hkey, haccepting⟩ := forall₂_right hparts.properties hp
    obtain ⟨hmem, hallowed⟩ := List.mem_filter.mp he
    refine ⟨e.2, hseparate.get? hmem ?_, ?_, haccepting⟩
    · rw [← hkey, hk]
      exact Atom.beq_str_iff.mpr rfl
    · rwa [Bool.not_eq_true'] at hallowed
  have hproperty : ∀ {k : String} {t : Schema},
      OrderedMap.get? (h.view s).children (.str k) = some t → (h.view t).isForbidden = false →
        ∃ p ∈ properties.getD [], p.1 = .str k ∧ h.Accepting t p.2 := by
    intro k t ht hallowed
    obtain ⟨k', hmem, hk'⟩ := OrderedMap.mem_of_get? ht
    have hfilter : (k', t) ∈ (h.view s).children.filter fun e => !(h.view e.2).isForbidden :=
      List.mem_filter.mpr ⟨hmem, by rw [hallowed]; rfl⟩
    obtain ⟨p, hp, hkey, haccepting⟩ := forall₂_left hparts.properties hfilter
    exact ⟨p, hp, hkey.trans (Atom.beq_str_iff.mp hk'), haccepting⟩
  rw [keeps_properties_iff hget, keeps_additional_iff hget hkind, Heap.admitsEntries_iff]
  constructor
  · rintro ⟨haccepts, hclosed⟩ ⟨key, v⟩ he
    obtain ⟨hv, k, hk⟩ := hx.entry he
    have hkey : key = .str k := hk
    subst hkey
    -- A key that is described is that of a child that may be there.
    have hdescribed : (h.view s).isClosed = true → ∃ t,
        OrderedMap.get? (h.view s).children (.str k) = some t ∧ (h.view t).isForbidden = false := by
      intro hisClosed
      obtain ⟨p, hp, hkey⟩ := OrderedMap.contains_iff.mp (hclosed hisClosed _ he)
      obtain ⟨t, ht, hallowed, _⟩ := hchild hp (Atom.beq_str_iff.mp hkey)
      exact ⟨t, ht, hallowed⟩
    refine ⟨fun t ht => ?_, fun hnone => ?_⟩
    · have hallowed : (h.view t).isForbidden = false := by
        refine Bool.eq_false_iff.mpr fun hforbidden => ?_
        obtain ⟨k', hmem, hk'⟩ := OrderedMap.mem_of_get? ht
        obtain ⟨t', ht', hallowed⟩ := hdescribed ((hchildren _ hmem).2.2 hforbidden)
        have hsame := ht.symm.trans ht'
        cases hsame
        rw [hforbidden] at hallowed
        cases hallowed
      obtain ⟨p, hp, hpk, haccepting⟩ := hproperty ht hallowed
      have hget' : OrderedMap.get? es p.1 = some v :=
        hjson.get? he (by rw [hpk]; exact Atom.beq_str_iff.mpr rfl)
      exact ⟨hallowed, (haccepting.accepts c v hv).mp (haccepts p hp v hget')⟩
    · refine Bool.eq_false_iff.mpr fun hisClosed => ?_
      obtain ⟨t, ht, _⟩ := hdescribed hisClosed
      have hsame := hnone.symm.trans ht
      cases hsame
  · intro hall
    refine ⟨fun p hp y hy => ?_, fun hisClosed e he => ?_⟩
    · obtain ⟨hmem, k, hk⟩ := hx.mem_of_get? hy
      obtain ⟨t, ht, _, haccepting⟩ := hchild hp hk
      rw [hk] at hmem
      exact (haccepting.accepts c y (hx.entry hmem).1).mpr (((hall _ hmem).1 t ht).2)
    · obtain ⟨key, v⟩ := e
      obtain ⟨_, k, hk⟩ := hx.entry he
      have hkey : key = .str k := hk
      subst hkey
      obtain ⟨hsome, hnone⟩ := hall _ he
      cases hfound : OrderedMap.get? (h.view s).children (.str k) with
      | none =>
        have hopen := hnone hfound
        rw [hisClosed] at hopen
        cases hopen
      | some t =>
        obtain ⟨p, hp, hpk, _⟩ := hproperty hfound (hsome t hfound).1
        exact OrderedMap.contains_iff.mpr ⟨p, hp, Atom.beq_str_iff.mpr hpk⟩

end Parts

/-! ## All keywords together -/

/-- The keywords about a datum by itself. -/
structure Checker.KeepsOuter (c : Checker) (fields : Fields) (x : Value) : Prop where
  type : c.Keeps fields .type x
  enum : c.Keeps fields .enum x
  not : c.Keeps fields .not x
  numbers : c.Keeps fields .minimum x ∧ c.Keeps fields .maximum x
  lengths : c.Keeps fields .minLength x ∧ c.Keeps fields .maxLength x
  items : c.Keeps fields .minItems x ∧ c.Keeps fields .maxItems x

/-- The keywords about what is in a datum. -/
structure Checker.KeepsInner (c : Checker) (fields : Fields) (x : Value) : Prop where
  items : c.Keeps fields .items x
  entries : c.Keeps fields .properties x ∧ c.Keeps fields .additionalProperties x
  required : c.Keeps fields .required x

include hget in
/-- The schema of a plain node has no other keywords. -/
theorem keeps_iff : (∀ kw, c.Keeps fields kw x) ↔ c.KeepsOuter fields x ∧ c.KeepsInner fields x := by
  constructor
  · exact fun hall => ⟨⟨hall _, hall _, hall _, ⟨hall _, hall _⟩, ⟨hall _, hall _⟩, hall _, hall _⟩,
      ⟨hall _, ⟨hall _, hall _⟩, hall _⟩⟩
  · rintro ⟨houter, hinner⟩ kw
    cases kw with
    | type => exact houter.type
    | enum => exact houter.enum
    | not => exact houter.not
    | minimum => exact houter.numbers.1
    | maximum => exact houter.numbers.2
    | minLength => exact houter.lengths.1
    | maxLength => exact houter.lengths.2
    | minItems => exact houter.items.1
    | maxItems => exact houter.items.2
    | items => exact hinner.items
    | properties => exact hinner.entries.1
    | additionalProperties => exact hinner.entries.2
    | required => exact hinner.required
    | _ => exact Checker.keeps_of_none (hget _)

include hs hget in
theorem keepsOuter_iff (hx : x.IsJson) (hnull : x ≠ .null) :
    c.KeepsOuter fields x ↔ (h.view s).admitsOuter x = true := by
  have htype := keeps_type_iff (c := c) hs hget hx
  have henum := keeps_enum_iff (c := c) hget hx
  have hnot := keeps_not_iff (c := c) hs hget hx
  unfold Node.admitsOuter
  simp only [Bool.and_eq_true, Bool.not_eq_true']
  constructor
  · intro houter
    have hfits : (h.view s).fits x = true := (htype.mp houter.type).resolve_right fun hboth =>
      hnull hboth.2
    have hlimits := (keeps_limits_iff hget hfits).mp ⟨houter.numbers, houter.lengths, houter.items⟩
    refine ⟨⟨⟨hfits, hlimits⟩, ?_⟩, hnot.mp houter.not⟩
    cases hlimited : (h.view s).isLimited with
    | false => rfl
    | true => exact (henum.mp houter.enum hlimited).resolve_right fun hboth => hnull hboth.2
  · rintro ⟨⟨⟨hfits, hlimits⟩, hvalues⟩, hdenied⟩
    obtain ⟨hnumbers, hlengths, hitems⟩ := (keeps_limits_iff (c := c) hget hfits).mpr hlimits
    refine ⟨htype.mpr (.inl hfits), henum.mpr fun hlimited => .inl ?_, hnot.mpr hdenied, hnumbers,
      hlengths, hitems⟩
    rw [hlimited] at hvalues
    exact hvalues

include hs hget in
theorem keeps_null_iff : (∀ kw, c.Keeps fields kw .null) ↔ marked = true := by
  have hfits : (h.view s).fits .null = false := by
    refine Bool.eq_false_iff.mpr fun hfits => ?_
    obtain ⟨_, hx⟩ | ⟨_, hx⟩ | ⟨_, hx⟩ | ⟨_, hx⟩ | ⟨_, hx⟩ := kind_of_fits hfits <;> cases hx
  have hdenied : ((h.view s).invalids.any fun w => w.sameStrict .null) = false := by
    refine Bool.eq_false_iff.mpr fun hany => ?_
    obtain ⟨w, hw, hsame⟩ := List.any_eq_true.mp hany
    rw [(hs.lists.invalids w hw).not_null.1] at hsame
    cases hsame
  rw [keeps_iff hget]
  constructor
  · rintro ⟨houter, _⟩
    rcases (keeps_type_iff hs hget .null).mp houter.type with hfits' | ⟨hmarked, _⟩
    · rw [hfits] at hfits'
      cases hfits'
    · exact hmarked
  · intro hmarked
    refine ⟨⟨(keeps_type_iff hs hget .null).mpr (.inr ⟨hmarked, rfl⟩),
      (keeps_enum_iff hget .null).mpr fun _ => .inr ⟨hmarked, rfl⟩,
      (keeps_not_iff hs hget .null).mpr hdenied, ⟨?_, ?_⟩, ⟨?_, ?_⟩, ⟨?_, ?_⟩⟩, ⟨?_, ⟨?_, ?_⟩, ?_⟩⟩
    all_goals intro v _
    · exact fun _ _ _ ha => by cases ha
    · exact fun _ _ _ ha => by cases ha
    · exact fun _ _ _ hn => by cases hn
    · exact fun _ _ _ hn => by cases hn
    · exact fun _ _ _ hn => by cases hn
    · exact fun _ _ _ hn => by cases hn
    · exact fun _ heq => by cases heq
    · exact fun _ _ heq => by cases heq
    · exact fun _ _ heq => by cases heq
    · exact fun _ _ heq => by cases heq

/-- A datum that is no mapping keeps all that is said about entries. -/
theorem keepsInner_iff_items (hmap : ∀ es identity, x ≠ .map es identity) :
    c.KeepsInner fields x ↔ c.Keeps fields .items x := by
  constructor
  · exact fun hinner => hinner.items
  · intro hitems
    refine ⟨hitems, ⟨?_, ?_⟩, ?_⟩
    · exact fun _ _ es identity heq => absurd heq (hmap es identity)
    · exact fun _ _ es identity heq => absurd heq (hmap es identity)
    · exact fun _ _ es identity heq => absurd heq (hmap es identity)

include hs hget in
/-- The checked form of the schema of a plain node accepts what the node admits. -/
theorem Heap.Plain.accepts_iff (hparts : h.PartsAccepting (h.view s) item properties)
    (htidy : Tidy fields) (hmarked : marked = Value.null.isIn (h.view s).valids) (hx : x.IsJson) :
    c.Accepts (.ofEntries fields) x ↔ h.admits s x = true := by
  have hchecks : Checkable c.describe (.map fields none) := hs.checkable hparts hget htidy
  have hkeeps : c.Accepts (.ofEntries fields) x ↔ ∀ kw, c.Keeps fields kw x :=
    hchecks.accepts_iff hx
  rw [hkeeps]
  have hatom : ∀ a : Atom, (Value.atom a).IsJson → a ≠ .null →
      ((∀ kw, c.Keeps fields kw (.atom a)) ↔ h.admits s (.atom a) = true) := by
    intro a ha hnull
    rw [keeps_iff hget, Heap.admits_of_atom hnull, keepsOuter_iff hs hget ha (by simpa using hnull),
      keepsInner_iff_items (by simp)]
    exact and_iff_left fun _ _ _ heq => by cases heq
  cases hx with
  | null =>
    have hadmits : h.admits s .null = (h.view s).valids.any Value.isNull := by rw [Heap.admits]
    rw [keeps_null_iff hs hget, hadmits, hmarked, isIn_valids hs.lists]
  | bool b => exact hatom _ (.bool b) (by simp)
  | int i => exact hatom _ (.int i) (by simp)
  | float y => exact hatom _ (.float y) (by simp)
  | str t => exact hatom _ (.str t) (by simp)
  | @list xs hxs =>
    have hjson : (Value.list xs).IsJson := .list hxs
    rw [keeps_iff hget, Heap.admits, Bool.and_eq_true,
      keepsOuter_iff hs hget hjson (by simp)]
    refine and_congr_right fun _ => ?_
    rw [← keeps_items_iff hget hparts hjson, keepsInner_iff_items (by simp)]
  | @map es identity hkeys hseparate hes =>
    have hjson : (Value.map es identity).IsJson := .map hkeys hseparate hes
    rw [keeps_iff hget, Heap.admits, Bool.and_eq_true, Bool.and_eq_true, and_assoc,
      keepsOuter_iff hs hget hjson (by simp)]
    refine and_congr_right fun houter => ?_
    have hkind : (h.view s).kind = "object" := by
      unfold Node.admitsOuter at houter
      simp only [Bool.and_eq_true] at houter
      obtain ⟨_, hx⟩ | ⟨_, hx⟩ | ⟨_, hx⟩ | ⟨_, hx⟩ | ⟨hkind, _⟩ := kind_of_fits houter.1.1.1
      · cases hx
      · cases hx
      · cases hx
      · cases hx
      · exact hkind
    rw [← keeps_entries_iff hs hget hparts hkind hjson, ← keeps_required_iff hget]
    constructor
    · exact fun hinner => ⟨hinner.required, hinner.entries⟩
    · rintro ⟨hrequired, hentries⟩
      refine ⟨?_, hentries, hrequired⟩
      exact fun _ _ _ heq => by cases heq

/-- A schema that says what a plain node says, and whose parts do, means what the node means. -/
theorem Heap.Plain.means {marked : Bool} {compiled : Fields} {item' : Option Value}
    {properties' : Option Fields} {identity : Option Nat} (hs : h.Plain s)
    (hfields : h.Describes (h.view s) item properties marked compiled)
    (hmarked : marked = Value.null.isIn (h.view s).valids)
    (hitem : Option.Rel (fun v w => NullTypes.expand v = .ok w) item item')
    (hproperties : Option.Rel (fun ps qs => NullTypes.expand (.ofEntries ps) = .ok (.ofEntries qs))
      properties properties') (hparts : h.PartsAccepting (h.view s) item' properties') :
    h.Means s (.map compiled identity) := by
  obtain ⟨fields, hfields', htidy, hget⟩ := hfields.checked hs.lists hitem hproperties
  exact ⟨fields, hfields', hs.checkable hparts hget htidy,
    fun _ _ hx => hs.accepts_iff hget hparts htidy hmarked hx⟩

end Keywords

end WireShape
