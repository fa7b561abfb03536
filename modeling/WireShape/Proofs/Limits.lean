import WireShape.Proofs.Compile.Branches
import WireShape.Proofs.Formed.NullBranches
import WireShape.Proofs.Guard
import WireShape.Proofs.KeyOrder
import WireShape.Proofs.Withheld

/-!
# Limits of the numbers that are let through

What a guard stores under a key of an object is what was given there, a text replaced by the number
that it denotes, and it is checked against the schema that is published for the key. So a number that
is stored keeps the limits of its node. One datum escapes them: what is not a number is neither less
nor greater than a limit, so it is let through wherever no integer is asked for
(`Guard.accepted_nan`).

* `Heap.AsksNumber`: objects with a number under a key.
* `Node.Contains`: the numbers between the limits of a node.
* `Node.Reads`: the number that a given value denotes.
* `Guard.accepted_number`: what is stored is the number that was given, and within the limits.
-/

namespace WireShape

open Value (Fields)
open NullTypes (expand)

/-! ## Limits -/

/-- A number that keeps the limits of a node, as far as these are integers. -/
structure Node.Contains (n : Node) (y : Number) : Prop where
  least : ∀ a, n.minimum? = some (.int a) → (Number.int a).le y = true
  greatest : ∀ b, n.maximum? = some (.int b) → y.le (.int b) = true

namespace Number

variable {y : Number} {a : Int}

theorem compare?_int : (int a).compare? y = (y.compare? (.int a)).map Ordering.swap := by
  cases y with
  | int b => exact congrArg some Std.OrientedCmp.eq_swap
  | float x => rfl

/-- Only what is not a number has no place beside an integer. -/
theorem exists_compare?_int (hy : ¬ y.IsNan) : ∃ o, y.compare? (.int a) = some o := by
  rcases y with b | p | negative | ⟨negative, m, e⟩
  · exact ⟨_, rfl⟩
  · exact absurd trivial hy
  · exact ⟨_, rfl⟩
  · exact ⟨_, rfl⟩

theorem int_le_of_not_less (hy : ¬ y.IsNan) (h : (y.compare? (.int a)).any (· == .lt) = false) :
    (int a).le y = true := by
  obtain ⟨o, ho⟩ := exists_compare?_int (a := a) hy
  unfold le
  rw [compare?_int, ho]
  rw [ho] at h
  cases o <;> first | rfl | cases h

theorem le_int_of_not_greater (hy : ¬ y.IsNan) (h : (y.compare? (.int a)).any (· == .gt) = false) :
    y.le (int a) = true := by
  obtain ⟨o, ho⟩ := exists_compare?_int (a := a) hy
  unfold le
  rw [ho]
  rw [ho] at h
  cases o <;> first | rfl | cases h

end Number

/-- A number that is not refused for a limit does not stand to it as refused ones do. -/
theorem Assertion.bound_eq_none {describe : Describe} {b : Bound} {limit x : Value} {y m : Number}
    (h : bound describe b limit x = .ok none) (hx : x.number? = some y)
    (hlimit : numberOf? limit = some m) : (y.compare? m).any b.refuses = false := by
  have hnumber : x.isNumber = true := by
    unfold Value.isNumber
    rw [hx]
    rfl
  have hsame : numberOf? x = some y := by
    unfold Value.number? at hx
    split at hx <;> first | exact hx | cases hx
  unfold bound compareNumbers at h
  rw [hnumber, hsame, hlimit] at h
  simp only [Bool.not_true, Bool.false_eq_true, if_false, bind, Except.bind] at h
  cases hrefuses : (y.compare? m).any b.refuses with
  | false => rfl
  | true =>
    rw [hrefuses, if_pos rfl] at h
    obtain ⟨_, _, hrefuse⟩ := bind_eq_ok_iff.mp h
    exact absurd hrefuse refuse_ne_none

/-! ## What a number node says -/

/-- The type that a number node asks for. -/
def Node.numericType (n : Node) : String := if n.hasRule "integer" then "integer" else "number"

/-- Fields that say the type and the limits of a number node, and nothing in place of them. -/
structure Value.Fields.Limits (fields : Fields) (n : Node) : Prop where
  type : OrderedMap.get? fields (.str "type") = some (.str n.numericType)
  least : ∀ a, n.minimum? = some (.int a) →
    OrderedMap.get? fields (.str "minimum") = some (.int a)
  greatest : ∀ b, n.maximum? = some (.int b) →
    OrderedMap.get? fields (.str "maximum") = some (.int b)
  unmarked : OrderedMap.get? fields (.str "nullable") = none
  plain : OrderedMap.get? fields (.str "$ref") = none

namespace Scalar

variable {n : Node} {name other : String} {limit? : Option Value} {fields after : Fields}

theorem limitKeyword_of_ne (h : limitKeyword n name limit? fields = .ok after)
    (hne : name ≠ other) :
    OrderedMap.get? after (.str other) = OrderedMap.get? fields (.str other) := by
  cases limit? with
  | none =>
    cases h
    rfl
  | some limit =>
    obtain ⟨_, _, hpure⟩ := bind_eq_ok_iff.mp h
    cases hpure
    exact get?_set_of_ne hne

theorem limitKeyword_int {a : Int} (h : limitKeyword n name limit? fields = .ok after)
    (ha : limit? = some (.int a)) : OrderedMap.get? after (.str name) = some (.int a) := by
  cases ha
  cases h
  exact get?_set_self

/-- The type of a number stands, whatever its sign says besides. -/
theorem signKeyword_type :
    OrderedMap.get? (signKeyword n (numberType n)) (.str "type") = some (.str n.numericType) := by
  have htype : OrderedMap.get? (numberType n) (.str "type") = some (.str n.numericType) := by
    unfold numberType Node.numericType
    cases n.hasRule "integer" <;> rfl
  unfold signKeyword
  split
  · exact (get?_set_of_ne (by decide)).trans htype
  · exact (get?_set_of_ne (by decide)).trans htype
  · exact htype

/-- The keywords of a number are its type and its limits, and what is said of its values. -/
theorem numberKeywords_limits (h : numberKeywords n = .ok fields) : fields.Limits n := by
  have hamong : fields.Among scalarKeywords := @keywords_among n fields .number h
  rw [numberKeywords_eq] at h
  obtain ⟨lower, hlower, hrest⟩ := bind_eq_ok_iff.mp h
  obtain ⟨upper, hupper, hfields⟩ := bind_eq_ok_iff.mp hrest
  cases hfields
  have hown : ∀ {name : String}, name ∉ ["enum", "not"] →
      OrderedMap.get? (upper.merge (n.valueKeywords Value.isNumber)) (.str name) =
        OrderedMap.get? upper (.str name) := fun hname =>
    OrderedMap.get?_update_of_none (valueKeywords_among.get?_eq_none hname)
  refine ⟨?_, fun a ha => ?_, fun b hb => ?_, hamong.get?_eq_none (by decide),
    hamong.get?_eq_none (by decide)⟩
  · rw [hown (by decide), limitKeyword_of_ne hupper (by decide),
      limitKeyword_of_ne hlower (by decide), signKeyword_type]
  · rw [hown (by decide), limitKeyword_of_ne hupper (by decide), limitKeyword_int hlower ha]
  · rw [hown (by decide), limitKeyword_int hupper hb]

end Scalar

/-- A number without metadata that is admitted and does not list null. -/
structure Node.IsNumber (n : Node) : Prop where
  kind : n.kind = "number"
  bare : n.metadata = []
  admitted : n.isForbidden = false
  total : Value.null.isIn n.valids = false

/-- What such a number compiles to says its type and its limits, whatever conditions it has. -/
theorem Walked.limits {h : Heap} {t : Schema} {overriding : Bool} {ctx after : Context}
    {r : Compiled} (ht : (h.view t).IsNumber) (hrun : Walked h t overriding ctx r after) :
    ∃ fields : Fields, r = some (.ofEntries fields) ∧ fields.Limits (h.view t) := by
  obtain ⟨kind, outcomes, whenOutcomes, _, hassembles, rfl⟩ :=
    hrun.assembled ht.bare ht.admitted
  obtain rfl : kind = .scalar .number := by
    have hkind := hassembles.of_kind
    rw [Node.kind?, Node.baseKind, Node.metaValue_of_bare ht.bare, ht.kind] at hkind
    exact (Option.some.inj hkind).symm
  obtain ⟨own, both, hown, rfl, hboth⟩ :=
    Node.assemble_parts (Node.plain_of_bare ht.bare).2.2.2 hassembles.assembled
  have hlimits := Scalar.numberKeywords_limits hown
  have hget : ∀ {name : String}, name ∉ commonKeywords → name ∉ ["anyOf", "oneOf"] →
      OrderedMap.get? (annotate (h.view t) both) (.str name) =
        OrderedMap.get? own (.str name) := fun hcommon hbranch =>
    (get?_annotate hcommon).trans (hboth _ hbranch)
  refine ⟨_, rfl, ?_, fun a ha => ?_, fun b hb => ?_, ?_, ?_⟩
  · rw [hget (by decide) (by decide), hlimits.type]
  · rw [hget (by decide) (by decide), hlimits.least a ha]
  · rw [hget (by decide) (by decide), hlimits.greatest b hb]
  · rw [get?_annotate_mark, ht.total, hboth _ (by decide), hlimits.unmarked]
    rfl
  · rw [hget (by decide) (by decide), hlimits.plain]

/-! ## What passes -/

section Checks

variable {c : Checker} {n : Node} {fields : Fields} {identity identity' i : Option Nat}
  {extent : Extent} {w x : Value} {k : Atom}

/-- A datum that passes a schema passes each of its keywords. -/
theorem Checker.passes_keyword {kw : Keyword} {v : Value}
    (hpasses : (c.schema (.map fields identity) extent x).Passes)
    (hv : OrderedMap.get? fields (.str kw.name) = some v) :
    (c.keyword kw (.map fields identity) (c.partOf v) extent x).Passes := by
  by_contra hnot
  refine Outcome.not_refuses_iff.mpr hpasses (refuses_of_entry hv ?_)
  unfold entry
  dsimp only
  rw [Keyword.ofName?_name]
  by_contra hrefuses
  exact hnot (Outcome.not_refuses_iff.mp hrefuses)

/-- What stands under a described key of a mapping that passes, passes the checked form of the schema
of the key. -/
theorem Checker.passes_described {described child es : Fields}
    (hpasses : (c.schema w extent (.map es identity')).Passes)
    (hw : expand (.map fields identity) = .ok w)
    (hdescribed : OrderedMap.get? fields (.str "properties") = some (.ofEntries described))
    (hk : k.IsNoMark) (hchild : OrderedMap.get? described k = some (.map child i))
    (hx : OrderedMap.get? es k = some x) :
    ∃ u, expand (.map child i) = .ok u ∧ (c.schema u extent x).Passes := by
  have hmark : (Atom.str "nullable" == k) = false :=
    Bool.eq_false_iff.mpr fun hsame => hk (Atom.str_beq_iff.mp hsame)
  obtain ⟨after, rfl, hshown⟩ := NullTypes.expand_map hw
  obtain ⟨p, hp, hfound⟩ := hshown.found _ _ hdescribed rfl
  obtain ⟨shown, rfl, hinner⟩ := NullTypes.expand_map hp
  obtain ⟨u, hu, hget⟩ := hinner.found k _ hchild hmark
  obtain ⟨_, rfl, _⟩ := NullTypes.expand_map hu
  have hproperties :
      (properties (c.fieldsOf (.ofEntries shown)) extent (.map es identity')).Passes :=
    @passes_keyword c _ _ extent _ .properties _ hpasses (hfound (.inl rfl))
  obtain ⟨j, hmem, hj⟩ := OrderedMap.mem_of_get? (hget (.inl rfl))
  refine ⟨_, hu, passes_properties_iff.mp hproperties _ hmem x ?_⟩
  rw [OrderedMap.get?_congr hj]
  exact hx

/-- A datum that is of a single listed type passes the test of the type. -/
theorem Assertion.test_of_type {describe : Describe} {s : String} {test : Value → Bool}
    (h : Assertion.type describe (.str s) x = .ok none) (htest : typeTest? s = some test) :
    test x = true := by
  obtain ⟨names, hnames, hany⟩ := type_eq_none h
  cases hnames
  have hfits : fitsType (.str s) x = .ok (test x) := by
    unfold fitsType
    dsimp only
    rw [htest]
  simp only [List.anyM, hfits, bind, Except.bind] at hany
  cases hx : test x with
  | true => rfl
  | false =>
    rw [hx] at hany
    cases hany

/-- What is of the type of a number node is a number; where an integer is asked for, it is a number in
value. -/
theorem Node.number_of_type {describe : Describe}
    (h : Assertion.type describe (.str n.numericType) x = .ok none) :
    ∃ y, x.number? = some y ∧ (n.hasRule "integer" = true → ¬ y.IsNan) := by
  unfold Node.numericType at h
  cases hinteger : n.hasRule "integer" with
  | false =>
    rw [hinteger] at h
    have hnumber : x.isNumber = true := Assertion.test_of_type h rfl
    obtain ⟨y, hy⟩ := Option.isSome_iff_exists.mp hnumber
    exact ⟨y, hy, fun hyes => absurd hyes Bool.false_ne_true⟩
  | true =>
    rw [hinteger] at h
    have hwhole : Assertion.isInteger x = true := Assertion.test_of_type h rfl
    unfold Assertion.isInteger at hwhole
    split at hwhole
    · exact ⟨_, rfl, fun _ => id⟩
    · rename_i z
      cases z with
      | nan => cases hwhole
      | infinite => cases hwhole
      | finite => exact ⟨_, rfl, fun _ => id⟩
    · cases hwhole

/-- What passes the checked form of a number node is a number within its limits, or it is not a
number in value and no integer is asked for. -/
theorem Value.Fields.Limits.contains (hfields : fields.Limits n)
    (hw : expand (.map fields identity) = .ok w) (hpasses : (c.schema w extent x).Passes) :
    ∃ y, x.number? = some y ∧
      (n.Contains y ∨ y.IsNan ∧ n.hasRule "integer" = false) := by
  have hkeys : ∀ e ∈ fields, e.1.IsNoMark := by
    intro e he heq
    have hmark : OrderedMap.contains fields (.str "nullable") = true :=
      OrderedMap.contains_iff.mpr ⟨e, he, Atom.beq_str_iff.mpr heq⟩
    rw [OrderedMap.contains, hfields.unmarked] at hmark
    cases hmark
  obtain ⟨after, rfl, hall⟩ := NullTypes.expand_of_noMark hkeys hw
  have hkeyword : ∀ (kw : Keyword) a, OrderedMap.get? fields (.str kw.name) = some (.atom a) →
      (c.keyword kw (.ofEntries after) (c.partOf (.atom a)) extent x).Passes := by
    intro kw a ha
    rcases NullTypes.rel_cases (hall.get? (.str kw.name)) with ⟨hnone, _⟩ | ⟨_, _, hsome, hget, hv⟩
    · cases hnone.symm.trans ha
    · cases hsome.symm.trans ha
      cases hv
      exact Checker.passes_keyword hpasses hget
  have htype := Checker.passes_outcome_iff.mp (hkeyword .type _ hfields.type)
  obtain ⟨y, hy, hreal⟩ := Node.number_of_type htype
  refine ⟨y, hy, ?_⟩
  by_cases hnan : y.IsNan
  · refine .inr ⟨hnan, Bool.eq_false_iff.mpr fun hinteger => hreal hinteger hnan⟩
  · refine .inl ⟨fun a ha => ?_, fun b hb => ?_⟩
    · have hbound := Checker.passes_outcome_iff.mp (hkeyword .minimum _ (hfields.least a ha))
      exact Number.int_le_of_not_less hnan (Assertion.bound_eq_none hbound hy rfl)
    · have hbound := Checker.passes_outcome_iff.mp (hkeyword .maximum _ (hfields.greatest b hb))
      exact Number.le_int_of_not_greater hnan (Assertion.bound_eq_none hbound hy rfl)

end Checks

/-! ## Objects with a number -/

/-- An object in whose place nothing stands, with a plain class or none, and with a number under a
key other than the mark. -/
structure Heap.AsksNumber (h : Heap) (s : Schema) (k : Atom) (t : Schema) : Prop
    extends h.Direct s where
  plainClass : (h.view s).HasPlainClass
  unmarked : k.IsNoMark
  child : ∃ e ∈ (h.view s).children, (e.1 == k) = true ∧ e.2 = t
  number : (h.view t).IsNumber

variable {h : Heap} {s t : Schema} {k : Atom} {v : Value} {allowUnknown : Bool}

/-- The object describes the key by the type and the limits of the number. -/
theorem Heap.AsksNumber.shown {outcomes : List Compiled} (hs : h.AsksNumber s k t)
    (hall : List.Forall₂ (fun e r => ∃ ctx after, Walked h e.2 false ctx r after)
      (h.view s).children outcomes) :
    ∃ fields : Fields, fields.Limits (h.view t) ∧
      OrderedMap.get? (shownChildren (h.view s).children outcomes) k =
        some (.ofEntries fields) := by
  obtain ⟨⟨j, _⟩, hmem, hj, rfl⟩ := hs.child
  obtain ⟨r, ⟨_, _, hrun⟩, hshown⟩ := mem_shownChildren hall hmem
  obtain ⟨fields, rfl, hlimits⟩ := hrun.limits hs.number
  exact ⟨fields, hlimits, (shownChildren_separate hs.keys).get? (hshown _ rfl) hj⟩

namespace Container

variable {c : Container} {es : Fields} {identity : Option Nat} {x : Value} {y : Number}

/-- What passes a reference to a class passes the checked form of the definition of the class. -/
theorem passes_definition {bucket name : String} {definition : Fields} {i : Option Nat}
    (hbucket : Text.IsPlain bucket = true) (hname : Text.IsPlain name = true)
    (hdocument : expand (.ofEntries (Fields.set [(.str "$ref", .str (bucketPath bucket ++ name))]
      "components" c.components.toValue)) = .ok c.document)
    (hfound : c.components.find? (.str bucket) (.str name) = some (.map definition i))
    (hpasses : (c.validator.check x).Passes) : ∃ (checker : Checker) (u : Value),
      expand (.map definition i) = .ok u ∧ (checker.schema u .full x).Passes := by
  obtain ⟨checked, hchecked, hshown⟩ := NullTypes.expand_map hdocument
  obtain ⟨w, hw, hget⟩ := hshown.found (.str "$ref") _ rfl rfl
  cases hw
  unfold Validator.check at hpasses
  rw [show c.validator.document = _ from hchecked] at hpasses
  have hfollow :=
    @Checker.passes_keyword _ _ _ .full _ .reference _ hpasses (hget (.inr ⟨rfl, rfl⟩))
  change (Checker.follow _ (.str (bucketPath bucket ++ name)) .full _).Passes at hfollow
  cases hdepth : Validator.depthBound c.validator x with
  | zero =>
    rw [hdepth] at hfollow
    exact absurd hfollow Outcome.not_passes_failed
  | succ depth =>
    rw [hdepth] at hfollow
    obtain ⟨target, htarget, hfollow⟩ := Outcome.passes_ofStep_iff.mp hfollow
    rw [show c.validator.document = _ from hchecked] at htarget
    have hdefinition := hshown.target hbucket hname rfl hfound htarget
    obtain ⟨_, rfl, -⟩ := NullTypes.expand_map hdefinition
    exact ⟨_, _, hdefinition, hfollow⟩

/-- What a mapping that passes the container of an object with a plain class or none has under a
described key, passes the checked form of what a child compiles to. -/
theorem passes_shown (hv : rootSchema v = .ok s) (hc : (compile h v allowUnknown).1 = .ok c)
    (hs : h.Direct s) (hplain : (h.view s).HasPlainClass) :
    ∃ outcomes, List.Forall₂ (fun e r => ∃ ctx after, Walked h e.2 false ctx r after)
        (h.view s).children outcomes ∧
      ∀ (k : Atom) (child es : Fields) i identity x, k.IsNoMark →
        OrderedMap.get? (shownChildren (h.view s).children outcomes) k = some (.map child i) →
          (c.validator.check (.map es identity)).Passes → OrderedMap.get? es k = some x →
            ∃ (checker : Checker) (u : Value), expand (.map child i) = .ok u ∧
              (checker.schema u .full x).Passes := by
  obtain ⟨r, after, hrun, hmade⟩ := made_of_walk hv hc
  obtain ⟨fields, outcomes, hall, hdescribed, -, hcases⟩ := hs.walked hrun
  refine ⟨outcomes, hall, fun k child es i identity x hk hchild hpasses hx => ?_⟩
  rcases hcases with rfl | ⟨bucket, name, -, hclass, rfl, hfound⟩
  · obtain ⟨-, hschema, own, hspread, hdocument⟩ := hmade _ rfl
    have hown : OrderedMap.get? own (.str "properties") =
        OrderedMap.get? fields (.str "properties") := by
      rw [hschema] at hspread
      cases allowUnknown with
      | false =>
        cases hspread
        rfl
      | true =>
        cases hspread
        exact OrderedMap.get?_erase_of_ne (by decide)
    exact ⟨_, Checker.passes_described hpasses hdocument
      ((get?_set_of_ne (by decide)).trans (hown.trans hdescribed)) hk hchild hx⟩
  · obtain ⟨hbucket, hname⟩ : Text.IsPlain bucket = true ∧ Text.IsPlain name = true := by
      rcases hplain with hnone | ⟨_, _, hsome, hbucket, hname⟩
      · cases hnone.symm.trans hclass
      · cases hsome.symm.trans hclass
        exact ⟨hbucket, hname⟩
    obtain ⟨hcomponents, hschema, own, hspread, hdocument⟩ := hmade _ rfl
    have hreference : c.schema = reference bucket name := by
      rw [hschema]
      cases allowUnknown <;> rfl
    rw [hreference] at hspread
    cases hspread
    rw [← hcomponents] at hfound
    obtain ⟨checker, u, hu, hfollow⟩ := passes_definition hbucket hname hdocument hfound hpasses
    exact ⟨checker, Checker.passes_described hfollow hu hdescribed hk hchild hx⟩

/-- What passes under the key of a number is a number within its limits, or it is not a number in
value and no integer is asked for. -/
theorem contains_of_error (hs : h.AsksNumber s k t) (hv : rootSchema v = .ok s)
    (hc : (compile h v allowUnknown).1 = .ok c) (hvalid : c.error (.map es identity) = .ok none)
    (hx : OrderedMap.get? es k = some x) :
    ∃ y, x.number? = some y ∧
      ((h.view t).Contains y ∨ y.IsNan ∧ (h.view t).hasRule "integer" = false) := by
  obtain ⟨outcomes, hall, hshown⟩ := passes_shown hv hc hs.toDirect hs.plainClass
  obtain ⟨fields, hlimits, hget⟩ := hs.shown hall
  obtain ⟨checker, u, hu, hpasses⟩ :=
    hshown k fields es _ identity x hs.unmarked hget (Validator.error_eq_none_iff.mp hvalid) hx
  exact hlimits.contains hu hpasses

end Container

/-! ## What is given -/

/-- A number is given as it is, or by a text that denotes a number of the type that is asked for. -/
inductive Node.Reads (n : Node) : Value → Number → Prop
  | number {given : Value} {y : Number} (hy : given.number? = some y) : Reads n given y
  | integer {s : String} {a : Int} (hinteger : n.hasRule "integer" = true)
      (hs : Text.readInt? s = some a) : Reads n (.str s) (.int a)
  | decimal {s : String} {z : Binary64} (hinteger : n.hasRule "integer" = false)
      (hs : Text.readBinary64? s = some z) : Reads n (.str s) (.float z)

namespace Coercion

variable {n : Node} {x given : Value} {y : Number} {s : String}

/-- A text that is replaced by a number denotes it. -/
theorem coerceText_reads (hy : (coerceText (.str n.numericType) s).number? = some y) :
    n.Reads (.str s) y := by
  have hwhole : coerceText (.str "integer") s = ((Text.readInt? s).map .int).getD (.str s) := rfl
  have hreal : coerceText (.str "number") s = ((Text.readBinary64? s).map .float).getD (.str s) :=
    rfl
  unfold Node.numericType at hy
  cases hinteger : n.hasRule "integer" with
  | true =>
    rw [hinteger, if_pos rfl, hwhole] at hy
    cases hs : Text.readInt? s with
    | none =>
      rw [hs] at hy
      cases hy
    | some a =>
      rw [hs] at hy
      cases hy
      exact .integer hinteger hs
  | false =>
    rw [hinteger, if_neg Bool.false_ne_true, hreal] at hy
    cases hs : Text.readBinary64? s with
    | none =>
      rw [hs] at hy
      cases hy
    | some z =>
      rw [hs] at hy
      cases hy
      exact .decimal hinteger hs

/-- A value that is coerced to a number under the schema of a number node denotes it. -/
theorem coerceValue_reads {resolve : Resolve} {fields : Fields} {identity : Option Nat}
    (hfields : fields.Limits n)
    (hx : coerceValue resolve given (.map fields identity) = .ok x) (hy : x.number? = some y) :
    n.Reads given y := by
  have htype : (Value.map fields identity).getField "type" = .ok (.str n.numericType) :=
    congrArg (fun o => Except.ok (Option.getD o Value.null)) hfields.type
  unfold coerceValue at hx
  split at hx
  · rename_i xs
    have hname : n.numericType ≠ "array" := by
      unfold Node.numericType
      cases n.hasRule "integer" <;> decide
    have harray : Value.str n.numericType ≠ .str "array" := fun heq =>
      hname (Atom.str.inj (Value.atom.inj heq))
    rw [htype] at hx
    simp only [bind, Except.bind] at hx
    cases hx
    cases hy
  · rw [htype] at hx
    cases hx
    exact coerceText_reads hy
  · rw [htype] at hx
    cases hx
    exact .number hy

end Coercion

/-- Of data that are coerced, what becomes a number under the key of a number denotes it. -/
theorem Container.coerce_reads {c : Container} {n : Node} {described fields entries es : Fields}
    {i identity : Option Nat} {x : Value} {y : Number}
    (hdescribed : c.properties = .ok (.ofEntries described))
    (hfields : fields.Limits n) (hchild : OrderedMap.get? described k = some (.ofEntries fields))
    (hcoerce : c.coerce (.map entries i) = .ok (.map es identity))
    (hx : OrderedMap.get? es k = some x) (hy : x.number? = some y) :
    ∃ given, OrderedMap.get? entries k = some given ∧ n.Reads given y := by
  unfold coerce at hcoerce
  rw [hdescribed] at hcoerce
  change (entries.mapM (fun e => do return (e.1, ← c.coerceEntry (.ofEntries described) e.1 e.2))
    >>= fun entries => .ok (Value.ofEntries entries)) = _ at hcoerce
  obtain ⟨found, hmap, hpure⟩ := bind_eq_ok_iff.mp hcoerce
  cases hpure
  have hall : List.Forall₂ (fun e f => e.1 = f.1 ∧
      c.coerceEntry (.ofEntries described) e.1 e.2 = .ok f.2) entries es := by
    refine (mapM_eq_ok_iff.mp hmap).imp fun e f hstep => ?_
    obtain ⟨v, hv, hpure⟩ := bind_eq_ok_iff.mp hstep
    cases hpure
    exact ⟨rfl, hv⟩
  rcases OrderedMap.get?_forall₂
    (R := fun j v w => c.coerceEntry (.ofEntries described) j v = .ok w) hall k with
    ⟨_, hnone⟩ | ⟨j, given, w, hj, hgiven, hw, hentry⟩
  · cases hnone.symm.trans hx
  · cases hw.symm.trans hx
    refine ⟨given, hgiven, ?_⟩
    have hget : OrderedMap.get? described j = some (.ofEntries fields) := by
      rw [OrderedMap.get?_congr hj, hchild]
    have hholds : (Value.ofEntries described).holds (.atom j) = .ok true := by
      change Except.ok (OrderedMap.contains described j) = _
      rw [OrderedMap.contains, hget]
      rfl
    have hitem : (Value.ofEntries described).item c.describe (.atom j) =
        .ok (.ofEntries fields) := by
      unfold Value.item
      simp only [Value.asKey, bind, Except.bind, hget]
      rfl
    unfold coerceEntry at hentry
    rw [hholds] at hentry
    simp only [bind, Except.bind, if_true, hitem, resolve_of_plain hfields.plain] at hentry
    exact Coercion.coerceValue_reads hfields hentry hy

/-! ## Guards -/

/-- What stands for the schema that a part of a request is held against, for the body that of its
media type. -/
def Route.schemaOf? (route : Route) (r : Request) : RequestPart → Option Value
  | .body =>
    match route.body.bind fun body => body.content.entries.toOption with
    | some entries =>
      match OrderedMap.get? entries (.str r.mediaType) with
      | some (.mediaType schema _) => some schema
      | _ => none
    | none => none
  | part => some (route.container part.name)

/-- The container that a part is held against is that of the schema. -/
theorem Route.Checks.compiles {route : Route} {r : Request} {part : RequestPart} {c : Container}
    (hchecks : route.Checks h r part c) (hv : route.schemaOf? r part = some v) :
    (Container.compile h v part.allowsUnknown).1 = .ok c := by
  cases hchecks with
  | part hpart _ hcompile =>
    cases part with
    | body => exact absurd rfl hpart
    | _ =>
      cases hv
      exact hcompile
  | body hbody hentries hmedia hcompile =>
    unfold schemaOf? at hv
    rw [hbody] at hv
    simp only [Option.bind_some, hentries, Except.toOption, hmedia] at hv
    cases hv
    exact hcompile

namespace Guard

variable {route : Route} {g : Guard} {r : Request} {part : RequestPart} {es validated : Fields}
  {identity : Option Nat} {x : Value}

/-- Taken data that are a mapping are coerced from one. -/
theorem coerced_of_taken {c : Container} (h : takenData c r part = .ok (.map es identity)) :
    ∃ entries i, dataOf c r part = .ok (.map entries i) ∧
      c.coerce (.map entries i) = .ok (.map es identity) := by
  obtain ⟨data, hdata, htaken⟩ := bind_eq_ok_iff.mp h
  cases data with
  | map entries i => exact ⟨entries, i, hdata, htaken⟩
  | _ => cases htaken

/-- **Limits of what is let through.** Where a part of a request is held against an object with a
number under a key, and the request is let through, what is stored under the key is the number that
was given there or that the given text denotes, and it keeps the limits of the number. Only what is
not a number in value keeps none, and only where no integer is asked for. -/
theorem accepted_number (hs : h.AsksNumber s k t) (hv : rootSchema v = .ok s)
    (hmake : (make h route).1 = .ok g) (hcheck : (g.check r).1 = .ok (.accepted validated))
    (hpart : route.schemaOf? r part = some v)
    (hdata : OrderedMap.get? validated (.str part.name) = some (.map es identity))
    (hx : OrderedMap.get? es k = some x) :
    ∃ y, x.number? = some y ∧
      ((h.view t).Contains y ∨ y.IsNan ∧ (h.view t).hasRule "integer" = false) ∧
        ∃ c entries i given, (Container.compile h v part.allowsUnknown).1 = .ok c ∧
          dataOf c r part = .ok (.map entries i) ∧
            OrderedMap.get? entries k = some given ∧ (h.view t).Reads given y := by
  obtain ⟨found, rfl, hpasses⟩ := accepted_passes hmake hcheck
  obtain ⟨hchecks, htaken, hvalid⟩ := hpasses _ (mem_of_named hdata)
  have hcompile := hchecks.compiles hpart
  obtain ⟨y, hy, hcontains⟩ := Container.contains_of_error hs hv hcompile hvalid hx
  obtain ⟨outcomes, hdescribed, hall⟩ :=
    Container.shown_of_direct hcompile (ofValue_of_rootSchema hv) hs.toDirect
  obtain ⟨fields, hlimits, hchild⟩ := hs.shown hall
  obtain ⟨entries, i, hraw, hcoerce⟩ := coerced_of_taken htaken
  obtain ⟨given, hgiven, hreads⟩ :=
    Container.coerce_reads hdescribed hlimits hchild hcoerce hx hy
  exact ⟨y, hy, hcontains, _, entries, i, given, hcompile, hraw, hgiven, hreads⟩

end Guard

/-! ## Pages -/

/-- A number and an integer from one to nine, each as the page in an object. -/
def readerHeap : Heap where
  nodes := #[{ kind := "number", rules := [.min (.int 1), .max (.int 9)] },
    { kind := "number", rules := [.integer, .min (.int 1), .max (.int 9)] },
    { kind := "object", children := [(.str "page", .node 0)] },
    { kind := "object", children := [(.str "page", .node 1)] }]

/-- A route that takes a page in its query. -/
def readerRoute (query : NodeId) : Route where
  path := .str "/pages"
  method := .str "get"
  summary := .str "Read"
  tags := []
  headers := .null
  query := .node query
  params := .null
  body := none
  responses := []

theorem readerHeap_asks {id : NodeId} (hid : id = 0 ∨ id = 1) :
    readerHeap.AsksNumber (.node (id + 2)) (.str "page") (.node id) := by
  have hkeys : ∀ t : Schema, OrderedMap.Separate [(Atom.str "page", t)] :=
    fun _ => List.pairwise_singleton _ _
  have hmark : (Atom.str "page").IsNoMark := fun heq => absurd (Atom.str.inj heq) (by decide)
  rcases hid with rfl | rfl
  · exact ⟨⟨rfl, rfl, nofun, nofun, rfl, rfl, hkeys _, nofun⟩, .inl rfl, hmark,
      ⟨_, List.mem_cons_self, rfl, rfl⟩, ⟨rfl, rfl, rfl, rfl⟩⟩
  · exact ⟨⟨rfl, rfl, nofun, nofun, rfl, rfl, hkeys _, nofun⟩, .inl rfl, hmark,
      ⟨_, List.mem_cons_self, rfl, rfl⟩, ⟨rfl, rfl, rfl, rfl⟩⟩

/-- A page between white space, with a sign and with an underscore in it. -/
theorem Guard.accepted_number_page : ∃ g validated,
    (make readerHeap (readerRoute 3)).1 = .ok g ∧
    (g.check { query := [("page", " +0_5 ")] }).1 = .ok (.accepted validated) ∧
    OrderedMap.get? validated (.str "query") = some (.ofFields [("page", .int 5)]) ∧
    Text.readInt? " +0_5 " = some 5 ∧ (readerHeap.view (.node 1)).Contains (.int 5) := by
  obtain ⟨g, validated, hmake, hcheck, hdata⟩ : ∃ g validated,
      (make readerHeap (readerRoute 3)).1 = .ok g ∧
      (g.check { query := [("page", " +0_5 ")] }).1 = .ok (.accepted validated) ∧
      OrderedMap.get? validated (.str "query") = some (.ofFields [("page", .int 5)]) :=
    ⟨_, _, rfl, rfl, rfl⟩
  obtain ⟨y, hy, hcontains, -⟩ := @accepted_number readerHeap (.node 3) (.node 1) (.str "page")
    (.node 3) (readerRoute 3) g { query := [("page", " +0_5 ")] } .query
    [(.str "page", .int 5)] validated none (.int 5) (readerHeap_asks (.inr rfl)) rfl hmake hcheck rfl
    hdata rfl
  cases hy
  refine ⟨g, validated, hmake, hcheck, hdata, by decide, ?_⟩
  rcases hcontains with hcontains | ⟨hnan, -⟩
  · exact hcontains
  · cases hnan

/-- A page that is not a number is let through where no integer is asked for, though it keeps
neither limit. -/
theorem Guard.accepted_nan : ∃ g validated,
    (make readerHeap (readerRoute 2)).1 = .ok g ∧
    (g.check { query := [("page", "nan")] }).1 = .ok (.accepted validated) ∧
    OrderedMap.get? validated (.str "query") = some (.ofFields [("page", .float (.nan 0))]) ∧
    readerHeap.AsksNumber (.node 2) (.str "page") (.node 0) ∧
    (readerHeap.view (.node 0)).minimum? = some (.int 1) ∧
    (readerHeap.view (.node 0)).maximum? = some (.int 9) ∧
    (Number.int 1).le (.float (.nan 0)) = false ∧ (Number.float (.nan 0)).le (.int 9) = false :=
  ⟨_, _, rfl, rfl, rfl, readerHeap_asks (.inl rfl), rfl, rfl, rfl, rfl⟩

end WireShape
