import WireShape.Proofs.Meaning.Checked
import WireShape.Proofs.Nullable.Reading

/-!
# The checked form of a published schema

The checked form of a published schema accepts what satisfies the published schema. Where the schema
is nullable, its type and its choices admit null besides, and no other keyword says anything about
null. Any other datum satisfies the type and the choices as before. The schemas in the value of a
keyword are translated in the same way, so the proof is by induction on the schema. Alternatives are
the exception: they count the schemas that accept null, so a schema that has them has no mark.

* `Published`: the schemas that are considered.
* `Translates`: a published schema and a checked form that accepts what satisfies it.
* `Keyword.Agrees`: the same for the value of a keyword.
* `Published.translates`: each published schema has such a checked form.
-/

namespace WireShape

open Value (Fields IsJson Shown)
open NullTypes (Expands Tidy expand admittingNull admittingNullIf)
open OpenApi (described isNullable meets reading satisfies)

/-! ## Schemas as they are published -/

/-- The form that the value of a keyword has in a published schema. Keys can be shown. -/
def Keyword.PublishedForm (describe : Describe) : Keyword → Value → Prop
  | type, v => ∃ s test, v = .str s ∧ Assertion.typeTest? s = some test
  | enum, v => ∃ xs, v = .list xs ∧ ∀ x ∈ xs, x.IsScalar
  | not, v => ∃ xs, v = .ofFields [("enum", .list xs)] ∧ ∀ x ∈ xs, x.IsScalar
  | properties, v => ∃ props identity, v = .map props identity ∧
      ∀ p ∈ props, p.1 ≠ .str "nullable" ∧ (Value.atom p.1).Shown describe
  | oneOf, v => ∃ xs, v = .list xs
  | kw, v => kw.Form describe v

/-- Whether schemas can stand in the value of a keyword. -/
def Keyword.hasSchemas : Keyword → Bool
  | properties | additionalProperties | items | not | oneOf => true
  | _ => false

/-- Schemas as they are published: marked or not, with keywords of the published form, and with
annotations that have no mark and can be shown. -/
inductive Published (describe : Describe) : Value → Prop
  | intro {fields : Fields} {identity : Option Nat} (marked : Bool) (htidy : Tidy fields)
      (hmark : OrderedMap.get? fields (.str "nullable") =
        if marked then some (.bool true) else none)
      (hsingle : marked = true → OrderedMap.get? fields (.str "oneOf") = none)
      (hform : ∀ (kw : Keyword) v, OrderedMap.get? fields (.str kw.name) = some v →
        kw.PublishedForm describe v)
      (hothers : ∀ s v, OrderedMap.get? fields (.str s) = some v → Keyword.ofName? s = none →
        v.Unmarked ∧ v.Shown describe)
      (hinner : ∀ (kw : Keyword) v u, OrderedMap.get? fields (.str kw.name) = some v →
        kw.Inner v u → Published describe u) : Published describe (.map fields identity)

/-- A published schema and a checked form that accepts what satisfies it. -/
structure Translates (describe : Describe) (v w : Value) : Prop where
  expand : expand v = .ok w
  checkable : Checkable describe w
  shown : w.Shown describe
  accepts : ∀ (c : Checker) (x : Value), c.describe = describe → x.IsJson →
    (c.Accepts w x ↔ satisfies Value.allDistinct v x = true)

/-- A checked schema describes the keys that a published one describes. -/
def DescribesKeys (fields after : Fields) : Prop :=
  ∃ props identity, (OrderedMap.get? after (.str "properties")).getD (.ofEntries []) =
      .map props identity ∧
    ∀ k, OrderedMap.contains props k = OrderedMap.contains (described fields) k

/-- The value of a keyword in a published schema and in a checked one, in which it says the same. -/
structure Keyword.Agrees (describe : Describe) (kw : Keyword) (v w : Value) : Prop where
  expand : NullTypes.expand v = .ok w
  form : kw.Form describe w
  shown : w.Shown describe
  inner : ∀ u, kw.Inner w u → Checkable describe u
  holds : ∀ (c : Checker) (fields after : Fields) (x : Value), c.describe = describe → x.IsJson →
    DescribesKeys fields after → (c.KeywordHolds after kw w x ↔
      meets Value.allDistinct fields kw (reading Value.allDistinct v) x = true)

/-! ## Keywords about one datum -/

namespace OpenApi

variable {describe : Describe} {c : Checker} {fields after : Fields} {kw : Keyword} {v x : Value}

theorem isOfType_iff {s : String} {test : Value → Bool}
    (htest : Assertion.typeTest? s = some test) :
    c.KeywordHolds fields .type (.str s) x ↔ isOfType (.str s) x = true := by
  have hfits : Assertion.fitsType (.str s) x = .ok (test x) := Assertion.fitsType_str htest
  have hreads : isOfType (.str s) x = test x := by
    unfold isOfType
    dsimp only
    rw [htest]
    rfl
  rw [hreads]
  constructor
  · rintro ⟨_, ⟨⟩, name, hname, hfit⟩
    obtain rfl := List.mem_singleton.mp hname
    exact Except.ok.inj (hfits.symm.trans hfit)
  · exact fun htrue => ⟨[.str s], rfl, _, List.mem_singleton_self _, by rw [hfits, htrue]⟩

theorem isListed_iff {xs : List Value} :
    c.KeywordHolds fields .enum (.list xs) x ↔ isListed (.list xs) x = true := by
  unfold isListed
  rw [List.any_eq_true]
  constructor
  · exact fun hall => hall xs rfl
  · rintro hany _ ⟨⟩
    exact hany

theorem keepsLimit_iff {refused : Ordering} :
    (∀ i a, v = .int i → x.number? = some a → a.compare? (.int i) ≠ some refused) ↔
      keepsLimit refused v x = true := by
  unfold keepsLimit
  split
  · rename_i i a ha
    rw [bne_iff_ne]
    refine ⟨fun hall => hall i a rfl ha, ?_⟩
    rintro hne _ _ ⟨⟩ hb
    cases ha.symm.trans hb
    exact hne
  · rename_i hnot
    exact iff_of_true (fun i a hv ha => (hnot i a hv ha).elim) rfl

theorem keepsSize_iff {keeps : Int → Int → Bool} {size? : Option Nat} :
    (∀ (i : Int) n, v = .int i → size? = some n → keeps i n = true) ↔
      keepsSize keeps v size? = true := by
  unfold keepsSize
  split
  · rename_i i n
    refine ⟨fun hall => hall i n rfl rfl, ?_⟩
    rintro hkeeps _ _ ⟨⟩ ⟨⟩
    exact hkeeps
  · rename_i hnot
    exact iff_of_true (fun i n hv hn => (hnot i n hv hn).elim) rfl

theorem fitsPattern_iff :
    c.KeywordHolds fields .pattern v x ↔ fitsPattern v x = true := by
  unfold fitsPattern
  split
  · rename_i p s hp
    refine ⟨fun hall => hall p s hp rfl, ?_⟩
    rintro hfound _ _ hp' ⟨⟩
    cases hp.symm.trans hp'
    exact hfound
  · rename_i hnot
    exact iff_of_true (fun p s hp hx => (hnot p s hp hx).elim) rfl

theorem fitsFormat_iff : c.KeywordHolds fields .format v x ↔ fitsFormat v x = true := by
  unfold fitsFormat
  split
  · rename_i name s
    rw [Option.all_eq_true]
    refine ⟨fun hall test htest => hall name s test rfl rfl htest, ?_⟩
    rintro hall _ _ test ⟨⟩ ⟨⟩ htest
    exact hall test htest
  · rename_i hnot
    exact iff_of_true (fun name s _ hv hx => (hnot name s hv hx).elim) rfl

theorem hasKeys_iff {keys : List Atom} :
    c.KeywordHolds fields .required (.list (keys.map .atom)) x ↔
      hasKeys (.list (keys.map .atom)) x = true := by
  unfold hasKeys
  split
  · rename_i ks es identity heq
    cases heq
    rw [List.all_map, List.all_eq_true]
    refine ⟨fun hall => hall es identity rfl keys rfl, ?_⟩
    rintro hkeys _ _ ⟨⟩ keys' heq
    rwa [List.map_injective_iff.mpr (fun _ _ => Value.atom.inj) (Value.list.inj heq).symm]
  · rename_i hnot
    refine iff_of_true ?_ rfl
    rintro es identity rfl
    exact (hnot _ es identity rfl rfl).elim

/-- A keyword without schemas in its value says the same in a published schema as in a checked
one. -/
theorem holds_iff_meets (hplain : kw.hasSchemas = false) (hform : kw.Form describe v)
    (hpublished : kw.PublishedForm describe v) : c.KeywordHolds after kw v x ↔
      meets Value.allDistinct fields kw (reading Value.allDistinct v) x = true := by
  cases kw with
  | type =>
    obtain ⟨s, test, rfl, htest⟩ := hpublished
    exact isOfType_iff htest
  | enum =>
    obtain ⟨xs, rfl, _⟩ := hpublished
    exact isListed_iff
  | minimum => exact keepsLimit_iff
  | maximum => exact keepsLimit_iff
  | minLength => simp only [meets, ← keepsSize_iff, decide_eq_true_eq]; rfl
  | maxLength => simp only [meets, ← keepsSize_iff, decide_eq_true_eq]; rfl
  | minItems => simp only [meets, ← keepsSize_iff, decide_eq_true_eq]; rfl
  | maxItems => simp only [meets, ← keepsSize_iff, decide_eq_true_eq]; rfl
  | pattern => exact fitsPattern_iff
  | format => exact fitsFormat_iff
  | required =>
    obtain ⟨keys, rfl, _⟩ := hform
    exact hasKeys_iff
  | uniqueItems =>
    unfold meets
    cases x with
    | list xs =>
      change (∀ ys, Value.list xs = .list ys → _) ↔ (!v.truthy || Value.allDistinct xs) = true
      rw [Bool.or_eq_true, Bool.not_eq_true', ← Bool.not_eq_true, ← imp_iff_not_or]
      refine ⟨fun hall => hall xs rfl, ?_⟩
      rintro hdistinct _ ⟨⟩
      exact hdistinct
    | _ => exact iff_of_true (fun _ heq => by cases heq) rfl
  | properties | additionalProperties | items | not | oneOf => cases hplain
  | _ => cases hform

end OpenApi

section Keywords

variable {describe : Describe} {kw : Keyword} {v w : Value}

/-- The value of a keyword without schemas is its own checked form. -/
theorem Keyword.agrees_plain (hplain : kw.hasSchemas = false) (h : kw.PublishedForm describe v) :
    kw.Agrees describe v v := by
  have hinner : ∀ u, kw.Inner v u → Checkable describe u := by
    intro u hu
    cases hu <;> cases hplain
  have hatom : ∀ {a : Atom}, v = .atom a → expand v = .ok v := by
    rintro a rfl
    rfl
  have hlist : ∀ {xs : List Value}, v = .list xs → (∀ x ∈ xs, ∃ a, x = .atom a) →
      expand v = .ok v := by
    rintro xs rfl hxs
    exact NullTypes.expand_atoms hxs
  suffices hv : expand v = .ok v ∧ kw.Form describe v ∧ v.Shown describe from
    ⟨hv.1, hv.2.1, hv.2.2, hinner, fun _ _ _ _ _ _ _ => OpenApi.holds_iff_meets hplain hv.2.1 h⟩
  have hint : (∃ i, v = .int i) → expand v = .ok v ∧ (∃ i, v = .int i) ∧ v.Shown describe := by
    rintro ⟨i, rfl⟩
    exact ⟨rfl, ⟨i, rfl⟩, ⟨_, rfl⟩⟩
  cases kw with
  | type =>
    obtain ⟨s, test, rfl, htest⟩ := h
    refine ⟨rfl, ⟨[.str s], rfl, fun name hname => ?_⟩, ⟨_, rfl⟩⟩
    exact ⟨s, test, List.mem_singleton.mp hname, htest⟩
  | enum =>
    obtain ⟨xs, rfl, hxs⟩ := h
    have hshown : ∀ x ∈ xs, x.Shown describe := fun x hx => (hxs x hx).shown
    exact ⟨hlist rfl fun x hx => (hxs x hx).atom, ⟨xs, rfl, hshown⟩, Value.shown_list hshown⟩
  | minimum | maximum | minLength | maxLength | minItems | maxItems => exact hint h
  | pattern =>
    obtain ⟨p, hp⟩ := id h
    unfold Assertion.patternOf at hp
    split at hp
    · exact ⟨rfl, h, ⟨_, rfl⟩⟩
    · cases hp
  | format =>
    obtain ⟨s, rfl⟩ := id h
    exact ⟨rfl, h, ⟨_, rfl⟩⟩
  | uniqueItems =>
    obtain ⟨b, rfl⟩ := id h
    exact ⟨rfl, h, ⟨_, rfl⟩⟩
  | required =>
    obtain ⟨keys, rfl, hkeys⟩ := id h
    refine ⟨hlist rfl fun x hx => ?_, h, Value.shown_list fun x hx => ?_⟩
    · obtain ⟨k, _, rfl⟩ := List.mem_map.mp hx
      exact ⟨k, rfl⟩
    · obtain ⟨k, hk, rfl⟩ := List.mem_map.mp hx
      exact hkeys k hk
  | properties | additionalProperties | items | not | oneOf => cases hplain
  | _ => cases h

/-! ## Keywords with schemas -/

theorem not_contains_mark {props : Fields}
    (hkeys : ∀ p ∈ props, p.1 ≠ .str "nullable" ∧ (Value.atom p.1).Shown describe) :
    OrderedMap.contains props (.str "nullable") = false := by
  refine Bool.eq_false_iff.mpr fun hin => ?_
  obtain ⟨p, hp, hkey⟩ := OrderedMap.contains_iff.mp hin
  exact (hkeys p hp).1 (Atom.beq_str_iff.mp hkey)

/-- The schemas of properties are translated one by one, under their keys. -/
theorem Keyword.agrees_properties {props : Fields} {identity : Option Nat}
    (hkeys : ∀ p ∈ props, p.1 ≠ .str "nullable" ∧ (Value.atom p.1).Shown describe)
    (h : ∀ p ∈ props, ∃ w, Translates describe p.2 w) :
    ∃ qs : Fields, Keyword.properties.Agrees describe (.map props identity) (.ofEntries qs) := by
  obtain ⟨qs, hqs, hentries⟩ := NullTypes.expandEntries_ok fun p hp => by
    obtain ⟨w, hw⟩ := h p hp
    exact ⟨w, hw.expand⟩
  have hall : List.Forall₂ (fun p q => q.1 = p.1 ∧ Translates describe p.2 q.2) props qs := by
    refine forall₂_imp_mem (fun p hp q hq => ⟨hq.1, ?_⟩) hentries
    obtain ⟨w, hw⟩ := h p hp
    rwa [Except.ok.inj (hq.2.symm.trans hw.expand)]
  have hmark := not_contains_mark hkeys
  have hshown : (Value.ofEntries qs).Shown describe := by
    refine Value.shown_map (fun q hq => ?_) fun q hq => ?_
    · obtain ⟨p, hp, hkey, _⟩ := forall₂_right hall hq
      rw [hkey]
      exact (hkeys p hp).2
    · obtain ⟨p, _, _, hq⟩ := forall₂_right hall hq
      exact hq.shown
  refine ⟨qs, ⟨NullTypes.expand_without_mark hmark hqs hentries, rfl, hshown, fun u hu => ?_,
    fun c fields after x hc hx _ => ?_⟩⟩
  · cases hu with
    | property hq =>
      obtain ⟨p, _, _, hq⟩ := forall₂_right hall hq
      exact hq.checkable
  · cases hx with
    | @map es identity' _ _ hes =>
      change _ ↔ (OpenApi.fieldsOf Value.allDistinct (.map props identity)).all
        (fun e => (OrderedMap.get? es e.1).all e.2) = true
      rw [OpenApi.fieldsOf_map, List.all_map, List.all_eq_true]
      have hentry : ∀ {k : Atom} {y : Value}, OrderedMap.get? es k = some y → y.IsJson := by
        intro k y hy
        obtain ⟨k', hmem, _⟩ := OrderedMap.mem_of_get? hy
        exact hes _ hmem
      constructor
      · intro hholds p hp
        obtain ⟨q, hq, hkey, htranslates⟩ := forall₂_left hall hp
        refine (Option.all_eq_true ..).mpr fun y hy => ?_
        have hget : OrderedMap.get? es q.1 = some y := by rwa [hkey]
        exact (htranslates.accepts c y hc (hentry hy)).mp
          (hholds es identity' rfl qs none rfl q hq y hget)
      · rintro hmeets _ _ ⟨⟩ _ _ ⟨⟩ q hq y hy
        obtain ⟨p, hp, hkey, htranslates⟩ := forall₂_right hall hq
        rw [hkey] at hy
        exact (htranslates.accepts c y hc (hentry hy)).mpr
          ((Option.all_eq_true ..).mp (hmeets p hp) y hy)
    | _ => exact iff_of_true (fun _ _ heq => by cases heq) rfl

/-- The schema of the elements of a list. -/
theorem Translates.items (h : Translates describe v w) : Keyword.items.Agrees describe v w := by
  refine ⟨h.expand, isMap_of_checkable h.checkable, h.shown, fun u hu => ?_,
    fun c fields after x hc hx _ => ?_⟩
  · cases hu
    exact h.checkable
  · cases hx with
    | @list xs hxs =>
      change _ ↔ xs.all (satisfies Value.allDistinct v) = true
      rw [List.all_eq_true]
      refine ⟨fun hholds y hy => (h.accepts c y hc (hxs y hy)).mp (hholds xs rfl y hy), ?_⟩
      rintro hmeets _ ⟨⟩ y hy
      exact (h.accepts c y hc (hxs y hy)).mpr (hmeets y hy)
    | _ => exact iff_of_true (fun _ heq => by cases heq) rfl

/-- A keyword about the keys that are not described says the same if the same keys are described. -/
theorem additional_holds_iff {c : Checker} {fields after : Fields} {x : Value} (hx : x.IsJson)
    (hkeys : DescribesKeys fields after)
    (h : ∀ y : Value, y.IsJson →
      (w.isMap = true ∧ c.Accepts w y ↔ satisfies Value.allDistinct v y = true)) :
    c.KeywordHolds after .additionalProperties w x ↔
      meets Value.allDistinct fields .additionalProperties (reading Value.allDistinct v) x =
        true := by
  obtain ⟨props, identity, hdescribed, hsame⟩ := hkeys
  cases hx with
  | @map es _ _ _ hes =>
    change _ ↔ es.all (fun e => OrderedMap.contains (described fields) e.1 ||
      satisfies Value.allDistinct v e.2) = true
    rw [List.all_eq_true]
    constructor
    · intro hholds e he
      rw [Bool.or_eq_true, ← hsame, ← h e.2 (hes e he)]
      exact hholds es _ rfl props identity hdescribed e he
    · rintro hmeets _ _ ⟨⟩ props' identity' hdescribed' e he
      cases hdescribed.symm.trans hdescribed'
      rw [hsame, h e.2 (hes e he), ← Bool.or_eq_true]
      exact hmeets e he
  | _ => exact iff_of_true (fun _ _ heq => by cases heq) rfl

/-- The schema of the keys that are not described. -/
theorem Translates.additional (h : Translates describe v w) :
    Keyword.additionalProperties.Agrees describe v w := by
  have hmap := isMap_of_checkable h.checkable
  refine ⟨h.expand, .inr hmap, h.shown, fun u hu => ?_, fun c fields after x hc hx hkeys => ?_⟩
  · cases hu
    exact h.checkable
  · exact additional_holds_iff hx hkeys fun y hy => (and_iff_right hmap).trans (h.accepts c y hc hy)

/-- Keys that are not described are refused. -/
theorem Keyword.agrees_closed :
    Keyword.additionalProperties.Agrees describe (.bool false) (.bool false) := by
  refine ⟨rfl, .inl rfl, ⟨_, rfl⟩, fun u hu => ?_, fun c fields after x hc hx hkeys => ?_⟩
  · cases hu with
    | additional hmap => cases hmap
  · exact additional_holds_iff hx hkeys fun y _ => iff_of_false (fun h => by cases h.1) nofun

/-- The schema of what is denied. -/
theorem Translates.denied (h : Translates describe v w) : Keyword.not.Agrees describe v w := by
  refine ⟨h.expand, ⟨isMap_of_checkable h.checkable, h.shown⟩, h.shown, fun u hu => ?_,
    fun c fields after x hc hx _ => ?_⟩
  · cases hu
    exact h.checkable
  · change ¬ c.Accepts w x ↔ (!satisfies Value.allDistinct v x) = true
    rw [h.accepts c x hc hx, Bool.not_eq_true', Bool.not_eq_true]

theorem exactlyOne_cons_iff {α : Type} {P : α → Prop} {a : α} {xs : List α} :
    ExactlyOne P (a :: xs) ↔ P a ∧ (∀ b ∈ xs, ¬ P b) ∨ ¬ P a ∧ ExactlyOne P xs := by
  constructor
  · rintro ⟨before, b, after, heq, hb, hbefore, hafter⟩
    cases before with
    | nil =>
      cases heq
      exact .inl ⟨hb, hafter⟩
    | cons c before =>
      cases heq
      obtain ⟨hfirst, hrest⟩ := List.forall_mem_cons.mp hbefore
      exact .inr ⟨hfirst, before, b, after, rfl, hb, hrest, hafter⟩
  · rintro (⟨ha, hafter⟩ | ⟨ha, before, b, after, rfl, hb, hbefore, hafter⟩)
    · exact ⟨[], a, xs, rfl, ha, nofun, hafter⟩
    · exact ⟨a :: before, b, after, rfl, hb, List.forall_mem_cons.mpr ⟨ha, hbefore⟩, hafter⟩

theorem exactlyOne_congr {α β : Type} {P : α → Prop} {Q : β → Prop} {xs : List α} {ys : List β}
    (h : List.Forall₂ (fun a b => P a ↔ Q b) xs ys) : ExactlyOne P xs ↔ ExactlyOne Q ys := by
  induction h with
  | nil =>
    exact iff_of_false (fun ⟨_, _, _, h, _⟩ => by simp at h) fun ⟨_, _, _, h, _⟩ => by simp at h
  | @cons a b xs ys hhead htail ih =>
    have hnone : (∀ a ∈ xs, ¬ P a) ↔ ∀ b ∈ ys, ¬ Q b := by
      refine ⟨fun hall b hb => ?_, fun hall a ha => ?_⟩
      · obtain ⟨a, ha, hab⟩ := forall₂_right htail hb
        exact fun hq => hall a ha (hab.mpr hq)
      · obtain ⟨b, hb, hab⟩ := forall₂_left htail ha
        exact fun hp => hall b hb (hab.mp hp)
    rw [exactlyOne_cons_iff, exactlyOne_cons_iff, hhead, hnone, ih]

/-- Alternatives, each of which is translated. -/
theorem Keyword.agrees_oneOf {xs : List Value} (h : ∀ x ∈ xs, ∃ w, Translates describe x w) :
    ∃ ys, Keyword.oneOf.Agrees describe (.list xs) (.list ys) := by
  obtain ⟨ys, hys, hitems⟩ := NullTypes.expandItems_ok fun x hx => by
    obtain ⟨w, hw⟩ := h x hx
    exact ⟨w, hw.expand⟩
  have hall : List.Forall₂ (Translates describe) xs ys := by
    refine forall₂_imp_mem (fun x hx y hy => ?_) hitems
    obtain ⟨w, hw⟩ := h x hx
    rwa [Except.ok.inj (hy.symm.trans hw.expand)]
  have hmember : ∀ y ∈ ys, Checkable describe y ∧ y.Shown describe := by
    intro y hy
    obtain ⟨x, _, hxy⟩ := forall₂_right hall hy
    exact ⟨hxy.checkable, hxy.shown⟩
  refine ⟨ys, by rw [NullTypes.expand, hys]; rfl, ⟨ys, rfl, fun y hy => ?_⟩,
    Value.shown_list fun y hy => (hmember y hy).2, fun u hu => ?_,
    fun c fields after x hc hx _ => ?_⟩
  · exact ⟨isMap_of_checkable (hmember y hy).1, (hmember y hy).2⟩
  · cases hu with
    | branch hu => exact (hmember u hu).1
  · have hholds : c.KeywordHolds after .oneOf (.list ys) x ↔
        ExactlyOne (fun s => c.Accepts s x) ys :=
      ⟨fun hall => hall ys rfl, fun hone _ heq => (Value.list.inj heq) ▸ hone⟩
    change _ ↔ ((OpenApi.membersOf Value.allDistinct (.list xs)).countP fun read => read x) == 1
    rw [hholds, OpenApi.membersOf_list, List.countP_map, beq_iff_eq, ← exactlyOne_iff_countP]
    exact (exactlyOne_congr (hall.imp fun _ _ hvw => (hvw.accepts c x hc hx).symm)).symm

/-- The value of a keyword of a published schema has a checked form in which it says the same, if
the schemas in it have. -/
theorem Keyword.PublishedForm.agrees (h : kw.PublishedForm describe v)
    (hinner : ∀ u, kw.Inner v u → ∃ w, Translates describe u w) : ∃ w, kw.Agrees describe v w := by
  cases hplain : kw.hasSchemas with
  | false => exact ⟨v, Keyword.agrees_plain hplain h⟩
  | true =>
    cases kw with
    | properties =>
      obtain ⟨props, identity, rfl, hkeys⟩ := h
      obtain ⟨qs, hqs⟩ := @Keyword.agrees_properties describe props identity hkeys
        fun p hp => hinner _ (.property hp)
      exact ⟨_, hqs⟩
    | additionalProperties =>
      rcases h with rfl | hmap
      · exact ⟨_, Keyword.agrees_closed⟩
      · obtain ⟨w, hw⟩ := hinner v (.additional hmap)
        exact ⟨w, hw.additional⟩
    | items =>
      obtain ⟨w, hw⟩ := hinner v .item
      exact ⟨w, hw.items⟩
    | not =>
      obtain ⟨w, hw⟩ := hinner v .denied
      exact ⟨w, hw.denied⟩
    | oneOf =>
      obtain ⟨xs, rfl⟩ := h
      obtain ⟨ys, hys⟩ := Keyword.agrees_oneOf fun x hx => hinner x (.branch hx)
      exact ⟨_, hys⟩
    | _ => cases hplain

/-! ## Null -/

theorem Keyword.admittingNull_eq (htype : kw ≠ .type) (henum : kw ≠ .enum) :
    admittingNull kw.name v = v := by
  cases kw <;> first
    | contradiction
    | exact NullTypes.admittingNull_of_ne (by decide) (by decide)

/-- A type and a list of choices are their own checked forms. -/
theorem Keyword.Agrees.eq (h : kw.Agrees describe v w) (hform : kw.PublishedForm describe v)
    (hkw : kw.hasSchemas = false) : w = v :=
  Except.ok.inj (h.expand.symm.trans (Keyword.agrees_plain hkw hform).expand)

/-- A keyword that admits null besides has still a value of its form, with the same schemas in
it. -/
theorem Keyword.Agrees.admittingNull (h : kw.Agrees describe v w)
    (hform : kw.PublishedForm describe v) : kw.Form describe (NullTypes.admittingNull kw.name w) ∧
      (NullTypes.admittingNull kw.name w).Shown describe ∧
        ∀ u, kw.Inner (NullTypes.admittingNull kw.name w) u → kw.Inner w u := by
  cases kw with
  | type =>
    obtain rfl := h.eq hform rfl
    obtain ⟨s, test, rfl, htest⟩ := hform
    refine ⟨⟨[.str s, .str "null"], rfl, fun name hname => ?_⟩, ⟨_, rfl⟩, nofun⟩
    rcases List.mem_cons.mp hname with rfl | hname
    · exact ⟨s, test, rfl, htest⟩
    · exact ⟨"null", _, List.mem_singleton.mp hname, rfl⟩
  | enum =>
    obtain rfl := h.eq hform rfl
    obtain ⟨xs, rfl, hxs⟩ := hform
    have hshown : ∀ x ∈ xs ++ [.null], x.Shown describe := by
      intro x hx
      rcases List.mem_append.mp hx with hx | hx
      · exact (hxs x hx).shown
      · obtain rfl := List.mem_singleton.mp hx
        exact ⟨_, rfl⟩
    exact ⟨⟨_, rfl, hshown⟩, Value.shown_list hshown, nofun⟩
  | _ =>
    rw [Keyword.admittingNull_eq (by decide) (by decide)]
    exact ⟨h.form, h.shown, fun _ hu => hu⟩

section Null

variable {c : Checker} {fields after : Fields} {x : Value}

theorem satisfies_denied {xs : List Value} :
    satisfies Value.allDistinct (.ofFields [("enum", .list xs)]) x =
      xs.any fun w => w.sameStrict x :=
  Bool.and_true _

/-- Where null is admitted besides, no keyword but alternatives refuses it. -/
theorem Keyword.Agrees.holds_null (h : kw.Agrees describe v w) (hform : kw.PublishedForm describe v)
    (hc : c.describe = describe) (hsingle : kw ≠ .oneOf) (hkeys : DescribesKeys fields after) :
    c.KeywordHolds after kw (NullTypes.admittingNull kw.name w) .null := by
  cases kw with
  | type =>
    obtain rfl := h.eq hform rfl
    obtain ⟨s, test, rfl, htest⟩ := hform
    exact ⟨[.str s, .str "null"], rfl, _, List.mem_cons_of_mem _ (List.mem_singleton_self _), rfl⟩
  | enum =>
    obtain rfl := h.eq hform rfl
    obtain ⟨xs, rfl, hxs⟩ := hform
    rintro _ ⟨⟩
    exact ⟨.null, List.mem_append_right _ (List.mem_singleton_self _), rfl⟩
  | not =>
    obtain ⟨xs, rfl, hxs⟩ := hform
    rw [Keyword.admittingNull_eq (by decide) (by decide)]
    refine (h.holds c fields after .null hc .null hkeys).mpr ?_
    change (!satisfies Value.allDistinct (.ofFields [("enum", .list xs)]) .null) = true
    rw [satisfies_denied, Bool.not_eq_true', List.any_eq_false]
    exact fun x hx => by simp [(hxs x hx).not_null.1]
  | oneOf => exact absurd rfl hsingle
  | minimum | maximum =>
    rintro i a _ ha
    cases ha
  | minLength | maxLength | minItems | maxItems =>
    rintro i n _ hn
    cases hn
  | pattern =>
    rintro _ _ _ ⟨⟩
  | format =>
    rintro _ _ _ _ ⟨⟩
  | required =>
    rintro _ _ ⟨⟩
  | properties =>
    rintro _ _ ⟨⟩
  | additionalProperties =>
    rintro _ _ ⟨⟩
  | items =>
    rintro _ ⟨⟩
  | uniqueItems =>
    rintro _ ⟨⟩
  | _ => exact h.form.elim

/-- Where null is admitted besides, a keyword says about other data what it said before. -/
theorem Keyword.Agrees.holds_other (h : kw.Agrees describe v w)
    (hform : kw.PublishedForm describe v) (hx : x.IsJson) (hother : x ≠ .null) :
    c.KeywordHolds after kw (NullTypes.admittingNull kw.name w) x ↔
      c.KeywordHolds after kw w x := by
  cases kw with
  | type =>
    obtain rfl := h.eq hform rfl
    obtain ⟨s, test, rfl, htest⟩ := hform
    constructor
    · rintro ⟨_, ⟨⟩, name, hname, hfits⟩
      rcases List.mem_cons.mp hname with rfl | hname
      · exact ⟨[.str s], rfl, _, List.mem_singleton_self _, hfits⟩
      · obtain rfl := List.mem_singleton.mp hname
        exact absurd (Value.isNull_iff.mp (Except.ok.inj hfits)) hother
    · rintro ⟨_, ⟨⟩, name, hname, hfits⟩
      obtain rfl := List.mem_singleton.mp hname
      exact ⟨[.str s, .str "null"], rfl, _, List.mem_cons_self, hfits⟩
  | enum =>
    obtain rfl := h.eq hform rfl
    obtain ⟨xs, rfl, hxs⟩ := hform
    constructor
    · rintro hall _ ⟨⟩
      obtain ⟨w, hw, hsame⟩ := hall _ rfl
      rcases List.mem_append.mp hw with hw | hw
      · exact ⟨w, hw, hsame⟩
      · obtain rfl := List.mem_singleton.mp hw
        exact absurd ((null_sameStrict_iff hx).mp hsame) hother
    · rintro hall _ ⟨⟩
      obtain ⟨w, hw, hsame⟩ := hall xs rfl
      exact ⟨w, List.mem_append_left _ hw, hsame⟩
  | _ => rw [Keyword.admittingNull_eq (by decide) (by decide)]

end Null

end Keywords

/-! ## Schemas -/

theorem contains_of_expand {props : Fields} {identity : Option Nat} {w : Value}
    (hmark : OrderedMap.contains props (.str "nullable") = false)
    (hw : expand (.map props identity) = .ok w) :
    ∃ qs : Fields, w = .ofEntries qs ∧
      ∀ k, OrderedMap.contains qs k = OrderedMap.contains props k := by
  obtain ⟨qs, hqs, _⟩ := bind_eq_ok_iff.mp (by rwa [expand] at hw)
  have hall := NullTypes.EntriesExpand.of_ok hqs
  cases hw.symm.trans (NullTypes.expand_without_mark hmark hqs hall)
  refine ⟨qs, rfl, fun k => ?_⟩
  unfold OrderedMap.contains
  rcases NullTypes.rel_cases (hall.get? k) with ⟨hnone, hnone'⟩ | ⟨_, _, hsome, hsome', _⟩
  · rw [hnone, hnone']
  · rw [hsome, hsome']
    rfl

/-- The value of a keyword in a schema and in its checked form, where null may be admitted
besides. -/
def Keyword.Renders (describe : Describe) (marked : Bool) (kw : Keyword) (v u : Value) : Prop :=
  kw.PublishedForm describe v ∧ ∃ w, kw.Agrees describe v w ∧ u = admittingNullIf marked kw.name w

section Fields

variable {describe : Describe} {marked : Bool} {fields after : Fields} {kw : Keyword}
  {v u x : Value} {c : Checker}

theorem Keyword.Renders.form (h : kw.Renders describe marked v u) :
    kw.Form describe u ∧ u.Shown describe := by
  obtain ⟨hform, w, hw, rfl⟩ := h
  cases marked with
  | false => exact ⟨hw.form, hw.shown⟩
  | true => exact ⟨(hw.admittingNull hform).1, (hw.admittingNull hform).2.1⟩

theorem Keyword.Renders.inner (h : kw.Renders describe marked v u) {t : Value} (ht : kw.Inner u t) :
    Checkable describe t := by
  obtain ⟨hform, w, hw, rfl⟩ := h
  cases marked with
  | false => exact hw.inner t ht
  | true => exact hw.inner t ((hw.admittingNull hform).2.2 t ht)

variable (hrel : ∀ kw : Keyword, Option.Rel (kw.Renders describe marked)
  (OrderedMap.get? fields (.str kw.name)) (OrderedMap.get? after (.str kw.name)))
include hrel

theorem renders_of_get? (hu : OrderedMap.get? after (.str kw.name) = some u) :
    ∃ v, OrderedMap.get? fields (.str kw.name) = some v ∧ kw.Renders describe marked v u := by
  rcases NullTypes.rel_cases (hrel kw) with ⟨_, hnone⟩ | ⟨v, u', hv, hu', hrenders⟩
  · cases hnone.symm.trans hu
  · cases hu'.symm.trans hu
    exact ⟨v, hv, hrenders⟩

theorem checkable_of_renders (htidy : Tidy after) : Checkable describe (.ofEntries after) := by
  refine .intro htidy.separate htidy.text (fun kw u hu => ?_) fun kw u t hu ht => ?_
  · obtain ⟨v, _, hrenders⟩ := renders_of_get? hrel hu
    exact hrenders.form.1
  · obtain ⟨v, _, hrenders⟩ := renders_of_get? hrel hu
    exact hrenders.inner ht

theorem describesKeys_of_renders : DescribesKeys fields after := by
  rcases NullTypes.rel_cases (hrel .properties) with
    ⟨hnone, hnone'⟩ | ⟨v, u, hv, hu, hform, w, hw, rfl⟩
  · have hv : OrderedMap.get? fields (.str "properties") = none := hnone
    have hu : OrderedMap.get? after (.str "properties") = none := hnone'
    refine ⟨[], none, by rw [hu]; rfl, fun k => ?_⟩
    unfold described
    rw [hv]
  · obtain ⟨props, identity, rfl, hkeys⟩ := hform
    have hv' : OrderedMap.get? fields (.str "properties") = some (.map props identity) := hv
    have hu' : OrderedMap.get? after (.str "properties") = some w := by
      rw [admittingNullIf_of_ne (by decide) (by decide)] at hu
      exact hu
    obtain ⟨qs, rfl, hsame⟩ := contains_of_expand (not_contains_mark hkeys) hw.expand
    refine ⟨qs, none, by rw [hu']; rfl, fun k => ?_⟩
    unfold described
    rw [hv']
    exact hsame k

/-- Null passes the checked form of a schema that is marked; any other datum, and null where there
is no mark, passes each keyword as it meets it in the schema itself. -/
theorem holds_iff_of_renders
    (hsingle : marked = true → OrderedMap.get? fields (.str "oneOf") = none)
    (hc : c.describe = describe) (hx : x.IsJson) :
    (∀ (kw : Keyword) u, OrderedMap.get? after (.str kw.name) = some u →
      c.KeywordHolds after kw u x) ↔ (marked = true ∧ x = .null) ∨
        ∀ (kw : Keyword) v, OrderedMap.get? fields (.str kw.name) = some v →
          meets Value.allDistinct fields kw (reading Value.allDistinct v) x = true := by
  have hkeys := describesKeys_of_renders hrel
  by_cases hnull : marked = true ∧ x = .null
  · obtain ⟨rfl, rfl⟩ := hnull
    refine iff_of_true (fun kw u hu => ?_) (.inl ⟨rfl, rfl⟩)
    obtain ⟨v, hv, hform, w, hw, rfl⟩ := renders_of_get? hrel hu
    refine hw.holds_null hform hc ?_ hkeys
    rintro rfl
    cases (hsingle rfl).symm.trans hv
  · rw [or_iff_right hnull]
    have hsame : ∀ {kw : Keyword} {v w : Value}, kw.PublishedForm describe v →
        kw.Agrees describe v w → (c.KeywordHolds after kw (admittingNullIf marked kw.name w) x ↔
          meets Value.allDistinct fields kw (reading Value.allDistinct v) x = true) := by
      intro kw v w hform hw
      refine Iff.trans ?_ (hw.holds c fields after x hc hx hkeys)
      cases marked with
      | false => exact Iff.rfl
      | true => exact hw.holds_other hform hx fun heq => hnull ⟨rfl, heq⟩
    constructor
    · intro hall kw v hv
      rcases NullTypes.rel_cases (hrel kw) with ⟨hnone, _⟩ | ⟨v', u, hv', hu, hform, w, hw, rfl⟩
      · cases hnone.symm.trans hv
      · cases hv'.symm.trans hv
        exact (hsame hform hw).mp (hall kw _ hu)
    · intro hall kw u hu
      obtain ⟨v, hv, hform, w, hw, rfl⟩ := renders_of_get? hrel hu
      exact (hsame hform hw).mpr (hall kw v hv)

end Fields

/-- Every published schema has a checked form that accepts what satisfies it. -/
theorem Published.translates {describe : Describe} {v : Value} (h : Published describe v) :
    ∃ w, Translates describe v w := by
  induction h with
  | @intro fields identity marked htidy hmark hsingle hform hothers hinner ih =>
    have hagrees : ∀ (kw : Keyword) v, OrderedMap.get? fields (.str kw.name) = some v →
        ∃ w, kw.Agrees describe v w :=
      fun kw v hv => (hform kw v hv).agrees fun u hu => ih kw v u hv hu
    have hexpands : ∀ e ∈ fields, Expands e.2 := by
      intro e he
      obtain ⟨s, hs⟩ := htidy.text e he
      have hget : OrderedMap.get? fields (.str s) = some e.2 :=
        htidy.separate.get? he (by rw [hs]; exact Atom.beq_str_iff.mpr rfl)
      cases hname : Keyword.ofName? s with
      | none => exact NullTypes.expand_unmarked (hothers s e.2 hget hname).1
      | some kw =>
        rw [Keyword.eq_name_of_ofName? hname] at hget
        obtain ⟨w, hw⟩ := hagrees kw e.2 hget
        exact ⟨w, hw.expand⟩
    have hmark' : OrderedMap.getD fields (.str "nullable") .null =
        if marked then .bool true else .null := by
      unfold OrderedMap.getD
      rw [hmark]
      cases marked <;> rfl
    have henum : ∀ v, OrderedMap.get? fields (.str "enum") = some v →
        ∃ xs, v = .list xs ∧ (∀ x ∈ xs, ∃ a, x = .atom a) ∧ Value.null.isIn xs = false := by
      intro v hv
      obtain ⟨xs, rfl, hxs⟩ := hform .enum v hv
      refine ⟨xs, rfl, fun x hx => (hxs x hx).atom, ?_⟩
      unfold Value.isIn
      rw [List.any_eq_false]
      exact fun x hx => by simp [(hxs x hx).not_null.2.1]
    obtain ⟨after, hafter, htidy', hget⟩ := @NullTypes.expand_fields fields marked identity htidy
      hexpands hmark' henum
    have hrel : ∀ kw : Keyword, Option.Rel (kw.Renders describe marked)
        (OrderedMap.get? fields (.str kw.name)) (OrderedMap.get? after (.str kw.name)) := by
      intro kw
      have hname : kw.name ≠ "nullable" := fun hkw =>
        Keyword.not_common kw (by rw [hkw]; decide)
      rcases NullTypes.rel_cases (hget kw.name hname) with
        ⟨hnone, hnone'⟩ | ⟨v, u, hv, hu, w, hw, rfl⟩
      · rw [hnone, hnone']
        exact .none
      · rw [hv, hu]
        obtain ⟨w', hagrees⟩ := hagrees kw v hv
        cases hw.symm.trans hagrees.expand
        exact .some ⟨hform kw v hv, w, hagrees, rfl⟩
    -- What is no keyword is shown in the checked form as before.
    have hothers' : ∀ s u, OrderedMap.get? after (.str s) = some u → Keyword.ofName? s = none →
        u.Shown describe := by
      intro s u hu hname
      have hmarkless : s ≠ "nullable" := by
        rintro rfl
        obtain ⟨_, ⟨⟩, hshows⟩ := NullTypes.expand_map hafter
        cases (hshows.absent _ (.inr rfl)).symm.trans hu
      have hkeyword : ∀ kw : Keyword, s ≠ kw.name := by
        rintro kw rfl
        cases (Keyword.ofName?_name kw).symm.trans hname
      rcases NullTypes.rel_cases (hget s hmarkless) with ⟨_, hnone⟩ | ⟨v, _, hv, hu', w, hw, rfl⟩
      · cases hnone.symm.trans hu
      · cases hu'.symm.trans hu
        obtain ⟨hunmarked, hshown⟩ := hothers s v hv hname
        rw [admittingNullIf_of_ne (hkeyword .type) (hkeyword .enum)]
        unfold Shown
        rwa [NullTypes.quoted_expand_unmarked hunmarked hw]
    refine ⟨_, hafter, checkable_of_renders hrel htidy', ?_, fun c x hc hx => ?_⟩
    · refine Value.shown_map (fun e he => ?_) fun e he => ?_
      · obtain ⟨s, hs⟩ := htidy'.text e he
        rw [hs]
        exact ⟨_, rfl⟩
      · obtain ⟨s, hs⟩ := htidy'.text e he
        have hfound : OrderedMap.get? after (.str s) = some e.2 :=
          htidy'.separate.get? he (by rw [hs]; exact Atom.beq_str_iff.mpr rfl)
        cases hname : Keyword.ofName? s with
        | some kw =>
          rw [Keyword.eq_name_of_ofName? hname] at hfound
          obtain ⟨v, _, hrenders⟩ := renders_of_get? hrel hfound
          exact hrenders.form.2
        | none => exact hothers' s e.2 hfound hname
    · have hnullable : isNullable fields = marked := by
        unfold isNullable
        rw [hmark]
        cases marked <;> rfl
      have hchecks : Checkable describe (.map after none) := checkable_of_renders hrel htidy'
      rw [OpenApi.satisfies_iff htidy, hnullable, ← holds_iff_of_renders hrel hsingle hc hx]
      subst hc
      exact hchecks.accepts_iff hx

end WireShape
