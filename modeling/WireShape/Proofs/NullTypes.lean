import WireShape.NullTypes
import WireShape.Proofs.Keys
import WireShape.Proofs.Runs

/-!
# Checked forms of schemas

The checked form of a mapping has the entries of the mapping, each in its checked form, without the
mark; a marked mapping admits null besides. A value in which nothing is marked always has a checked
form.

* `Value.Unmarked`: values without a mapping that has the key of the mark.
* `NullTypes.expand_unmarked`: such values have a checked form.
* `NullTypes.expand_map`: what is found in the checked form of a mapping.
* `NullTypes.expand_fields`: what is found in the checked form of a schema.
-/

namespace WireShape

open Value (Fields)

/-- Values without a mapping that has the key of the mark. -/
inductive Value.Unmarked : Value → Prop
  | atom (a : Atom) : Unmarked (.atom a)
  | list {xs : List Value} (hxs : ∀ x ∈ xs, Unmarked x) : Unmarked (.list xs)
  | map {es : List (Atom × Value)} {identity : Option Nat}
      (hmark : OrderedMap.contains es (.str "nullable") = false) (hes : ∀ e ∈ es, Unmarked e.2) :
      Unmarked (.map es identity)
  | mediaType (schema examples : Value) : Unmarked (.mediaType schema examples)
  | requestBody (content description required : Value) :
      Unmarked (.requestBody content description required)
  | response (description content : Value) : Unmarked (.response description content)

namespace NullTypes

/-- A value has a checked form. -/
def Expands (v : Value) : Prop := ∃ w, expand v = .ok w

theorem expand_atom (a : Atom) : expand (.atom a) = .ok (.atom a) := rfl

/-! ## Lists and entries -/

theorem expandItems_ok {xs : List Value} (h : ∀ x ∈ xs, Expands x) :
    ∃ ys, expandItems xs = .ok ys ∧ List.Forall₂ (fun x y => expand x = .ok y) xs ys := by
  induction xs with
  | nil => exact ⟨[], rfl, .nil⟩
  | cons x xs ih =>
    obtain ⟨y, hy⟩ := h x List.mem_cons_self
    obtain ⟨ys, hys, hall⟩ := ih fun z hz => h z (List.mem_cons_of_mem _ hz)
    refine ⟨y :: ys, ?_, .cons hy hall⟩
    rw [expandItems, hy, hys]
    rfl

/-- An element of a list has its checked form at the same place. -/
theorem getElem?_expandItems {xs ys : List Value} (hys : expandItems xs = .ok ys) (i : Nat) :
    Option.Rel (fun x y => expand x = .ok y) xs[i]? ys[i]? := by
  induction xs generalizing ys i with
  | nil =>
    cases hys
    exact .none
  | cons x xs ih =>
    obtain ⟨y, hy, hrest⟩ := bind_eq_ok_iff.mp hys
    obtain ⟨rest, hitems, hpure⟩ := bind_eq_ok_iff.mp hrest
    cases hpure
    cases i with
    | zero => exact .some hy
    | succ i => exact ih hitems i

theorem expandItems_atoms {xs : List Value} (h : ∀ x ∈ xs, ∃ a, x = .atom a) :
    expandItems xs = .ok xs := by
  induction xs with
  | nil => rfl
  | cons x xs ih =>
    obtain ⟨a, rfl⟩ := h x List.mem_cons_self
    rw [expandItems, expand_atom, ih fun z hz => h z (List.mem_cons_of_mem _ hz)]
    rfl

theorem expand_atoms {xs : List Value} (h : ∀ x ∈ xs, ∃ a, x = .atom a) :
    expand (.list xs) = .ok (.list xs) := by
  rw [expand, expandItems_atoms h]
  rfl

theorem rel_cases {α β : Type} {R : α → β → Prop} {a : Option α} {b : Option β}
    (h : Option.Rel R a b) : a = none ∧ b = none ∨ ∃ v w, a = some v ∧ b = some w ∧ R v w := by
  cases h with
  | none => exact .inl ⟨rfl, rfl⟩
  | some hR => exact .inr ⟨_, _, rfl, rfl, hR⟩

/-- Entries and their checked forms. -/
abbrev EntriesExpand : Fields → Fields → Prop :=
  List.Forall₂ fun e g => g.1 = e.1 ∧ expand e.2 = .ok g.2

theorem expandEntries_ok {fields : Fields} (h : ∀ e ∈ fields, Expands e.2) :
    ∃ gs, expandEntries fields = .ok gs ∧ EntriesExpand fields gs := by
  induction fields with
  | nil => exact ⟨[], rfl, .nil⟩
  | cons e fields ih =>
    obtain ⟨k, v⟩ := e
    obtain ⟨w, hw⟩ := h (k, v) List.mem_cons_self
    obtain ⟨gs, hgs, hall⟩ := ih fun e he => h e (List.mem_cons_of_mem _ he)
    have hv : expand v = .ok w := hw
    refine ⟨(k, w) :: gs, ?_, .cons ⟨rfl, hw⟩ hall⟩
    rw [expandEntries, hv, hgs]
    rfl

theorem EntriesExpand.of_ok {fields gs : Fields} (h : expandEntries fields = .ok gs) :
    EntriesExpand fields gs := by
  induction fields generalizing gs with
  | nil =>
    cases h
    exact .nil
  | cons e fields ih =>
    obtain ⟨w, hw, hrest⟩ := bind_eq_ok_iff.mp h
    obtain ⟨rest, hfields, hpure⟩ := bind_eq_ok_iff.mp hrest
    cases hpure
    exact .cons ⟨rfl, hw⟩ (ih hfields)

theorem EntriesExpand.get? {fields gs : Fields} (h : EntriesExpand fields gs) (k : Atom) :
    Option.Rel (fun v w => expand v = .ok w) (OrderedMap.get? fields k) (OrderedMap.get? gs k) := by
  induction h with
  | nil => exact .none
  | @cons e g fields gs hhead _ ih =>
    rw [OrderedMap.get?_cons, OrderedMap.get?_cons, hhead.1]
    split
    · exact .some hhead.2
    · exact ih

theorem EntriesExpand.mem {fields gs : Fields} (h : EntriesExpand fields gs) {g : Atom × Value}
    (hg : g ∈ gs) : ∃ e ∈ fields, g.1 = e.1 ∧ expand e.2 = .ok g.2 := forall₂_right h hg

theorem EntriesExpand.separate {fields gs : Fields} (h : EntriesExpand fields gs)
    (hseparate : OrderedMap.Separate fields) : OrderedMap.Separate gs :=
  hseparate.of_keys (h.imp fun _ _ hentry => hentry.1.symm)

/-! ## Marks -/

theorem remove_eq {fields : Fields} {name : String}
    (h : OrderedMap.contains fields (.str name) = false) : fields.remove name = fields := by
  refine List.filter_eq_self.mpr fun e he => ?_
  have hkey : (e.1 == Atom.str name) = false := by
    refine Bool.eq_false_iff.mpr fun hkey => ?_
    rw [OrderedMap.contains_iff.mpr ⟨e, he, hkey⟩] at h
    cases h
  rw [hkey]
  rfl

/-- A mapping without mark keeps its entries. -/
theorem expand_without_mark {fields gs : Fields} {identity : Option Nat}
    (hmark : OrderedMap.contains fields (.str "nullable") = false)
    (hgs : expandEntries fields = .ok gs) (hall : EntriesExpand fields gs) :
    expand (.map fields identity) = .ok (.ofEntries gs) := by
  have hmark' : OrderedMap.get? gs (.str "nullable") = none := by
    rw [OrderedMap.contains, Option.isSome_eq_false_iff, Option.isNone_iff_eq_none] at hmark
    rcases rel_cases (hall.get? (.str "nullable")) with ⟨_, hnone⟩ | ⟨v, _, hsome, _, _⟩
    · exact hnone
    · rw [hmark] at hsome
      cases hsome
  have hresolve : resolveMark gs = .ok gs := by
    unfold resolveMark OrderedMap.getD
    rw [hmark', remove_eq (by rw [OrderedMap.contains, hmark']; rfl)]
    rfl
  rw [expand, hgs]
  simp only [bind, Except.bind, hresolve]
  rfl

/-- A value in which nothing is marked has a checked form. -/
theorem expand_unmarked {v : Value} (h : v.Unmarked) : Expands v := by
  induction h with
  | list _ ih =>
    obtain ⟨ys, hys, _⟩ := expandItems_ok ih
    exact ⟨.list ys, by rw [expand, hys]; rfl⟩
  | map hmark _ ih =>
    obtain ⟨gs, hgs, hall⟩ := expandEntries_ok ih
    exact ⟨_, expand_without_mark hmark hgs hall⟩
  | _ => exact ⟨_, rfl⟩

theorem quotedItems_congr {describe : Describe} {xs ys : List Value}
    (h : List.Forall₂ (fun x y => y.quoted describe = x.quoted describe) xs ys) :
    Value.quotedItems describe ys = Value.quotedItems describe xs := by
  induction h with
  | nil => rfl
  | cons hhead _ ih => rw [Value.quotedItems, Value.quotedItems, hhead, ih]

theorem quotedEntries_congr {describe : Describe} {es fs : Fields}
    (h : List.Forall₂ (fun e f => f.1 = e.1 ∧ f.2.quoted describe = e.2.quoted describe) es fs) :
    Value.quotedEntries describe fs = Value.quotedEntries describe es := by
  induction h with
  | nil => rfl
  | cons hhead _ ih => rw [Value.quotedEntries, Value.quotedEntries, hhead.1, hhead.2, ih]

/-- The checked form of a value in which nothing is marked is shown like the value. -/
theorem quoted_expand_unmarked {v w : Value} {describe : Describe} (h : v.Unmarked)
    (hw : expand v = .ok w) : w.quoted describe = v.quoted describe := by
  induction h generalizing w with
  | @list xs hxs ih =>
    obtain ⟨ys, hys, hall⟩ := expandItems_ok fun x hx => expand_unmarked (hxs x hx)
    rw [expand, hys] at hw
    cases hw
    rw [Value.quoted, Value.quoted, quotedItems_congr (forall₂_imp_mem (fun x hx y => ih x hx) hall)]
  | @map es identity hmark hes ih =>
    obtain ⟨gs, hgs, hall⟩ := expandEntries_ok fun e he => expand_unmarked (hes e he)
    cases (expand_without_mark hmark hgs hall).symm.trans hw
    rw [Value.quoted, Value.quoted, quotedEntries_congr
      (forall₂_imp_mem (fun e he _ hfound => ⟨hfound.1, ih e he hfound.2⟩) hall)]
  | _ =>
    cases hw
    rfl

/-! ## Mappings -/

/-- Fields that show what others show, but for a type and for a list of choices. -/
structure Keeps (fields after : Fields) : Prop where
  absent : ∀ k, OrderedMap.get? fields k = none → OrderedMap.get? after k = none
  found : ∀ k v, OrderedMap.get? fields k = some v →
    v.isMap = true ∨ (Atom.str "type" == k) = false ∧ (Atom.str "enum" == k) = false →
      OrderedMap.get? after k = some v

theorem Keeps.refl {fields : Fields} : Keeps fields fields := ⟨fun _ h => h, fun _ _ h _ => h⟩

theorem Keeps.trans {fields middle after : Fields} (h : Keeps fields middle)
    (h' : Keeps middle after) : Keeps fields after :=
  ⟨fun k hk => h'.absent k (h.absent k hk), fun k v hv hkept => h'.found k v (h.found k v hv hkept) hkept⟩

/-- A type or a list of choices is written over. -/
theorem Keeps.set {fields : Fields} {name : String} {u v : Value}
    (hu : OrderedMap.get? fields (.str name) = some u) (hname : name = "type" ∨ name = "enum")
    (hv : u.isMap = true → v = u) : Keeps fields (fields.set name v) := by
  refine ⟨fun k hk => ?_, fun k w hw hkept => ?_⟩
  · unfold Fields.set
    rw [OrderedMap.get?_insert]
    split
    · rename_i hsame
      rw [OrderedMap.get?_congr hsame, hk] at hu
      cases hu
    · exact hk
  · unfold Fields.set
    rw [OrderedMap.get?_insert]
    split
    · rename_i hsame
      rw [OrderedMap.get?_congr hsame, hw] at hu
      cases hu
      rcases hkept with hmap | ⟨htype, henum⟩
      · rw [hv hmap]
      · rcases hname with rfl | rfl
        · exact absurd (hsame.symm.trans htype) Bool.noConfusion
        · exact absurd (hsame.symm.trans henum) Bool.noConfusion
    · exact hw

/-- The fields with null beside a single type. -/
def withNullType (fields : Fields) : Fields :=
  match OrderedMap.get? fields (.str "type") with
  | some (.str name) => fields.set "type" (.list [.str name, .str "null"])
  | _ => fields

theorem admitNull_eq {fields : Fields} : admitNull fields =
    match OrderedMap.get? (withNullType fields) (.str "enum") with
    | some choices => do
      return (withNullType fields).set "enum" (← withNullChoice choices)
    | none => .ok (withNullType fields) := rfl

theorem withNullChoice_map {choices v : Value} (hmap : choices.isMap = true)
    (h : withNullChoice choices = .ok v) : v = choices := by
  cases choices with
  | map es identity =>
    obtain ⟨held, _, hrest⟩ := bind_eq_ok_iff.mp h
    cases held with
    | true =>
      cases hrest
      rfl
    | false => cases hrest
  | _ => cases hmap

theorem admitNull_keeps {fields after : Fields} (h : admitNull fields = .ok after) :
    Keeps fields after := by
  rw [admitNull_eq] at h
  have htype : Keeps fields (withNullType fields) := by
    unfold withNullType
    split
    · rename_i ht
      exact .set ht (.inl rfl) nofun
    · exact .refl
  split at h
  · rename_i hchoices
    obtain ⟨v, hv, hpure⟩ := bind_eq_ok_iff.mp h
    cases hpure
    exact htype.trans (.set hchoices (.inr rfl) fun hmap => withNullChoice_map hmap hv)
  · cases h
    exact htype

/-- What is found in the checked form of fields: in its own checked form whatever is found in them,
but for the mark; a type and a list of choices may admit null besides. -/
structure ShowsExpanded (fields after : Fields) : Prop where
  absent : ∀ k, OrderedMap.get? fields k = none ∨ (Atom.str "nullable" == k) = true →
    OrderedMap.get? after k = none
  found : ∀ k v, OrderedMap.get? fields k = some v → (Atom.str "nullable" == k) = false →
    ∃ w, expand v = .ok w ∧
      (w.isMap = true ∨ (Atom.str "type" == k) = false ∧ (Atom.str "enum" == k) = false →
        OrderedMap.get? after k = some w)

theorem expand_map {fields : Fields} {identity : Option Nat} {v : Value}
    (h : expand (.map fields identity) = .ok v) :
    ∃ after, v = .ofEntries after ∧ ShowsExpanded fields after := by
  rw [expand] at h
  obtain ⟨gs, hgs, hrest⟩ := bind_eq_ok_iff.mp h
  obtain ⟨after, hafter, hpure⟩ := bind_eq_ok_iff.mp hrest
  cases hpure
  have hkeeps : Keeps (Fields.remove gs "nullable") after := by
    unfold resolveMark at hafter
    dsimp only at hafter
    split at hafter
    · exact admitNull_keeps hafter
    · cases hafter
      exact .refl
  have hall := EntriesExpand.of_ok hgs
  refine ⟨after, rfl, fun k hk => hkeeps.absent k ?_, fun k u hu hmark => ?_⟩
  · unfold Fields.remove
    cases hmark : Atom.str "nullable" == k with
    | true => rw [← OrderedMap.get?_congr hmark, OrderedMap.get?_erase_self]
    | false =>
      rw [OrderedMap.get?_erase_of_ne hmark]
      rcases rel_cases (hall.get? k) with ⟨_, hnone⟩ | ⟨_, _, hsome, _⟩
      · exact hnone
      · rcases hk with hnone | hsame
        · cases hnone.symm.trans hsome
        · cases hsame.symm.trans hmark
  · rcases rel_cases (hall.get? k) with ⟨hnone, _⟩ | ⟨_, w, hsome, hgot, hexpand⟩
    · cases hnone.symm.trans hu
    · cases hsome.symm.trans hu
      refine ⟨w, hexpand, hkeeps.found k w ?_⟩
      rw [Fields.remove, OrderedMap.get?_erase_of_ne hmark]
      exact hgot

/-! ## Schemas -/

/-- What a keyword says where null is admitted besides. -/
def admittingNull (name : String) (v : Value) : Value :=
  match v with
  | .str t => if name = "type" then .list [.str t, .str "null"] else .str t
  | .list xs => if name = "enum" then .list (xs ++ [.null]) else .list xs
  | v => v

/-- What a keyword says in the checked form. -/
def admittingNullIf (marked : Bool) (name : String) (v : Value) : Value :=
  if marked then admittingNull name v else v

theorem admittingNull_of_ne {name : String} {v : Value} (htype : name ≠ "type")
    (henum : name ≠ "enum") : admittingNull name v = v := by
  unfold admittingNull
  split
  · rw [if_neg htype]
  · rw [if_neg henum]
  · rfl

theorem withNullChoice_list {xs : List Value} (h : Value.null.isIn xs = false) :
    withNullChoice (.list xs) = .ok (.list (xs ++ [.null])) := by
  have hholds : (Value.list xs).holds .null = .ok (Value.null.isIn xs) := rfl
  unfold withNullChoice
  rw [hholds, h]
  rfl

variable {fields : Fields} {name : String}

/-- Fields under text keys, no two of which are the same. -/
structure Tidy (fields : Fields) : Prop where
  separate : OrderedMap.Separate fields
  text : ∀ e ∈ fields, ∃ s, e.1 = .str s

theorem Tidy.nil : Tidy [] := ⟨.nil, fun _ he => by cases he⟩

theorem Tidy.insert {k : Atom} {v : Value} (h : Tidy fields) (hk : ∃ s, k = .str s) :
    Tidy (OrderedMap.insert fields k v) := by
  refine ⟨h.separate.insert, fun e he => ?_⟩
  rcases OrderedMap.mem_insert he with hold | ⟨_, hkey | ⟨⟨b, hb⟩, _⟩⟩
  · exact h.text e hold
  · rw [hkey]
    exact hk
  · exact h.text (e.1, b) hb

theorem Tidy.set {v : Value} (h : Tidy fields) : Tidy (fields.set name v) := h.insert ⟨name, rfl⟩

theorem Tidy.remove (h : Tidy fields) : Tidy (fields.remove name) :=
  ⟨h.separate.filter _, fun e he => h.text e (List.mem_of_mem_filter he)⟩

/-- Tidy fields whose entries have a property. -/
structure Each (E : String → Value → Prop) (fields : Fields) : Prop extends Tidy fields where
  entries : ∀ e ∈ fields, ∀ s, e.1 = .str s → E s e.2

namespace Each

variable {E : String → Value → Prop} {later : Fields} {v : Value}

theorem nil : Each E [] := ⟨.nil, fun _ he => by cases he⟩

theorem insert {k : Atom} (h : Each E fields) (hk : k = .str name) (hv : E name v) :
    Each E (OrderedMap.insert fields k v) := by
  refine ⟨h.toTidy.insert ⟨name, hk⟩, fun e he s hs => ?_⟩
  rcases OrderedMap.mem_insert he with hold | ⟨hvalue, hkey⟩
  · exact h.entries e hold s hs
  · have hname : s = name := by
      rcases hkey with hkey | ⟨_, hsame⟩
      · exact Atom.str.inj (hs.symm.trans (hkey.trans hk))
      · rw [hs, hk] at hsame
        exact Atom.str.inj (Atom.beq_str_iff.mp hsame)
    rw [hvalue, hname]
    exact hv

theorem set (h : Each E fields) (hv : E name v) : Each E (fields.set name v) := h.insert rfl hv

theorem merge (h : Each E fields) (h' : Each E later) : Each E (fields.merge later) := by
  have hall : ∀ es : Fields, (∀ e ∈ es, ∃ s, e.1 = .str s ∧ E s e.2) →
      ∀ fields : Fields, Each E fields → Each E (fields.merge es) := by
    intro es
    induction es with
    | nil => exact fun _ _ hfields => hfields
    | cons e es ih =>
      intro hes fields hfields
      obtain ⟨s, hkey, hvalue⟩ := hes e List.mem_cons_self
      exact ih (fun e' he' => hes e' (List.mem_cons_of_mem _ he')) _ (hfields.insert hkey hvalue)
  refine hall later (fun e he => ?_) fields h
  obtain ⟨s, hs⟩ := h'.text e he
  exact ⟨s, hs, h'.entries e he s hs⟩

theorem remove (h : Each E fields) : Each E (fields.remove name) :=
  ⟨h.toTidy.remove, fun e he => h.entries e (List.mem_of_mem_filter he)⟩

theorem ite {chosen : Prop} [Decidable chosen] (h : Each E fields) (h' : Each E later) :
    Each E (if chosen then fields else later) := by
  split
  · exact h
  · exact h'

theorem mono {E' : String → Value → Prop} (h : Each E fields) (hE : ∀ s v, E s v → E' s v) :
    Each E' fields := ⟨h.toTidy, fun e he s hs => hE s e.2 (h.entries e he s hs)⟩

theorem get? (h : Each E fields) (hv : OrderedMap.get? fields (.str name) = some v) : E name v := by
  obtain ⟨k, hmem, hk⟩ := OrderedMap.mem_of_get? hv
  exact h.entries _ hmem name (Atom.beq_str_iff.mp hk)

end Each

theorem get?_set {v : Value} {other : String} : OrderedMap.get? (fields.set name v) (.str other) =
    if name = other then some v else OrderedMap.get? fields (.str other) := by
  unfold Fields.set
  rw [OrderedMap.get?_insert]
  by_cases hname : name = other
  · rw [if_pos hname, hname, if_pos (Atom.beq_str_iff.mpr rfl)]
  · rw [if_neg hname, if_neg]
    exact fun heq => hname (Atom.str.inj (Atom.beq_str_iff.mp heq))

theorem withNullType_tidy (h : Tidy fields) : Tidy (withNullType fields) := by
  unfold withNullType
  split
  · exact h.set
  · exact h

theorem withNullType_get? : OrderedMap.get? (withNullType fields) (.str name) =
    if name = "type" then (OrderedMap.get? fields (.str name)).map (admittingNull name)
    else OrderedMap.get? fields (.str name) := by
  unfold withNullType
  split
  · rename_i t ht
    rw [get?_set]
    by_cases hname : name = "type"
    · rw [if_pos hname.symm, if_pos hname, hname, ht]
      rfl
    · rw [if_neg (Ne.symm hname), if_neg hname]
  · rename_i hnot
    split
    · rename_i hname
      subst hname
      cases hget : OrderedMap.get? fields (.str "type") with
      | none => rfl
      | some v =>
        have hsame : admittingNull "type" v = v := by
          unfold admittingNull
          split
          · exact absurd hget (hnot _)
          · rfl
          · rfl
        rw [Option.map_some, hsame]
    · rfl

/-- What fields say after null has been admitted. -/
theorem admitNull_ok (h : Tidy fields)
    (henum : ∀ v, OrderedMap.get? fields (.str "enum") = some v →
      ∃ xs, v = .list xs ∧ Value.null.isIn xs = false) :
    ∃ after, admitNull fields = .ok after ∧ Tidy after ∧ ∀ name,
      OrderedMap.get? after (.str name) =
        (OrderedMap.get? fields (.str name)).map (admittingNull name) := by
  have hothers : ∀ name, name ≠ "enum" → OrderedMap.get? (withNullType fields) (.str name) =
      (OrderedMap.get? fields (.str name)).map (admittingNull name) := by
    intro name hother
    rw [withNullType_get?]
    by_cases hname : name = "type"
    · rw [if_pos hname]
    · rw [if_neg hname]
      cases OrderedMap.get? fields (.str name) with
      | none => rfl
      | some v => rw [Option.map_some, admittingNull_of_ne hname hother]
  have hchoices : OrderedMap.get? (withNullType fields) (.str "enum") =
      OrderedMap.get? fields (.str "enum") := withNullType_get?.trans (if_neg (by decide))
  rw [admitNull_eq, hchoices]
  cases hget : OrderedMap.get? fields (.str "enum") with
  | none =>
    refine ⟨_, rfl, withNullType_tidy h, fun name => ?_⟩
    by_cases hother : name = "enum"
    · rw [hother, hchoices, hget]
      rfl
    · exact hothers name hother
  | some v =>
    obtain ⟨xs, rfl, hnull⟩ := henum v hget
    simp only [withNullChoice_list hnull, bind, Except.bind, pure, Except.pure]
    refine ⟨_, rfl, (withNullType_tidy h).set, fun name => ?_⟩
    rw [get?_set]
    by_cases hother : name = "enum"
    · rw [if_pos hother.symm, hother, hget]
      rfl
    · rw [if_neg (Ne.symm hother)]
      exact hothers name hother

/-- The checked form of a schema: each keyword says there what it says in its own checked form, with
null besides if the schema is marked. -/
theorem expand_fields {marked : Bool} {identity : Option Nat} (h : Tidy fields)
    (hes : ∀ e ∈ fields, Expands e.2)
    (hmark : (OrderedMap.getD fields (.str "nullable") .null) = if marked then .bool true else .null)
    (henum : ∀ v, OrderedMap.get? fields (.str "enum") = some v →
      ∃ xs, v = .list xs ∧ (∀ x ∈ xs, ∃ a, x = .atom a) ∧ Value.null.isIn xs = false) :
    ∃ after, expand (.map fields identity) = .ok (.ofEntries after) ∧ Tidy after ∧
      ∀ name, name ≠ "nullable" → Option.Rel
        (fun v w => ∃ u, expand v = .ok u ∧ w = admittingNullIf marked name u)
        (OrderedMap.get? fields (.str name)) (OrderedMap.get? after (.str name)) := by
  obtain ⟨gs, hgs, hall⟩ := expandEntries_ok hes
  have htidy : Tidy gs := by
    refine ⟨hall.separate h.separate, fun g hg => ?_⟩
    obtain ⟨e, he, hkey, _⟩ := hall.mem hg
    rw [hkey]
    exact h.text e he
  have hmarked : (OrderedMap.getD gs (.str "nullable") .null).truthy = marked := by
    have hrel := hall.get? (.str "nullable")
    unfold OrderedMap.getD at hmark ⊢
    rcases rel_cases hrel with ⟨hfields, hgs⟩ | ⟨v, w, hfields, hgs, hexpand⟩
    · rw [hfields] at hmark
      rw [hgs]
      cases marked with
      | false => rfl
      | true => cases hmark
    · rw [hfields] at hmark
      have hv : v = if marked then .bool true else .null := hmark
      subst hv
      rw [hgs]
      cases marked with
      | false =>
        cases hexpand
        rfl
      | true =>
        cases hexpand
        rfl
  have hget : ∀ name, name ≠ "nullable" → Option.Rel (fun v w => expand v = .ok w)
      (OrderedMap.get? fields (.str name)) (OrderedMap.get? (Fields.remove gs "nullable") (.str name)) := by
    intro name hname
    have hrel := hall.get? (.str name)
    unfold Fields.remove
    rw [OrderedMap.get?_erase_of_ne]
    · exact hrel
    · exact Bool.eq_false_iff.mpr fun heq => hname (Atom.str.inj (Atom.beq_str_iff.mp heq)).symm
  have hresolve : ∃ after, resolveMark gs = .ok after ∧ Tidy after ∧ ∀ name, name ≠ "nullable" →
      OrderedMap.get? after (.str name) =
        (OrderedMap.get? (Fields.remove gs "nullable") (.str name)).map (admittingNullIf marked name) := by
    unfold resolveMark
    rw [hmarked]
    cases marked with
    | false =>
      refine ⟨_, rfl, htidy.remove, fun name _ => ?_⟩
      cases OrderedMap.get? (Fields.remove gs "nullable") (.str name) <;> rfl
    | true =>
      obtain ⟨after, hafter, htidy', hlookup⟩ := admitNull_ok htidy.remove (fun v hv => by
        have hrel := hget "enum" (by decide)
        rw [hv] at hrel
        cases hfields : OrderedMap.get? fields (.str "enum") with
        | none =>
          rw [hfields] at hrel
          cases hrel
        | some u =>
          obtain ⟨xs, rfl, hatoms, hnull⟩ := henum u hfields
          rw [hfields] at hrel
          cases hrel with
          | some hexpand =>
            rw [expand_atoms hatoms] at hexpand
            cases hexpand
            exact ⟨xs, rfl, hnull⟩)
      exact ⟨after, hafter, htidy', fun name _ => hlookup name⟩
  obtain ⟨after, hafter, htidy', hlookup⟩ := hresolve
  refine ⟨after, ?_, htidy', fun name hname => ?_⟩
  · rw [expand, hgs]
    simp only [bind, Except.bind, hafter]
    rfl
  · rw [hlookup name hname]
    rcases rel_cases (hget name hname) with ⟨hfields, hgs⟩ | ⟨v, w, hfields, hgs, hexpand⟩
    · rw [hfields, hgs]
      exact .none
    · rw [hfields, hgs]
      exact .some ⟨w, hexpand, rfl⟩

end NullTypes

end WireShape
