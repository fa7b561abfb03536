import Mathlib.Data.List.Perm.Basic
import Mathlib.Data.String.Basic
import WireShape.Proofs.Equality
import WireShape.Proofs.Json.Marks
import WireShape.Proofs.Sorting

/-!
# Values with the same JSON text

The compact text of a value, its keys sorted, shows the value but for the order of keys and the kinds
of its numbers. So the text by which shapes are compared is the same for two values if and only if
the values are the same key by key.

* `Value.Writable`: values that JSON has a form for.
* `Value.SameShape`: values that are the same but for the order of keys.
* `Json.writeAt_cancel`: equal texts are texts of values of the same shape.
* `Json.write_eq_iff`, `Json.canonical_eq_iff`: what it means that texts are equal.
-/

namespace WireShape

open Value (Fields)

namespace Value

/-- Values that JSON has a form for: of atoms with a text, under text keys that stand once. -/
inductive Writable : Value → Prop
  | atom {a : Atom} {text : String} (htext : Json.atomText? a = some text) (hne : text ≠ "") :
      Writable (atom a)
  | list {xs : List Value} (hxs : ∀ x ∈ xs, Writable x) : Writable (list xs)
  | map {es : List (Atom × Value)} {identity : Option Nat} (hkeys : ∀ e ∈ es, ∃ s, e.1 = .str s)
      (hseparate : OrderedMap.Separate es) (hes : ∀ e ∈ es, Writable e.2) :
      Writable (map es identity)

/-- Values that are the same but for the order of keys; atoms are the same if their texts are. -/
inductive SameShape : Value → Value → Prop
  | atom {a b : Atom} {text : String} (ha : Json.atomText? a = some text)
      (hb : Json.atomText? b = some text) : SameShape (atom a) (atom b)
  | list {xs ys : List Value} (h : List.Forall₂ SameShape xs ys) : SameShape (list xs) (list ys)
  | map {es fs : List (Atom × Value)} {i j : Option Nat}
      (h : ∀ k, Option.Rel SameShape (OrderedMap.get? es k) (OrderedMap.get? fs k)) :
      SameShape (map es i) (map fs j)

variable {es fs : List (Atom × Value)} {xs : List Value} {i : Option Nat} {v w : Value}

namespace Writable

theorem item (h : (Value.list xs).Writable) {x : Value} (hx : x ∈ xs) : x.Writable := by
  cases h with
  | list hxs => exact hxs x hx

theorem key (h : (Value.map es i).Writable) {e : Atom × Value} (he : e ∈ es) : ∃ s, e.1 = .str s := by
  cases h with
  | map hkeys _ _ => exact hkeys e he

theorem entry (h : (Value.map es i).Writable) {e : Atom × Value} (he : e ∈ es) : e.2.Writable := by
  cases h with
  | map _ _ hes => exact hes e he

theorem keyed (h : (Value.map es i).Writable) : Fields.Keyed es := by
  cases h with
  | map hkeys hseparate _ =>
    refine ⟨hseparate, fun e he => ?_⟩
    obtain ⟨s, hs⟩ := hkeys e he
    rw [hs]
    exact Atom.str_beq_iff.mpr rfl

theorem proper (h : v.Writable) : v.Proper := by
  induction h with
  | atom => exact .atom
  | list _ ih => exact .list ih
  | @map es identity hkeys hseparate hes ih =>
    exact .map (@Writable.map es identity hkeys hseparate hes).keyed ih

/-- A part of a mapping is as good as the mapping. -/
theorem filter {p : Atom × Value → Bool} {j : Option Nat} (h : (Value.map es i).Writable) :
    (Value.map (es.filter p) j).Writable := by
  cases h with
  | map hkeys hseparate hes =>
    exact .map (fun e he => hkeys e (List.mem_of_mem_filter he)) (hseparate.filter _)
      fun e he => hes e (List.mem_of_mem_filter he)

theorem withoutTitle (h : v.Writable) : (Json.withoutTitle v).Writable := by
  cases v with
  | map es i => exact h.filter
  | _ => exact h

/-- What JSON has a form for is of its own shape. -/
theorem sameShape_refl (h : v.Writable) : v.SameShape v := by
  induction h with
  | atom htext => exact .atom htext htext
  | list _ ih => exact .list (List.forall₂_same.mpr ih)
  | @map es _ _ _ _ ih =>
    refine .map fun k => ?_
    cases hget : OrderedMap.get? es k with
    | none => exact .none
    | some v =>
      obtain ⟨_, hmem, _⟩ := OrderedMap.mem_of_get? hget
      exact .some (ih _ hmem)

end Writable

end Value

namespace Json

open Value (Writable SameShape)

/-! ## Lists and mappings as text -/

section Values

variable {fallback : Fallback} {level level' : Nat} {xs ys : List Value} {es fs : Fields}
  {i j : Option Nat} {texts : List String} {text s t : String} {r r' : List Char} {v w : Value}

theorem writeItems_iff {layout : Layout} : writeItems layout fallback level xs = .ok texts ↔
    List.Forall₂ (fun x text => writeAt layout fallback level x = .ok text) xs texts := by
  induction xs generalizing texts with
  | nil =>
    rw [List.forall₂_nil_left_iff, writeItems]
    exact ⟨fun h => by cases h; rfl, fun h => by rw [h]⟩
  | cons x xs ih =>
    rw [writeItems, bind_eq_ok_iff]
    constructor
    · rintro ⟨text, htext, hrest⟩
      obtain ⟨rest, hitems, heq⟩ := bind_eq_ok_iff.mp hrest
      cases heq
      exact .cons htext (ih.mp hitems)
    · intro h
      cases h with
      | cons htext hrest => exact ⟨_, htext, bind_eq_ok_iff.mpr ⟨_, ih.mpr hrest, rfl⟩⟩

theorem writeAt_list_iff : writeAt compact fallback level (.list xs) = .ok text ↔
    ∃ texts, List.Forall₂ (fun x text => writeAt compact fallback (level + 1) x = .ok text) xs texts ∧
      text = compact.enclose level "[" "]" texts := by
  rw [writeAt, bind_eq_ok_iff]
  simp only [writeItems_iff]
  constructor
  · rintro ⟨texts, hall, heq⟩
    cases heq
    exact ⟨texts, hall, rfl⟩
  · rintro ⟨texts, hall, rfl⟩
    exact ⟨texts, hall, rfl⟩

/-- The text of an entry under a text key. -/
def EntryText (fallback : Fallback) (level : Nat) (e : Atom × Value) (text : String) : Prop :=
  ∃ s t, e.1 = .str s ∧ writeAt compact fallback level e.2 = .ok t ∧ text = quote s ++ ":" ++ t

/-- The text that a key is; empty for any other key. -/
def keyName : Atom → String
  | .str s => s
  | _ => ""

theorem writeEntries_eq {layout : Layout} : writeEntries layout fallback level es =
    es.map fun e => (e.1, writeAt layout fallback level e.2) := by
  induction es with
  | nil => rfl
  | cons e es ih => rw [writeEntries, ih, List.map_cons]

/-- A permutation of the images is the image of a permutation. -/
theorem exists_perm_of_map {α β : Type} {f : α → β} {xs : List α} {ys : List β}
    (h : ys.Perm (xs.map f)) : ∃ xs' : List α, xs'.Perm xs ∧ ys = xs'.map f := by
  have hrel : List.Forall₂ (fun y x => y = f x) (xs.map f) xs :=
    List.forall₂_map_left_iff.mpr (List.forall₂_same.mpr fun _ _ => rfl)
  obtain ⟨xs', hall, hperm⟩ := List.perm_comp_forall₂ h hrel
  have heq : List.Forall₂ Eq ys (xs'.map f) := List.forall₂_map_right_iff.mpr hall
  rw [List.forall₂_eq_eq_eq] at heq
  exact ⟨xs', hperm, heq⟩

/-- The entries of a mapping in an order in which the keys rise. -/
structure Arranged (es' es : Fields) : Prop where
  perm : es'.Perm es
  rises : RunSort.Rises (fun e : Atom × Value => keyName e.1) es'

/-- A mapping is written with its keys in their order. -/
theorem exists_arranged (hkeys : ∀ e ∈ es, ∃ s, e.1 = .str s) : ∃ es' : Fields, Arranged es' es ∧
    ∀ text, writeAt compact fallback level (.map es i) = .ok text ↔ ∃ texts,
      List.Forall₂ (EntryText fallback (level + 1)) es' texts ∧
        text = compact.enclose level "\x7b" "\x7d" texts := by
  let write (e : Atom × Value) := (e.1, writeAt compact fallback (level + 1) e.2)
  have hcompares : RunSort.ComparesBy (fun a b => keyBefore a.1 b.1)
      (fun e : Atom × Except Fault String => keyName e.1) (es.map write) := by
    intro x hx y hy
    obtain ⟨e, he, rfl⟩ := List.mem_map.mp hx
    obtain ⟨f, hf, rfl⟩ := List.mem_map.mp hy
    obtain ⟨s, hs⟩ := hkeys e he
    obtain ⟨t, ht⟩ := hkeys f hf
    have hanswer : keyBefore (.str s) (.str t) = .ok (decide (keyName (.str s) < keyName (.str t))) :=
      rfl
    change keyBefore e.1 f.1 = .ok (decide (keyName e.1 < keyName f.1))
    simpa only [hs, ht] using hanswer
  obtain ⟨sorted, hsorted, hrises⟩ := RunSort.sortRun?_sorted hcompares
  obtain ⟨es', hperm, rfl⟩ := exists_perm_of_map (RunSort.sortRun?_perm hsorted)
  rw [RunSort.Rises, List.pairwise_map] at hrises
  refine ⟨es', ⟨hperm, hrises⟩, fun text => ?_⟩
  have hentry : ∀ e ∈ es', ∀ text, (do
      return (← keyText (write e).1) ++ compact.keySeparator ++ (← (write e).2)) = .ok text ↔
        EntryText fallback (level + 1) e text := by
    intro e he text
    obtain ⟨s, hs⟩ := hkeys e (hperm.mem_iff.mp he)
    dsimp only [write]
    rw [hs, bind_eq_ok_iff]
    constructor
    · rintro ⟨key, hkey, hrest⟩
      obtain ⟨t, ht, heq⟩ := bind_eq_ok_iff.mp hrest
      cases hkey
      cases heq
      exact ⟨s, t, hs, ht, rfl⟩
    · rintro ⟨s', t, hs', ht, rfl⟩
      cases hs.symm.trans hs'
      exact ⟨_, rfl, bind_eq_ok_iff.mpr ⟨t, ht, rfl⟩⟩
  have harrange : ∀ texts, compact.arrange (writeEntries compact fallback (level + 1) es) = .ok texts ↔
      List.Forall₂ (EntryText fallback (level + 1)) es' texts := by
    intro texts
    have hsorts : compact.arrange (es.map write) = (es'.map write).mapM fun p => do
        return (← keyText p.1) ++ compact.keySeparator ++ (← p.2) := by
      unfold Layout.arrange
      change (RunSort.sortRun? (fun a b => keyBefore a.1 b.1) (es.map write) >>= _) = _
      rw [hsorted]
      rfl
    rw [writeEntries_eq, hsorts, mapM_eq_ok_iff, List.forall₂_map_left_iff]
    exact forall₂_congr_left hentry
  rw [writeAt, bind_eq_ok_iff]
  constructor
  · rintro ⟨texts, htexts, heq⟩
    cases heq
    exact ⟨texts, (harrange texts).mp htexts, rfl⟩
  · rintro ⟨texts, htexts, rfl⟩
    exact ⟨texts, (harrange texts).mpr htexts, rfl⟩

/-! ## Equal texts -/

theorem writeAt_atom_iff {a : Atom} (h : atomText? a = some text) :
    writeAt compact fallback level (.atom a) = .ok s ↔ s = text := by
  rw [writeAt, h]
  exact ⟨fun heq => (Except.ok.inj heq).symm, fun heq => by rw [heq]⟩

/-- The text of a value begins as nothing that can follow a value. -/
theorem begins_writeAt (hv : v.Writable) (h : writeAt compact fallback level v = .ok text) :
    Begins text := by
  cases hv with
  | atom htext hne =>
    obtain rfl := (writeAt_atom_iff htext).mp h
    obtain ⟨c, rest, hfirst, hc, _⟩ := atomText?_first htext hne
    exact ⟨c, rest, hfirst, hc⟩
  | list =>
    obtain ⟨_, _, rfl⟩ := writeAt_list_iff.mp h
    exact ⟨'[', _, enclose_toList, by decide⟩
  | map hkeys =>
    obtain ⟨_, _, hwrite⟩ := @exists_arranged fallback level _ _ hkeys
    obtain ⟨_, _, rfl⟩ := (hwrite _).mp h
    exact ⟨'\x7b', _, enclose_toList, by decide⟩

/-- Entries of one key with values of the same shape. -/
structure SameEntry (e f : Atom × Value) : Prop where
  key : e.1 = f.1
  value : SameShape e.2 f.2

theorem found_of_sameEntries {k : Atom} (h : List.Forall₂ SameEntry es fs) :
    Option.Rel SameShape (OrderedMap.get? es k) (OrderedMap.get? fs k) := by
  induction h with
  | nil => exact .none
  | cons head _ ih =>
    rw [OrderedMap.get?_cons, OrderedMap.get?_cons, ← head.key]
    split
    · exact .some head.value
    · exact ih

/-- Texts of entries can be taken off if those of their values can. -/
theorem entryText_cancel {e f : Atom × Value} (he : EntryText fallback level e s)
    (hf : EntryText fallback level' f t) (h : s.toList ++ r = t.toList ++ r')
    (hvalue : ∀ s t, writeAt compact fallback level e.2 = .ok s →
      writeAt compact fallback level' f.2 = .ok t → s.toList ++ r = t.toList ++ r' →
        SameShape e.2 f.2 ∧ r = r') : SameEntry e f ∧ r = r' := by
  obtain ⟨name, text, hname, htext, rfl⟩ := he
  obtain ⟨name', text', hname', htext', rfl⟩ := hf
  simp only [String.toList_append, List.append_assoc] at h
  obtain ⟨rfl, hrest⟩ := quote_cancel h
  obtain ⟨hsame, hr⟩ := hvalue text text' htext htext' (List.append_cancel_left hrest)
  exact ⟨⟨hname.trans hname'.symm, hsame⟩, hr⟩

theorem begins_entryText {e : Atom × Value} (he : EntryText fallback level e s) : Begins s := by
  obtain ⟨name, text, _, _, rfl⟩ := he
  have hfirst : (quote name ++ ":" ++ text).toList = Text.doubleQuote ::
      (name.toList.flatMap escapeChar ++ [Text.doubleQuote] ++ ":".toList ++ text.toList) := by
    rw [String.toList_append, String.toList_append, quote_toList]
    rfl
  exact ⟨_, _, hfirst, by decide⟩

/-- Equal texts, with something after them, are texts of values of the same shape. -/
theorem writeAt_cancel (hv : v.Writable) (hw : w.Writable)
    (hs : writeAt compact fallback level v = .ok s) (ht : writeAt compact fallback level' w = .ok t)
    (hr : Stops r) (hr' : Stops r') (h : s.toList ++ r = t.toList ++ r') :
    v.SameShape w ∧ r = r' := by
  induction hv generalizing w level level' s t r r' with
  | @atom a text htext hne =>
    obtain rfl := (writeAt_atom_iff htext).mp hs
    cases hw with
    | @atom b text' htext' hne' =>
      obtain rfl := (writeAt_atom_iff htext').mp ht
      obtain ⟨rfl, rfl⟩ := atomText?_cancel htext htext' hr hr' h
      exact ⟨.atom htext htext', rfl⟩
    | list =>
      obtain ⟨_, _, rfl⟩ := writeAt_list_iff.mp ht
      obtain ⟨c, rest, hfirst, _, hc, _⟩ := atomText?_first htext hne
      rw [hfirst, enclose_toList] at h
      exact absurd (List.cons.inj h).1 hc
    | map hkeys =>
      obtain ⟨_, _, hwrite⟩ := @exists_arranged fallback level' _ _ hkeys
      obtain ⟨_, _, rfl⟩ := (hwrite _).mp ht
      obtain ⟨c, rest, hfirst, _, _, hc⟩ := atomText?_first htext hne
      rw [hfirst, enclose_toList] at h
      exact absurd (List.cons.inj h).1 hc
  | @list xs hxs ih =>
    obtain ⟨texts, htexts, rfl⟩ := writeAt_list_iff.mp hs
    cases hw with
    | atom htext hne =>
      obtain rfl := (writeAt_atom_iff htext).mp ht
      obtain ⟨c, rest, hfirst, _, hc, _⟩ := atomText?_first htext hne
      rw [hfirst, enclose_toList] at h
      exact absurd (List.cons.inj h).1.symm hc
    | @list ys hys =>
      obtain ⟨texts', htexts', rfl⟩ := writeAt_list_iff.mp ht
      rw [enclose_toList, enclose_toList] at h
      simp only [List.append_assoc] at h
      obtain ⟨hall, rfl⟩ := joined_cancel (R := SameShape) htexts htexts' (by decide) (by decide)
        (fun x hx s => begins_writeAt (hxs x hx)) (fun y hy t => begins_writeAt (hys y hy))
        (fun x hx y hy s t hs ht r r' hr hr' h => ih x hx (hys y hy) hs ht hr hr' h)
        (List.append_cancel_left h)
      exact ⟨.list hall, rfl⟩
    | map hkeys =>
      obtain ⟨_, _, hwrite⟩ := @exists_arranged fallback level' _ _ hkeys
      obtain ⟨_, _, rfl⟩ := (hwrite _).mp ht
      rw [enclose_toList, enclose_toList] at h
      exact absurd (List.cons.inj h).1 (by decide)
  | @map es identity hkeys hseparate hes ih =>
    obtain ⟨es', ⟨hperm, _⟩, hwrite⟩ := @exists_arranged fallback level es identity hkeys
    obtain ⟨texts, htexts, rfl⟩ := (hwrite _).mp hs
    cases hw with
    | atom htext hne =>
      obtain rfl := (writeAt_atom_iff htext).mp ht
      obtain ⟨c, rest, hfirst, _, _, hc⟩ := atomText?_first htext hne
      rw [hfirst, enclose_toList] at h
      exact absurd (List.cons.inj h).1.symm hc
    | list =>
      obtain ⟨_, _, rfl⟩ := writeAt_list_iff.mp ht
      rw [enclose_toList, enclose_toList] at h
      exact absurd (List.cons.inj h).1 (by decide)
    | @map fs identity' hkeys' hseparate' hfs =>
      obtain ⟨fs', ⟨hperm', _⟩, hwrite'⟩ := @exists_arranged fallback level' fs identity' hkeys'
      obtain ⟨texts', htexts', rfl⟩ := (hwrite' _).mp ht
      rw [enclose_toList, enclose_toList] at h
      simp only [List.append_assoc] at h
      obtain ⟨hall, rfl⟩ := joined_cancel (R := SameEntry) htexts htexts' (by decide) (by decide)
        (fun _ _ _ => begins_entryText) (fun _ _ _ => begins_entryText)
        (fun e he f hf s t hs ht r r' hr hr' h => entryText_cancel hs ht h
          fun s t hs ht h => ih e (hperm.mem_iff.mp he) (hfs f (hperm'.mem_iff.mp hf)) hs ht hr hr' h)
        (List.append_cancel_left h)
      refine ⟨.map fun k => ?_, rfl⟩
      rw [← OrderedMap.get?_perm hperm hseparate, ← OrderedMap.get?_perm hperm' hseparate']
      exact found_of_sameEntries hall

/-! ## Values of one shape -/

/-- Every value that JSON has a form for has a text. -/
theorem exists_writeAt (hv : v.Writable) : ∃ text, writeAt compact fallback level v = .ok text := by
  induction hv generalizing level with
  | atom htext => exact ⟨_, (writeAt_atom_iff htext).mpr rfl⟩
  | @list xs _ ih =>
    obtain ⟨texts, _, htexts⟩ := mapM_ok (f := writeAt compact fallback (level + 1)) fun x hx => ih x hx
    exact ⟨_, writeAt_list_iff.mpr ⟨texts, htexts, rfl⟩⟩
  | @map es identity hkeys _ _ ih =>
    obtain ⟨es', ⟨hperm, _⟩, hwrite⟩ := @exists_arranged fallback level es identity hkeys
    have hentries : ∀ es' : Fields, es' ⊆ es →
        ∃ texts, List.Forall₂ (EntryText fallback (level + 1)) es' texts := by
      intro es' hsub
      induction es' with
      | nil => exact ⟨[], .nil⟩
      | cons e es' ih' =>
        obtain ⟨he, hrest⟩ := List.cons_subset.mp hsub
        obtain ⟨texts, htexts⟩ := ih' hrest
        obtain ⟨s, hs⟩ := hkeys e he
        obtain ⟨t, ht⟩ := ih e he
        exact ⟨_, .cons ⟨s, t, hs, ht, rfl⟩ htexts⟩
    obtain ⟨texts, htexts⟩ := hentries es' hperm.subset
    exact ⟨_, (hwrite _).mpr ⟨texts, htexts, rfl⟩⟩

/-- Where the same keys rise, and values of the same shape stand under them, the entries are the same
one by one. -/
theorem sameEntries_of_found {es' fs' : Fields} (hes : Arranged es' es) (hfs : Arranged fs' fs)
    (hv : (Value.map es i).Writable) (hw : (Value.map fs j).Writable)
    (h : ∀ k, Option.Rel SameShape (OrderedMap.get? es k) (OrderedMap.get? fs k)) :
    List.Forall₂ SameEntry es' fs' := by
  have hname : ∀ {es : Fields} {i : Option Nat}, (Value.map es i).Writable → ∀ s,
      s ∈ es.map (fun e => keyName e.1) ↔ (OrderedMap.get? es (.str s)).isSome = true := by
    intro es i hv s
    change _ ↔ OrderedMap.contains es (.str s) = true
    rw [OrderedMap.contains_iff, List.mem_map]
    refine exists_congr fun e => and_congr_right fun he => ?_
    obtain ⟨t, ht⟩ := hv.key he
    rw [ht, Atom.beq_str_iff, Atom.str.injEq]
    rfl
  have hnodup : ∀ {es : Fields} {i : Option Nat}, (Value.map es i).Writable →
      (es.map fun e => keyName e.1).Nodup := by
    intro es i hv
    refine List.pairwise_map.mpr (hv.keyed.separate.imp_of_mem fun {e f} he hf hne heq => ?_)
    obtain ⟨s, hs⟩ := hv.key he
    obtain ⟨t, ht⟩ := hv.key hf
    rw [hs, ht] at heq hne
    exact absurd (hne.symm.trans (Atom.beq_str_iff.mpr (congrArg Atom.str heq))) Bool.false_ne_true
  have hkeys : (es.map fun e => keyName e.1).Perm (fs.map fun f => keyName f.1) := by
    refine (List.perm_ext_iff_of_nodup (hnodup hv) (hnodup hw)).mpr fun s => ?_
    rw [hname hv, hname hw]
    have hrel := h (.str s)
    cases hget : OrderedMap.get? es (.str s) with
    | none =>
      rw [hget, optionRel_none_iff] at hrel
      rw [hrel]
    | some v =>
      rw [hget, optionRel_some_iff] at hrel
      obtain ⟨w, hw, _⟩ := hrel
      rw [hw]
      exact Iff.rfl
  have heq : es'.map (fun e => keyName e.1) = fs'.map fun f => keyName f.1 := by
    refine List.Perm.eq_of_pairwise (fun _ _ _ _ => le_antisymm) (List.pairwise_map.mpr hes.rises)
      (List.pairwise_map.mpr hfs.rises) ?_
    exact ((hes.perm.map _).trans hkeys).trans (hfs.perm.map _).symm
  refine forall₂_of_map_eq (fun e he f hf hname => ?_) heq
  have he := hes.perm.mem_iff.mp he
  have hf := hfs.perm.mem_iff.mp hf
  obtain ⟨s, hs⟩ := hv.key he
  obtain ⟨t, ht⟩ := hw.key hf
  have hkey : e.1 = f.1 := by
    rw [hs, ht] at hname ⊢
    exact congrArg Atom.str hname
  refine ⟨hkey, ?_⟩
  have hrel := h e.1
  rw [hv.keyed.get?_entry he, hkey, hw.keyed.get?_entry hf] at hrel
  cases hrel with
  | some hsame => exact hsame

/-- Values of the same shape have the same text. -/
theorem writeAt_of_sameShape (hv : v.Writable) (hw : w.Writable) (hvw : v.SameShape w)
    (hs : writeAt compact fallback level v = .ok s) : writeAt compact fallback level w = .ok s := by
  induction hv generalizing w level s with
  | atom htext =>
    obtain rfl := (writeAt_atom_iff htext).mp hs
    cases hvw with
    | atom ha hb =>
      cases htext.symm.trans ha
      exact (writeAt_atom_iff hb).mpr rfl
  | @list xs hxs ih =>
    obtain ⟨texts, htexts, rfl⟩ := writeAt_list_iff.mp hs
    cases hvw with
    | @list _ ys h =>
      refine writeAt_list_iff.mpr ⟨texts, forall₂_transfer h htexts ?_, rfl⟩
      exact fun x hx y hy s hxy hs => ih x hx (hw.item hy) hxy hs
  | @map es identity hkeys hseparate hes ih =>
    obtain ⟨es', harranged, hwrite⟩ := @exists_arranged fallback level es identity hkeys
    obtain ⟨texts, htexts, rfl⟩ := (hwrite _).mp hs
    cases hvw with
    | @map _ fs _ identity' h =>
      obtain ⟨fs', harranged', hwrite'⟩ := @exists_arranged fallback level fs identity' fun e => hw.key
      have hv : (Value.map es identity).Writable := .map hkeys hseparate hes
      have hall := sameEntries_of_found harranged harranged' hv hw h
      refine (hwrite' _).mpr ⟨texts, forall₂_transfer hall htexts ?_, rfl⟩
      rintro e he f hf _ hef ⟨name, text, hname, htext, rfl⟩
      refine ⟨name, text, hef.key ▸ hname, ?_, rfl⟩
      exact ih e (harranged.perm.mem_iff.mp he) (hw.entry (harranged'.perm.mem_iff.mp hf)) hef.value
        htext

/-- Two values that JSON has a form for have the same text if and only if they are of the same shape. -/
theorem write_eq_iff (hv : v.Writable) (hw : w.Writable) :
    write compact fallback v = write compact fallback w ↔ v.SameShape w := by
  obtain ⟨s, hs⟩ := @exists_writeAt fallback 0 v hv
  constructor
  · intro h
    exact (writeAt_cancel hv hw hs (h.symm.trans hs) (fun _ hc => by cases hc)
      (fun _ hc => by cases hc) (@rfl _ (s.toList ++ []))).1
  · exact fun h => hs.trans (writeAt_of_sameShape hv hw h hs).symm

/-- Schemas that JSON has a form for have the same text if and only if they are of the same shape, but
for their titles. -/
theorem canonical_eq_iff {describe : Describe} (hv : v.Writable) (hw : w.Writable) :
    canonical describe v = canonical describe w ↔ (withoutTitle v).SameShape (withoutTitle w) :=
  write_eq_iff hv.withoutTitle hw.withoutTitle

end Values

end Json

end WireShape
