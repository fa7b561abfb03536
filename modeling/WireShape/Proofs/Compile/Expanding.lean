import WireShape.Proofs.Expansion

/-!
# Schemas that expand to other ones

A schema with references stands for another one if it expands to that. The fields of a node are made
of the schemas of its parts, so they expand to the fields made of what those schemas expand to, if
no two entries of a list become equal on the way.

* `ExpandsTo`: a value expands to one that is like another value.
* `expandsTo_congruence`: fields made of schemas expand to fields made of their expansions.
* `expandsTo_reference`: a reference expands to what its definition expands to.
* `expandsTo_keepsApart`: where no two expansions are alike, no two schemas are.
-/

namespace WireShape

open Value (Fields)

section Expanding

variable {find : Lookup} {fs : Fields} {xs ys : List Value} {i : Option Nat} {v w : Value}
  {bucket name : String}

/-- A proper value that expands to a value that is like another one. -/
structure ExpandsTo (find : Lookup) (v w : Value) : Prop where
  left : v.Proper
  right : w.Proper
  expands : ∃ depth u, expandWithin find depth v = some u ∧ u.alike w = true

/-- Where each element does something at some depth, and keeps doing it with more, all do it at a
common depth. -/
theorem forall₂_common_depth {α β γ : Type} {P : Nat → α → γ → Prop} {Q : γ → β → Prop}
    {xs : List α} {ys : List β} (hmono : ∀ n m x u, n ≤ m → P n x u → P m x u)
    (h : List.Forall₂ (fun x y => ∃ n u, P n x u ∧ Q u y) xs ys) :
    ∃ n us, List.Forall₂ (P n) xs us ∧ List.Forall₂ Q us ys := by
  induction h with
  | nil => exact ⟨0, [], .nil, .nil⟩
  | cons head _ ih =>
    obtain ⟨n, u, hP, hQ⟩ := head
    obtain ⟨m, us, hall, hall'⟩ := ih
    exact ⟨max n m, u :: us, .cons (hmono _ _ _ _ (Nat.le_max_left n m) hP)
      (hall.imp fun _ _ => hmono _ _ _ _ (Nat.le_max_right n m)), .cons hQ hall'⟩

namespace ExpandsTo

theorem atom (a : Atom) : ExpandsTo find (.atom a) (.atom a) :=
  ⟨.atom, .atom, 1, .atom a, rfl, Atom.alike_refl⟩

theorem list (h : List.Forall₂ (ExpandsTo find) xs ys) : ExpandsTo find (.list xs) (.list ys) := by
  refine ⟨.list fun x hx => ?_, .list fun y hy => ?_, ?_⟩
  · obtain ⟨y, _, hxy⟩ := forall₂_left h hx
    exact hxy.left
  · obtain ⟨x, _, hxy⟩ := forall₂_right h hy
    exact hxy.right
  · obtain ⟨depth, us, hall, hlike⟩ := forall₂_common_depth
      (P := fun depth x u => expandWithin find depth x = some u)
      (fun _ _ _ _ hle => expandWithin_mono hle) (h.imp fun _ _ hxy => hxy.expands)
    exact ⟨depth + 1, .list us, expandWithin_list_iff.mpr ⟨us, hall, rfl⟩,
      Value.alike_list_iff.mpr hlike⟩

theorem map {gs : Fields} {j : Option Nat}
    (h : FieldsRel (fun k => (k == k) = true) (ExpandsTo find) fs gs) :
    ExpandsTo find (.map fs i) (.map gs j) := by
  obtain ⟨hentries, hseparate, hkeys⟩ := h
  have hfs : fs.Keyed := by
    refine ⟨hseparate, fun e he => ?_⟩
    rcases hkeys e he with ⟨s, hs⟩ | hself
    · rw [hs]
      exact Atom.beq_str_iff.mpr rfl
    · exact hself
  have hgs : gs.Keyed := by
    refine hfs.of_keys ?_
    clear hseparate hkeys hfs
    induction hentries with
    | nil => rfl
    | cons head _ ih => rw [List.map_cons, List.map_cons, head.key, ih]
  have htarget : Fields.target? fs = none := by
    refine Option.eq_none_iff_forall_ne_some.mpr fun target htarget => ?_
    obtain ⟨text, htext, _⟩ := Option.bind_eq_some_iff.mp htarget
    obtain ⟨v, hget, hv⟩ := Option.bind_eq_some_iff.mp htext
    obtain ⟨key, hmem, hkey⟩ := OrderedMap.mem_of_get? hget
    obtain ⟨_, _, hef⟩ := forall₂_left hentries hmem
    exact hef.plain (Atom.beq_str_iff.mp hkey) text (Value.text?_eq_some_iff.mp hv)
  refine ⟨.map hfs fun e he => ?_, .map hgs fun f hf => ?_, ?_⟩
  · obtain ⟨_, _, hef⟩ := forall₂_left hentries he
    exact hef.value.left
  · obtain ⟨_, _, hef⟩ := forall₂_right hentries hf
    exact hef.value.right
  · obtain ⟨depth, us, hus, hlike⟩ := forall₂_common_depth (P := EntryExpands find)
      (Q := fun u g => u.1 = g.1 ∧ u.2.alike g.2 = true)
      (fun _ _ _ _ hle he => ⟨he.key, expandWithin_mono hle he.value⟩)
      (hentries.imp fun e g heg => by
        obtain ⟨depth, u, hu, hlike⟩ := heg.value.expands
        exact ⟨depth, (e.1, u), ⟨rfl, hu⟩, heg.key, hlike⟩)
    refine ⟨depth + 1, .map us i, (expandWithin_map_iff htarget).mpr ⟨us, hus, rfl⟩, ?_⟩
    refine Value.alike_map_iff.mpr ⟨hlike.length_eq, fun u hu => ?_⟩
    obtain ⟨g, hg, hkey, halike⟩ := forall₂_left hlike hu
    exact ⟨g.2, hkey ▸ hgs.get?_entry hg, halike⟩

/-- A proper value without references expands to itself. -/
theorem refFree (hv : v.Proper) (hfree : v.RefFree) : ExpandsTo find v v := by
  have hstay : ∀ {v : Value}, v.Proper → (∀ depth, expandWithin find (depth + 1) v = some v) →
      ExpandsTo find v v := fun hv hexpand => ⟨hv, hv, 1, _, hexpand 0, hv.alike_refl⟩
  induction hv with
  | atom => exact .atom _
  | list hxs ih =>
    exact .list (List.forall₂_same.mpr fun x hx => ih x hx fun t ht => hfree t (.inside hx ht))
  | map hkeyed _ ih =>
    have hentry := Value.refersWithin_map_iff.mp hfree
    refine .map ⟨List.forall₂_same.mpr fun e he => ⟨rfl, ih e he (hentry e he).1, ?_⟩,
      hkeyed.separate, fun e he => .inr (hkeyed.self e he)⟩
    exact fun hkey t ht => (hentry e he).2 hkey t ht
  | mediaType hs he => exact hstay (.mediaType hs he) fun _ => rfl
  | requestBody hc hd hr => exact hstay (.requestBody hc hd hr) fun _ => rfl
  | response hd hc => exact hstay (.response hd hc) fun _ => rfl

/-- A branch marked as required expands to the expansion marked so. -/
theorem mark {marked : Value} (hfind : find.Proper) (h : ExpandsTo find v w)
    (hmarked : markRequired w = .ok marked) :
    ∃ marked', markRequired v = .ok marked' ∧ ExpandsTo find marked' marked := by
  obtain ⟨ws, hws, hset⟩ := bind_eq_ok_iff.mp hmarked
  cases hset
  cases w with
  | map gs j =>
    cases hws
    obtain ⟨depth, u, hu, hlike⟩ := h.expands
    obtain ⟨us, l, rfl⟩ := Value.exists_map_of_alike hlike
    obtain ⟨es, i, rfl⟩ := exists_map_of_expandWithin hu
    have hrequired : (Atom.str "x-required" == Atom.str "x-required") = true :=
      Atom.beq_str_iff.mpr rfl
    have hne : ((Atom.str "x-required") == refKey) = false := by decide
    have hus := (expandWithin_proper hfind h.left hu).keyed
    refine ⟨_, rfl, h.left.insert hrequired .atom, h.right.insert hrequired .atom, ?_⟩
    obtain ⟨depth, rfl⟩ : ∃ n, depth = n + 1 := by
      cases depth with
      | zero => cases hu
      | succ n => exact ⟨n, rfl⟩
    have hinsert : ∀ {gs : Fields}, FieldsExpand find depth es gs → FieldsExpand find (depth + 1)
        (Fields.set es "x-required" (.bool true)) (Fields.set gs "x-required" (.bool true)) :=
      fun hgs => FieldsExpand.insert
        (FieldsExpand.mono (fun _ _ => expandWithin_mono (Nat.le_succ depth)) hgs) expandWithin_atom
    -- The mark is no reference, so the marked schema is one if the schema itself is.
    have htext : Fields.target? (Fields.set es "x-required" (.bool true)) = Fields.target? es := by
      unfold Fields.target? Fields.refText? Fields.set
      rw [OrderedMap.get?_insert, hne]
      rfl
    have hfound := (hus.alike_iff h.right.keyed).mp hlike
    have hset : ∀ {fs : Fields}, (∀ k, OrderedMap.get? fs k =
        if Atom.str "x-required" == k then some (.bool true) else OrderedMap.get? us k) →
        ∀ k, Option.Rel (fun v w => v.alike w = true) (OrderedMap.get? fs k)
          (OrderedMap.get? (Fields.set ws "x-required" (.bool true)) k) := by
      intro fs hfs k
      rw [hfs, Fields.set, OrderedMap.get?_insert]
      split
      · exact .some Atom.alike_refl
      · exact hfound k
    cases htarget : Fields.target? es with
    | none =>
      obtain ⟨fs, hfs, heq⟩ := (expandWithin_map_iff htarget).mp hu
      cases heq
      refine ⟨depth + 2, .map (Fields.set us "x-required" (.bool true)) none,
        (expandWithin_map_iff (htext.trans htarget)).mpr ⟨_, hinsert hfs, rfl⟩, ?_⟩
      exact ((hus.insert hrequired).alike_iff (h.right.keyed.insert hrequired)).mpr
        (hset fun k => OrderedMap.get?_insert)
    | some target =>
      obtain ⟨fs, d, ds, k, hfs, hd, hds, heq⟩ := (expandWithin_reference_iff htarget).mp hu
      cases heq
      have hds' := (expandWithin_proper hfind (hfind _ _ d hd) hds).keyed
      have hfs' : Fields.Keyed fs := hfs.keyed h.left.keyed
      have hrest : Fields.Keyed (Fields.remove (Fields.set fs "x-required" (.bool true)) "$ref") :=
        (hfs'.insert hrequired).remove
      refine ⟨depth + 2, _, (expandWithin_reference_iff (htext.trans htarget)).mpr
        ⟨_, d, ds, k, hinsert hfs, hd, expandWithin_mono (Nat.le_succ depth) hds, rfl⟩, ?_⟩
      refine ((hds'.merge hrest).alike_iff (h.right.keyed.insert hrequired)).mpr (hset fun k => ?_)
      have hrest' : Fields.Keyed (Fields.remove fs "$ref") := hfs'.remove
      unfold Fields.merge
      rw [OrderedMap.get?_update hrest.separate, OrderedMap.get?_update hrest'.separate]
      cases hkey : (refKey == k) with
      | true =>
        obtain rfl := Atom.str_beq_iff.mp hkey
        unfold Fields.remove
        rw [OrderedMap.get?_erase_self, OrderedMap.get?_erase_self, hne]
        rfl
      | false =>
        unfold Fields.remove Fields.set
        rw [OrderedMap.get?_erase_of_ne hkey, OrderedMap.get?_erase_of_ne hkey,
          OrderedMap.get?_insert]
        split <;> rfl
  | _ => cases hws

end ExpandsTo

/-- Fields made of schemas expand to fields made of what the schemas expand to. -/
theorem expandsTo_congruence (hfind : find.Proper) :
    Congruence (fun k => (k == k) = true) (ExpandsTo find) where
  basic a _ := .atom a
  key k _ := .atom k
  list := .list
  map := .map
  mark := ExpandsTo.mark hfind

/-- Everything is like what it leads to itself. -/
theorem lookupsAgree_self (hfind : find.Proper) :
    LookupsAgree (fun v w => v.alike w = true) (fun _ => True) find find := by
  intro _ _ bucket name d _ hd
  exact ⟨d, hd, (hfind bucket name d hd).alike_refl, fun _ _ => trivial⟩

/-- Like values expand to like values. -/
theorem ExpandsTo.alike {v' w' : Value} (hfind : find.Proper) (h : ExpandsTo find v w)
    (h' : ExpandsTo find v' w') (halike : v.alike v' = true) : w.alike w' = true := by
  obtain ⟨depth, u, hu, hlike⟩ := h.expands
  obtain ⟨depth', u', hu', hlike'⟩ := h'.expands
  obtain ⟨u₁, hu₁, hlike₁⟩ := expandWithin_like likeness_alike hfind hfind
    (lookupsAgree_self hfind) h.left h'.left (fun _ _ => trivial) halike hu'
  obtain rfl := expandWithin_unique hu hu₁
  have hproper := expandWithin_proper hfind h.left hu
  have hproper' := expandWithin_proper hfind h'.left hu'
  exact hproper.alike_trans (hproper.alike_symm h.right hlike) (hproper'.alike_trans hlike₁ hlike')

/-- A value that is like one that expands to another value, expands to that value as well. -/
theorem ExpandsTo.of_alike {v' : Value} (hfind : find.Proper) (h : ExpandsTo find v w)
    (hv' : v'.Proper) (halike : v'.alike v = true) : ExpandsTo find v' w := by
  obtain ⟨depth, u, hu, hlike⟩ := h.expands
  obtain ⟨u', hu', hlike'⟩ := expandWithin_like likeness_alike hfind hfind
    (lookupsAgree_self hfind) hv' h.left (fun _ _ => trivial) halike hu
  have hproper := expandWithin_proper hfind h.left hu
  exact ⟨hv', h.right, depth, u', hu', hproper.alike_trans hlike' hlike⟩

/-- A reference expands to what its definition expands to. -/
theorem expandsTo_reference (hbucket : '/' ∉ bucket.toList) (hd : find bucket name = some v)
    (h : ExpandsTo find v (.map fs i)) : ExpandsTo find (reference bucket name) (.map fs i) := by
  have hproper : (reference bucket name).Proper := by
    refine .map ⟨List.pairwise_singleton _ _, fun e he => ?_⟩ fun e he => ?_
    · obtain rfl := List.mem_singleton.mp he
      exact Atom.beq_str_iff.mpr rfl
    · obtain rfl := List.mem_singleton.mp he
      exact .atom
  refine ⟨hproper, h.right, ?_⟩
  obtain ⟨depth, u, hu, hlike⟩ := h.expands
  obtain ⟨ds, j, rfl⟩ := Value.exists_map_of_alike hlike
  exact ⟨depth + 1, .ofEntries ds, expandWithin_reference hbucket hd hu, hlike⟩

/-! ## Lists without repetitions -/

/-- Where no two elements are equal, all are kept. -/
theorem distinct_eq_self (h : xs.Pairwise fun x y => x.same y = false) : distinct xs = xs := by
  have hfold : ∀ xs kept : List Value, (kept ++ xs).Pairwise (fun x y => x.same y = false) →
      xs.foldl (fun kept s => if s.isIn kept then kept else kept ++ [s]) kept = kept ++ xs := by
    intro xs
    induction xs with
    | nil => exact fun kept _ => (List.append_nil kept).symm
    | cons x xs ih =>
      intro kept hkept
      have hnew : x.isIn kept = false := by
        refine List.any_eq_false.mpr fun y hy => ?_
        rw [(List.pairwise_append.mp hkept).2.2 y hy x List.mem_cons_self]
        exact Bool.false_ne_true
      rw [List.foldl_cons, hnew, if_neg Bool.false_ne_true,
        ih _ (by rwa [List.append_assoc, List.singleton_append]), List.append_assoc,
        List.singleton_append]
  exact (hfold xs [] h).trans (List.nil_append xs)

/-- Schemas that expand to schemas of which no two are alike, are all kept, as those are. -/
theorem expandsTo_keepsApart (hfind : find.Proper)
    (hys : ys.Pairwise fun x y => x.alike y = false) : KeepsApart (ExpandsTo find) ys := by
  intro xs hxs
  have happart : xs.Pairwise (fun x y => x.same y = false) ∧
      ys.Pairwise fun x y => x.same y = false := by
    induction hxs with
    | nil => exact ⟨.nil, .nil⟩
    | @cons x y xs ys head tail ih =>
      obtain ⟨hy, hys⟩ := List.pairwise_cons.mp hys
      obtain ⟨hxs', hys'⟩ := ih hys
      refine ⟨List.pairwise_cons.mpr ⟨fun x' hx' => ?_, hxs'⟩,
        List.pairwise_cons.mpr ⟨fun y' hy' => ?_, hys'⟩⟩
      · obtain ⟨y', hy', hxy'⟩ := forall₂_left tail hx'
        refine Bool.eq_false_iff.mpr fun hsame => ?_
        have halike := head.alike hfind hxy' (head.left.alike_of_same hsame)
        exact absurd ((hy y' hy').symm.trans halike) Bool.false_ne_true
      · refine Bool.eq_false_iff.mpr fun hsame => ?_
        have halike := head.right.alike_of_same hsame
        exact absurd ((hy y' hy').symm.trans halike) Bool.false_ne_true
  rw [distinct_eq_self happart.1, distinct_eq_self happart.2]
  exact hxs

end Expanding

end WireShape
