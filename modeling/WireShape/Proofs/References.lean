import WireShape.Proofs.Compile.Related
import WireShape.Proofs.Definitions

/-!
# References in values

A mapping refers to a definition by a text under the key `$ref`, wherever in a value it stands.

* `Value.Refers`: a value refers to a target somewhere in it.
* `Value.RefersWithin`: all targets of a value have a property.
* `Components.Resolves`: a target is the path of a definition.
* `refersRel_congruence`: fields made of outcomes refer to what the outcomes refer to.
-/

namespace WireShape

open Value (Fields)

namespace Value

/-- The values right below a value. -/
def parts : Value → List Value
  | atom _ => []
  | list xs => xs
  | map es _ => es.map (·.2)
  | mediaType schema examples => [schema, examples]
  | requestBody content description required => [content, description, required]
  | response description content => [description, content]

/-- Somewhere in a value there is a reference to a target. -/
inductive Refers : Value → String → Prop
  | here {es : List (Atom × Value)} {identity : Option Nat} {target : String}
      (h : (refKey, .str target) ∈ es) : Refers (.map es identity) target
  | inside {v w : Value} {target : String} (hw : w ∈ v.parts) (h : Refers w target) :
      Refers v target

/-- All references in a value are to targets with a property. -/
def RefersWithin (R : String → Prop) (v : Value) : Prop := ∀ target, v.Refers target → R target

/-- There is no reference in a value. -/
def RefFree (v : Value) : Prop := v.RefersWithin fun _ => False

variable {R R' : String → Prop} {v : Value}

theorem RefersWithin.mono (hR : ∀ t, R t → R' t) (h : v.RefersWithin R) : v.RefersWithin R' :=
  fun t ht => hR t (h t ht)

theorem RefFree.within (h : v.RefFree) : v.RefersWithin R := h.mono fun _ ht => ht.elim

theorem refersWithin_atom {a : Atom} : (Value.atom a).RefersWithin R := by
  intro t ht
  cases ht with
  | inside hw _ => cases hw

theorem refersWithin_list {xs : List Value} (h : ∀ x ∈ xs, x.RefersWithin R) :
    (Value.list xs).RefersWithin R := by
  intro t ht
  cases ht with
  | inside hw hrefers => exact h _ hw t hrefers

theorem refersWithin_map_iff {es : List (Atom × Value)} {identity : Option Nat} :
    (Value.map es identity).RefersWithin R ↔ ∀ e ∈ es, e.2.RefersWithin R ∧
      (e.1 = refKey → ∀ t, e.2 = .str t → R t) := by
  constructor
  · intro h e he
    refine ⟨fun t ht => h t (.inside (List.mem_map_of_mem he) ht), fun hkey t hv => h t (.here ?_)⟩
    rw [← hkey, ← hv]
    exact he
  · intro h t ht
    cases ht with
    | here hmem => exact (h _ hmem).2 rfl t rfl
    | inside hw hrefers =>
      obtain ⟨e, he, rfl⟩ := List.mem_map.mp hw
      exact (h e he).1 t hrefers

/-- A reference refers to its own target only. -/
theorem refersWithin_reference {place what : String} (h : R (bucketPath place ++ what)) :
    (reference place what).RefersWithin R := by
  refine refersWithin_map_iff.mpr ?_
  intro e he
  obtain rfl := List.mem_singleton.mp he
  refine ⟨refersWithin_atom, ?_⟩
  rintro _ t ht
  cases ht
  exact h

/-- An entry that is no reference leaves the targets as they are. -/
theorem refersWithin_insert {fields : Fields} {k : Atom} {w : Value} {identity : Option Nat}
    (h : (Value.map fields identity).RefersWithin R) (hw : w.RefersWithin R)
    (hplain : ∀ t, w ≠ .str t) : (Value.ofEntries (OrderedMap.insert fields k w)).RefersWithin R := by
  refine refersWithin_map_iff.mpr ?_
  intro e he
  rcases OrderedMap.mem_insert he with hold | ⟨rfl, _⟩
  · exact refersWithin_map_iff.mp h e hold
  · exact ⟨hw, fun _ t ht => absurd ht (hplain t)⟩

theorem refersWithin_set {fields : Fields} {name : String} {w : Value}
    (h : (Value.ofEntries fields).RefersWithin R) (hname : name ≠ "$ref") (hw : w.RefersWithin R) :
    (Value.ofEntries (fields.set name w)).RefersWithin R := by
  refine refersWithin_map_iff.mpr ?_
  intro e he
  rcases OrderedMap.mem_insert he with hold | ⟨rfl, hkey⟩
  · exact refersWithin_map_iff.mp h e hold
  · refine ⟨hw, fun href => ?_⟩
    rcases hkey with heq | ⟨_, hsame⟩
    · exact absurd (Atom.str.inj (heq.symm.trans href)) hname
    · rw [href] at hsame
      exact absurd (Atom.str.inj (Atom.str_beq_iff.mp hsame)) hname

/-- Fields with other keys than that of references refer to what their values refer to. -/
theorem refersWithin_ofFields {fields : List (String × Value)}
    (h : ∀ e ∈ fields, e.1 ≠ "$ref" ∧ e.2.RefersWithin R) : (ofFields fields).RefersWithin R := by
  refine refersWithin_map_iff.mpr ?_
  intro e he
  obtain ⟨e', he', rfl⟩ := List.mem_map.mp he
  obtain ⟨hkey, hwithin⟩ := h e' he'
  exact ⟨hwithin, fun href => absurd (Atom.str.inj href) hkey⟩

/-- A mapping of mappings refers to what these refer to. -/
theorem refersWithin_maps {fields : Fields}
    (h : ∀ e ∈ fields, e.2.isMap = true ∧ e.2.RefersWithin R) :
    (Value.ofEntries fields).RefersWithin R := by
  refine refersWithin_map_iff.mpr ?_
  intro e he
  obtain ⟨hmap, hwithin⟩ := h e he
  refine ⟨hwithin, ?_⟩
  rintro _ t ht
  rw [ht] at hmap
  cases hmap

theorem refersWithin_getD {fields : Fields} {identity : Option Nat} {k : Atom} {w : Value}
    (h : (Value.map fields identity).RefersWithin R) (hw : w.RefersWithin R) :
    (OrderedMap.getD fields k w).RefersWithin R := by
  unfold OrderedMap.getD
  cases hget : OrderedMap.get? fields k with
  | none => exact hw
  | some found =>
    obtain ⟨_, hmem, _⟩ := OrderedMap.mem_of_get? hget
    exact (refersWithin_map_iff.mp h _ hmem).1

theorem refersWithin_field {name : String} {w : Value} (h : v.RefersWithin R)
    (hw : v.field? name = some w) : w.RefersWithin R := by
  unfold field? at hw
  split at hw
  · obtain ⟨_, hmem, _⟩ := OrderedMap.mem_of_get? hw
    exact (refersWithin_map_iff.mp h _ hmem).1
  · cases hw

theorem refersWithin_remove {fields : Fields} {identity : Option Nat} {name : String}
    (h : (Value.map fields identity).RefersWithin R) :
    (Value.ofEntries (fields.remove name)).RefersWithin R :=
  refersWithin_map_iff.mpr fun e he => refersWithin_map_iff.mp h e (List.mem_of_mem_filter he)

theorem refersWithin_of_fieldsRel {Key : Atom → Prop} {fs gs : Fields}
    (h : FieldsRel Key (Having (RefersWithin R)) fs gs) :
    fs = gs ∧ (Value.ofEntries fs).RefersWithin R := by
  obtain ⟨heq, hvalues⟩ := fields_having h
  refine ⟨heq, refersWithin_map_iff.mpr fun e he => ⟨hvalues e he, fun href t ht => ?_⟩⟩
  obtain ⟨_, _, hef⟩ := forall₂_left h.entries he
  exact absurd ht (hef.plain href t)

end Value

/-- To be the same value with all references to targets with a property. -/
abbrev RefersRel (R : String → Prop) : Value → Value → Prop := Having (Value.RefersWithin R)

theorem refersRel_congruence {R : String → Prop} :
    Congruence (fun _ => True) (RefersRel R) where
  basic _ _ := ⟨rfl, Value.refersWithin_atom⟩
  key _ _ := ⟨rfl, Value.refersWithin_atom⟩
  list h := by
    obtain ⟨rfl, hxs⟩ := forall₂_having h
    exact ⟨rfl, Value.refersWithin_list hxs⟩
  map h := by
    obtain ⟨rfl, hfs⟩ := Value.refersWithin_of_fieldsRel h
    exact ⟨rfl, hfs⟩
  mark := by
    rintro v w marked ⟨rfl, hv⟩ hmarked
    refine ⟨marked, hmarked, rfl, ?_⟩
    obtain ⟨fields, hfields, hset⟩ := bind_eq_ok_iff.mp hmarked
    cases hset
    unfold Value.spread at hfields
    split at hfields
    · cases hfields
      refine Value.refersWithin_insert hv Value.refersWithin_atom ?_
      intro t ht
      cases ht
    · cases hfields

/-- A name is read off a mapping that consists of a reference into the bucket. -/
theorem referenceName?_eq_some {schema target : Value} {bucket : String}
    (h : referenceName? schema bucket = .ok (some target)) : ∃ rest, target = .str rest ∧
      ∃ identity, schema = .map [(refKey, .str (bucketPath bucket ++ rest))] identity := by
  unfold referenceName? at h
  split at h
  · rename_i key value identity
    split at h
    · rename_i hkey
      obtain rfl : key = refKey := Atom.beq_str_iff.mp hkey
      obtain ⟨starts, hstarts, hname⟩ := bind_eq_ok_iff.mp h
      split at hname
      · rename_i htrue
        split at hname
        · rename_i s
          cases hname
          refine ⟨_, rfl, identity, ?_⟩
          rw [htrue] at hstarts
          have hprefix : (bucketPath bucket).toList <+: s.toList :=
            List.isPrefixOf_iff_prefix.mp (Except.ok.inj hstarts)
          have hsplit : (bucketPath bucket).toList ++ s.toList.drop (bucketPath bucket).length =
              s.toList := by
            obtain ⟨rest, hrest⟩ := hprefix
            rw [← hrest, ← String.length_toList, List.drop_left]
          have htext : bucketPath bucket ++ String.ofList
              (s.toList.drop (bucketPath bucket).length) = s := by
            rw [← String.toList_inj, String.toList_append, String.toList_ofList, hsplit]
          rw [htext]
        · cases hname
      · cases hname
    · cases h
  · cases h

/-! ## Targets that are defined -/

namespace Components

/-- A target is the path of a definition. -/
def Resolves (describe : Describe) (c : Components) (target : String) : Prop :=
  ∃ b n place what, c.Names b n ∧ b.display describe = .ok place ∧
    n.display describe = .ok what ∧ target = bucketPath place ++ what

/-- All definitions are mappings whose references are to targets with a property. -/
def RefersWithin (R : String → Prop) (c : Components) : Prop :=
  ∀ bucket ∈ c, ∀ entry ∈ bucket.2, entry.2.isMap = true ∧ entry.2.RefersWithin R

variable {R R' : String → Prop} {c : Components} {b n : Atom} {v : Value}

theorem RefersWithin.mono (hR : ∀ t, R t → R' t) (h : c.RefersWithin R) : c.RefersWithin R' := by
  intro bucket hbucket entry hentry
  obtain ⟨hmap, hwithin⟩ := h bucket hbucket entry hentry
  exact ⟨hmap, hwithin.mono hR⟩

theorem RefersWithin.define (h : c.RefersWithin R) (hmap : v.isMap = true)
    (hv : v.RefersWithin R) : (c.define b n v).RefersWithin R := by
  intro bucket hbucket entry hentry
  rcases mem_define hbucket with hold | ⟨entries, hmem, hnew, _⟩ | rfl
  · exact h bucket hold entry hentry
  · rw [hnew] at hentry
    rcases OrderedMap.mem_insert hentry with hold | ⟨hvalue, _⟩
    · exact h _ hmem entry hold
    · rw [hvalue]
      exact ⟨hmap, hv⟩
  · obtain rfl := List.mem_singleton.mp hentry
    exact ⟨hmap, hv⟩

/-- A definition that is found is a mapping. -/
theorem RefersWithin.found_isMap (h : c.RefersWithin R) (hfound : c.find? b n = some v) :
    v.isMap = true := by
  obtain ⟨bucket, hbucket, entry, hentry, _, _, rfl⟩ := mem_of_find? hfound
  exact (h bucket hbucket entry hentry).1

/-- A definition that is found refers to what definitions refer to. -/
theorem RefersWithin.found (h : c.RefersWithin R) (hfound : c.find? b n = some v) :
    v.RefersWithin R := by
  obtain ⟨bucket, hbucket, entry, hentry, _, _, rfl⟩ := mem_of_find? hfound
  exact (h bucket hbucket entry hentry).2

/-- The document lists all definitions and refers to what they refer to. -/
theorem RefersWithin.toValue (h : c.RefersWithin R) : c.toValue.RefersWithin R := by
  refine Value.refersWithin_map_iff.mpr ?_
  intro bucket hbucket
  obtain ⟨entries, hentries, rfl⟩ := List.mem_map.mp hbucket
  refine ⟨Value.refersWithin_map_iff.mpr ?_, ?_⟩
  · intro entry hentry
    obtain ⟨hmap, hwithin⟩ := h entries hentries entry hentry
    refine ⟨hwithin, ?_⟩
    rintro _ t ht
    rw [ht] at hmap
    cases hmap
  · rintro _ t ht
    cases ht

end Components

end WireShape
