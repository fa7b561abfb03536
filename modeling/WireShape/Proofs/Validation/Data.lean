import WireShape.Proofs.Keys
import WireShape.Proofs.Runs
import WireShape.Validation.Validator

/-!
# Data as they are read from text

Data are made of null, booleans, numbers and text, of lists, and of mappings under text keys. They
can always be shown, and so can the paths that lead into them. Two paths of one length into the same
data can always be compared: where they part, both go on with an index or both with a key.

* `Value.IsJson`: data.
* `Value.Leads`: the paths that lead from a value to a part of it.
* `IsJson.shown`, `IsJson.comparePaths_ok`: data can be shown, and paths into them compared.
-/

namespace WireShape

namespace Value

/-- Data as they are read from text. -/
inductive IsJson : Value → Prop
  | null : IsJson .null
  | bool (b : Bool) : IsJson (.bool b)
  | int (i : Int) : IsJson (.int i)
  | float (x : Binary64) : IsJson (.float x)
  | str (s : String) : IsJson (.str s)
  | list {xs : List Value} (hxs : ∀ x ∈ xs, IsJson x) : IsJson (.list xs)
  | map {es : List (Atom × Value)} {identity : Option Nat} (hkeys : ∀ e ∈ es, ∃ s, e.1 = .str s)
      (hseparate : OrderedMap.Separate es) (hes : ∀ e ∈ es, IsJson e.2) : IsJson (.map es identity)

/-- Fields are under different text keys. -/
theorem keys_ofFields {fields : List (String × Value)} (hkeys : (fields.map (·.1)).Nodup) :
    (∀ e ∈ fields.map fun f => (Atom.str f.1, f.2), ∃ s, e.1 = .str s) ∧
      OrderedMap.Separate (fields.map fun f => (Atom.str f.1, f.2)) := by
  refine ⟨fun e he => ?_, ?_⟩
  · obtain ⟨f, _, rfl⟩ := List.mem_map.mp he
    exact ⟨f.1, rfl⟩
  · refine List.pairwise_map.mpr ((List.pairwise_map.mp hkeys).imp fun hne => ?_)
    exact Bool.eq_false_iff.mpr fun hsame => hne (Atom.str.inj (Atom.str_beq_iff.mp hsame)).symm

section Shown

variable {describe : Describe}

/-- A value that can be shown: the schema nodes in it, if there are any, can be described. -/
def Shown (describe : Describe) (v : Value) : Prop := ∃ text, v.quoted describe = .ok text

theorem quotedItems_ok {xs : List Value} (h : ∀ x ∈ xs, x.Shown describe) :
    ∃ texts, quotedItems describe xs = .ok texts := by
  induction xs with
  | nil => exact ⟨[], rfl⟩
  | cons x xs ih =>
    obtain ⟨text, htext⟩ := h x List.mem_cons_self
    obtain ⟨texts, htexts⟩ := ih fun y hy => h y (List.mem_cons_of_mem _ hy)
    rw [quotedItems, htext, htexts]
    exact ⟨text :: texts, rfl⟩

theorem shown_list {xs : List Value} (h : ∀ x ∈ xs, x.Shown describe) :
    (Value.list xs).Shown describe := by
  obtain ⟨texts, htexts⟩ := quotedItems_ok h
  unfold Shown
  rw [quoted, htexts]
  exact ⟨_, rfl⟩

theorem shown_map {es : List (Atom × Value)} {identity : Option Nat}
    (hkeys : ∀ e ∈ es, (Value.atom e.1).Shown describe) (h : ∀ e ∈ es, e.2.Shown describe) :
    (Value.map es identity).Shown describe := by
  have hentries : ∃ texts, quotedEntries describe es = .ok texts := by
    induction es with
    | nil => exact ⟨[], rfl⟩
    | cons e es ih =>
      obtain ⟨k, v⟩ := e
      obtain ⟨key, hkey⟩ := hkeys (k, v) List.mem_cons_self
      obtain ⟨text, htext⟩ := h (k, v) List.mem_cons_self
      obtain ⟨texts, htexts⟩ := ih (fun e he => hkeys e (List.mem_cons_of_mem _ he))
        fun e he => h e (List.mem_cons_of_mem _ he)
      have hkey' : k.quoted describe = .ok key := hkey
      rw [quotedEntries, hkey', htext, htexts]
      exact ⟨_, rfl⟩
  obtain ⟨texts, htexts⟩ := hentries
  unfold Shown
  rw [quoted, htexts]
  exact ⟨_, rfl⟩

/-- Data can be shown. -/
theorem IsJson.shown {v : Value} (h : v.IsJson) : v.Shown describe := by
  induction h with
  | list _ ih => exact shown_list ih
  | map hkeys _ _ ih =>
    refine shown_map (fun e he => ?_) ih
    obtain ⟨s, hs⟩ := hkeys e he
    rw [hs]
    exact ⟨_, rfl⟩
  | _ => exact ⟨_, rfl⟩

end Shown

/-- The paths that lead from a value to a part of it. -/
inductive Leads : Value → List Atom → Value → Prop
  | here {v : Value} : Leads v [] v
  | item {xs : List Value} {x y : Value} {i : Nat} {path : List Atom} (hx : xs[i]? = some x)
      (h : Leads x path y) : Leads (.list xs) (.int i :: path) y
  | field {es : List (Atom × Value)} {identity : Option Nat} {k : Atom} {v y : Value}
      {path : List Atom} (hv : (k, v) ∈ es) (h : Leads v path y) :
      Leads (.map es identity) (k :: path) y

theorem Leads.append {v w y : Value} {path more : List Atom} (h : v.Leads path w)
    (hmore : w.Leads more y) : v.Leads (path ++ more) y := by
  induction h with
  | here => exact hmore
  | item hx _ ih => exact .item hx (ih hmore)
  | field hv _ ih => exact .field hv (ih hmore)

theorem IsJson.item {xs : List Value} (h : (Value.list xs).IsJson) {x : Value} (hx : x ∈ xs) :
    x.IsJson := by
  cases h with
  | list hxs => exact hxs x hx

theorem IsJson.entry {es : List (Atom × Value)} {identity : Option Nat}
    (h : (Value.map es identity).IsJson) {e : Atom × Value} (he : e ∈ es) :
    e.2.IsJson ∧ ∃ s, e.1 = .str s := by
  cases h with
  | map hkeys _ hes => exact ⟨hes e he, hkeys e he⟩

/-- What is found in data under a key stands there under that very key. -/
theorem IsJson.mem_of_get? {es : List (Atom × Value)} {identity : Option Nat}
    (h : (Value.map es identity).IsJson) {k : Atom} {v : Value}
    (hget : OrderedMap.get? es k = some v) : (k, v) ∈ es ∧ ∃ s, k = .str s := by
  obtain ⟨k', hmem, hk⟩ := OrderedMap.mem_of_get? hget
  obtain ⟨_, s, hs⟩ := h.entry hmem
  have hs' : k' = .str s := hs
  subst hs'
  obtain rfl := Atom.str_beq_iff.mp hk
  exact ⟨hmem, s, rfl⟩

/-- A path leads to some part of a value. -/
def HasPath (v : Value) (path : List Atom) : Prop := ∃ w, v.Leads path w

/-- A part of data is made of data. -/
theorem IsJson.of_leads {v w : Value} {path : List Atom} (h : v.IsJson) (hpath : v.Leads path w) :
    w.IsJson := by
  induction hpath with
  | here => exact h
  | item hx _ ih => exact ih (h.item (List.mem_of_getElem? hx))
  | field hv _ ih => exact ih (h.entry hv).1

/-- The steps of a path into data can be shown. -/
theorem IsJson.display_path {v w : Value} {path : List Atom} (h : v.IsJson) (hpath : v.Leads path w)
    (describe : Describe) : ∃ texts, path.mapM (fun key => key.display describe) = .ok texts := by
  induction hpath with
  | here => exact ⟨[], rfl⟩
  | item hx _ ih =>
    obtain ⟨texts, htexts⟩ := ih (h.item (List.mem_of_getElem? hx))
    rw [List.mapM_cons, htexts]
    exact ⟨_, rfl⟩
  | @field es _ k v _ path hv _ ih =>
    obtain ⟨hjson, s, hs⟩ := h.entry hv
    obtain ⟨texts, htexts⟩ := ih hjson
    have hs' : k = .str s := hs
    subst hs'
    rw [List.mapM_cons, htexts]
    exact ⟨_, rfl⟩

theorem compareKeys_ok {relation : String} {a b : Atom} {x y : Bool}
    (hab : beforeAtom? a b = some x) (hba : beforeAtom? b a = some y) :
    ∃ o, Relevance.compareKeys relation a b = .ok o := by
  unfold Relevance.compareKeys
  rw [hab, hba]
  cases x with
  | true => exact ⟨_, rfl⟩
  | false => cases y <;> exact ⟨_, rfl⟩

theorem int_beq_iff {i j : Int} : ((.int i : Atom) == .int j) = true ↔ i = j := by
  change Atom.same (.int i) (.int j) = true ↔ i = j
  simp [Atom.same, Atom.number?, Number.same, Number.compare?]

/-- Two paths into the same data can be compared. -/
theorem IsJson.comparePaths_ok {v w w' : Value} {p q : List Atom} (h : v.IsJson) (hp : v.Leads p w)
    (hq : v.Leads q w') (relation : String) :
    ∃ o, Relevance.comparePaths relation p q = .ok o := by
  induction hp generalizing q with
  | here => exact ⟨.eq, rfl⟩
  | @item xs x _ i path hx _ ih =>
    cases hq with
    | here => exact ⟨.eq, rfl⟩
    | @item _ y _ j path' hy hq' =>
      unfold Relevance.comparePaths
      by_cases hij : ((.int i : Atom) == .int j) = true
      · have hsame : i = j := Int.ofNat.inj (int_beq_iff.mp hij)
        subst hsame
        rw [hx] at hy
        cases hy
        rw [if_pos hij]
        exact ih (h.item (List.mem_of_getElem? hx)) hq'
      · rw [if_neg hij]
        exact compareKeys_ok rfl rfl
  | @field es _ k v _ path hv _ ih =>
    cases hq with
    | here => exact ⟨.eq, rfl⟩
    | @field _ _ k' v' _ path' hv' hq' =>
      obtain ⟨hjson, s, hs⟩ := h.entry hv
      obtain ⟨_, s', hs'⟩ := h.entry hv'
      have hk : k = .str s := hs
      have hk' : k' = .str s' := hs'
      subst hk hk'
      unfold Relevance.comparePaths
      by_cases hkey : ((.str s : Atom) == .str s') = true
      · rw [if_pos hkey]
        obtain ⟨rfl⟩ := Atom.str_beq_iff.mp hkey
        have hvalue : some v = some v' := by
          cases h with
          | map _ hseparate _ =>
            exact (hseparate.get? hv (Atom.str_beq_iff.mpr rfl)).symm.trans
              (hseparate.get? hv' (Atom.str_beq_iff.mpr rfl))
        cases hvalue
        exact ih hjson hq'
      · rw [if_neg hkey]
        exact compareKeys_ok rfl rfl

end Value

end WireShape
