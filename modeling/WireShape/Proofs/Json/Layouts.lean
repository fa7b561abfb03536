import WireShape.Proofs.Json.Reordered

/-!
# Values that have a text in every layout

A layout decides where blanks stand and whether keys are sorted, not whether a value has a text: the
compact text asks the most, for its keys must be comparable. So a value with a compact text can be
written in every layout.

* `Json.exists_sorted`: the entries of a mapping with a text, in the order of their keys.
* `Json.writeAt_layout`: a value with a compact text has a text in each layout.
-/

namespace WireShape.Json

open Value (Fields)

variable {layout : Layout} {fallback : Fallback} {level level' : Nat} {es : Fields}
  {i : Option Nat} {text : String}

/-- The entries of a mapping that has a text can be sorted. -/
theorem exists_sorted (hwrite : writeAt compact fallback level (.map es i) = .ok text) :
    ∃ sorted, RunSort.sortRun? (fun e f : Atom × Value => keyBefore e.1 f.1) es = .ok sorted := by
  rw [writeAt_map_eq, RunSort.sortRun?_map] at hwrite
  obtain ⟨_, hsorted, _⟩ := bind_eq_ok_iff.mp hwrite
  cases hsort : RunSort.sortRun? (fun e f : Atom × Value => keyBefore e.1 f.1) es with
  | error =>
    rw [hsort] at hsorted
    cases hsorted
  | ok sorted => exact ⟨sorted, rfl⟩

/-- In each layout a mapping has the texts of its entries, in some order. -/
theorem exists_arrange (hwrite : writeAt compact fallback level (.map es i) = .ok text)
    (hes : ∀ e ∈ es, ∃ t, writeAt layout fallback level' e.2 = .ok t) :
    ∃ texts, layout.arrange (writeEntries layout fallback level' es) = .ok texts := by
  have hparts : ∀ {mid : Fields}, (∀ e ∈ mid, e ∈ es) → ∃ texts,
      ((mid.map fun e => (e.1, writeAt layout fallback level' e.2)).mapM fun entry => do
        return (← keyText entry.1) ++ layout.keySeparator ++ (← entry.2)) = .ok texts := by
    intro mid hmid
    have hall : ∀ entry ∈ mid.map fun e => (e.1, writeAt layout fallback level' e.2), ∃ t, (do
        return (← keyText entry.1) ++ layout.keySeparator ++ (← entry.2)) = .ok t := by
      intro entry hentry
      obtain ⟨e, he, rfl⟩ := List.mem_map.mp hentry
      obtain ⟨⟨key, hkey⟩, _⟩ := exists_text_of_writeAt hwrite (hmid e he)
      obtain ⟨t, ht⟩ := hes e (hmid e he)
      exact ⟨_, bind_eq_ok_iff.mpr ⟨key, hkey, bind_eq_ok_iff.mpr ⟨t, ht, rfl⟩⟩⟩
    obtain ⟨texts, htexts, _⟩ := mapM_ok hall
    exact ⟨texts, htexts⟩
  rw [writeEntries_eq]
  unfold Layout.arrange
  split
  · obtain ⟨sorted, hsorted⟩ := exists_sorted hwrite
    obtain ⟨texts, htexts⟩ := hparts fun e he => (RunSort.sortRun?_perm hsorted).mem_iff.mp he
    rw [RunSort.sortRun?_map, hsorted]
    exact ⟨texts, htexts⟩
  · exact hparts fun _ he => he

/-- What has a compact text has a text in each layout. -/
theorem writeAt_layout (v : Value) {level level' : Nat} {text : String}
    (hwrite : writeAt compact fallback level v = .ok text) :
    ∃ text', writeAt layout fallback level' v = .ok text' := by
  -- On the size, for the values of a mapping stand in pairs.
  induction hsize : sizeOf v using Nat.strong_induction_on generalizing v level level' text with
  | h n ih =>
    subst hsize
    cases v with
    | list xs =>
      obtain ⟨texts, hall, _⟩ := writeAt_list_iff.mp hwrite
      have hitems : ∀ x ∈ xs, ∃ t, writeAt layout fallback (level' + 1) x = .ok t := by
        intro x hx
        obtain ⟨t, _, ht⟩ := forall₂_left hall hx
        have hsmall : sizeOf x < sizeOf xs := List.sizeOf_lt_of_mem hx
        exact ih _ (by rw [Value.list.sizeOf_spec]; omega) x ht rfl
      obtain ⟨texts', hall'⟩ := forall₂_of_forall_exists hitems
      rw [writeAt, writeItems_iff.mpr hall']
      exact ⟨_, rfl⟩
    | map es i =>
      have hes : ∀ e ∈ es, ∃ t, writeAt layout fallback (level' + 1) e.2 = .ok t := by
        intro e he
        obtain ⟨_, t, ht⟩ := exists_text_of_writeAt hwrite he
        have hsmall : sizeOf e < sizeOf es := List.sizeOf_lt_of_mem he
        have hvalue : sizeOf e = 1 + sizeOf e.1 + sizeOf e.2 := Prod.mk.sizeOf_spec e.1 e.2
        exact ih _ (by rw [Value.map.sizeOf_spec]; omega) e.2 ht rfl
      obtain ⟨texts, htexts⟩ := exists_arrange hwrite hes
      rw [writeAt, htexts]
      exact ⟨_, rfl⟩
    -- The rest has one text wherever it stands.
    | _ => exact ⟨text, hwrite⟩

end WireShape.Json
