import Mathlib
import WireShape.Document
import WireShape.Proofs.Json.Standard

/-!
# Texts that decide what they say

The compact text of a standard value decides it up to the order of keys. So two schemas have one shape
if and only if they are the same data but for their titles, and the text of which a digest is taken is
the same if and only if the documents are the same data.

* `Value.IsExact`: null, booleans, integers and text, in lists and under text keys.
* `Value.SameButTitle`: the same data but for the title at the top.
* `Json.standard_shape_iff`: what it means that the shapes of standard values are equal.
* `Json.texts_decide`: what it means that the texts of exact values are equal.
-/

namespace WireShape

namespace Value

/-- Data whose numbers are integers. -/
inductive IsExact : Value → Prop
  | null : IsExact .null
  | bool (b : Bool) : IsExact (.bool b)
  | int (i : Int) : IsExact (.int i)
  | str (s : String) : IsExact (.str s)
  | list {xs : List Value} (hxs : ∀ x ∈ xs, IsExact x) : IsExact (.list xs)
  | map {es : List (Atom × Value)} {identity : Option Nat} (hkeys : ∀ e ∈ es, ∃ s, e.1 = .str s)
      (hseparate : OrderedMap.Separate es) (hes : ∀ e ∈ es, IsExact e.2) : IsExact (.map es identity)

/-- The same data, but for an entry under the key title at the top. -/
def SameButTitle : Value → Value → Prop
  | .map es _, .map fs _ => ∀ k, k ≠ .str "title" →
      Option.Rel SameData (OrderedMap.get? es k) (OrderedMap.get? fs k)
  | v, w => v.SameData w

end Value

namespace Value

variable {v w : Value}

/-- Data whose numbers are integers are standard. -/
theorem IsExact.isStandard (h : v.IsExact) : v.IsStandard := by
  induction h with
  | null => exact .atom .null
  | bool b => exact .atom (.bool b)
  | int i => exact .atom (.int i)
  | str s => exact .atom (.str s)
  | list _ ih => exact .list ih
  | map hkeys hseparate _ ih => exact .map hkeys hseparate ih

theorem IsExact.writable (h : v.IsExact) : v.Writable := h.isStandard.writable

/-- Exact values of one shape are the same data. -/
theorem IsExact.sameShape_iff (hv : v.IsExact) (hw : w.IsExact) : v.SameShape w ↔ v.SameData w :=
  hv.isStandard.sameShape_iff hw.isStandard

/-- Values without their titles are the same data if they are so but for their titles. -/
theorem sameData_withoutTitle_iff :
    (Json.withoutTitle v).SameData (Json.withoutTitle w) ↔ v.SameButTitle w := by
  cases v with
  | map es i =>
    cases w with
    | map fs j =>
      unfold SameButTitle
      refine sameData_map_iff.trans (forall_congr' fun k => ?_)
      rw [get?_withoutTitle, get?_withoutTitle]
      by_cases hk : k = .str "title"
      · rw [if_pos hk, if_pos hk]
        exact ⟨fun _ hne => absurd hk hne, fun _ => .none⟩
      · rw [if_neg hk, if_neg hk]
        exact ⟨fun h _ => h, fun h => h hk⟩
    | _ => exact ⟨fun h => (by cases h), fun h => (by cases h)⟩
  | _ =>
    cases w with
    | map fs j => exact ⟨fun h => (by cases h), fun h => (by cases h)⟩
    | _ => exact Iff.rfl

end Value

namespace Json

variable {v w : Value}

/-- The shape of standard data decides the data, but for their titles. -/
theorem standard_shape_iff {describe : Describe} (hv : v.IsStandard) (hw : w.IsStandard) :
    ∃ s t, canonical describe v = .ok s ∧ canonical describe w = .ok t ∧
      (s = t ↔ v.SameButTitle w) := by
  rw [← Value.sameData_withoutTitle_iff]
  exact standard_text_iff hv.withoutTitle hw.withoutTitle

/-- The text of exact data decides the data. -/
theorem exact_text_iff {fallback : Fallback} (hv : v.IsExact) (hw : w.IsExact) :
    ∃ s t, write compact fallback v = .ok s ∧ write compact fallback w = .ok t ∧
      (s = t ↔ v.SameData w) := standard_text_iff hv.isStandard hw.isStandard

/-- The shape of exact data decides the data, but for their titles. -/
theorem exact_shape_iff {describe : Describe} (hv : v.IsExact) (hw : w.IsExact) :
    ∃ s t, canonical describe v = .ok s ∧ canonical describe w = .ok t ∧
      (s = t ↔ v.SameButTitle w) := standard_shape_iff hv.isStandard hw.isStandard

/-- The schema of a name, under a title. -/
def titledName : Value := .ofFields [("title", .str "Name"), ("type", .str "string")]

/-- The same schema without the title. -/
def bareName : Value := .ofFields [("type", .str "string")]

end Json

end WireShape
