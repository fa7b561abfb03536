import Mathlib
import WireShape.Proofs.Binary64.Rendering
import WireShape.Proofs.Json.Shapes

/-!
# Texts of standard values

Where all numbers are finite, the compact text of a value decides it up to the order of keys. Names,
integers, decimals and quotations cannot be taken for each other: a name begins with a letter, a
quotation with a quotation mark, and a decimal has a point or an exponent, which no integer has. No
two integers are written alike, and no two decimals.

* `Atom.IsStandard`, `Value.IsStandard`: what the JSON standard knows.
* `Value.SameData`: one and the same data.
* `Json.eq_of_atomText?`: standard atoms with one text are one atom.
* `Value.IsStandard.sameShape_iff`: standard values of one shape are the same data.
-/

namespace WireShape

/-- Null, booleans, integers, finite decimals and text. -/
inductive Atom.IsStandard : Atom → Prop
  | null : IsStandard .null
  | bool (b : Bool) : IsStandard (.bool b)
  | int (i : Int) : IsStandard (.int i)
  | float {negative : Bool} {m : Nat} {e : Int} (h : (Binary64.finite negative m e).Canonical) :
      IsStandard (.float (.finite negative m e))
  | str (s : String) : IsStandard (.str s)

namespace Value

/-- Standard atoms in lists and under text keys. -/
inductive IsStandard : Value → Prop
  | atom {a : Atom} (ha : a.IsStandard) : IsStandard (.atom a)
  | list {xs : List Value} (hxs : ∀ x ∈ xs, IsStandard x) : IsStandard (.list xs)
  | map {es : List (Atom × Value)} {identity : Option Nat} (hkeys : ∀ e ∈ es, ∃ s, e.1 = .str s)
      (hseparate : OrderedMap.Separate es) (hes : ∀ e ∈ es, IsStandard e.2) :
      IsStandard (.map es identity)

/-- One and the same value: atoms of one kind, lists item by item, mappings key by key. -/
inductive SameData : Value → Value → Prop
  | atom (a : Atom) : SameData (.atom a) (.atom a)
  | list {xs ys : List Value} (h : List.Forall₂ SameData xs ys) : SameData (.list xs) (.list ys)
  | map {es fs : List (Atom × Value)} {i j : Option Nat}
      (h : ∀ k, Option.Rel SameData (OrderedMap.get? es k) (OrderedMap.get? fs k)) :
      SameData (.map es i) (.map fs j)

end Value

namespace Json

section Atoms

variable {a b : Atom} {i : Int} {s text : String} {negative : Bool} {m : Nat} {e : Int}

/-! ## Atoms -/

/-- An integer is written with digits, after a sign perhaps. -/
theorem isDigit_of_mem_int {c : Char} (h : c ∈ (toString i).toList) : c.isDigit = true ∨ c = '-' := by
  have hnat : ∀ {n : Nat}, c ∈ n.repr.toList → c.isDigit = true := by
    intro n hc
    rw [Nat.repr_eq_ofList_toDigits, String.toList_ofList] at hc
    exact Nat.isDigit_of_mem_toDigits (by decide) (by decide) hc
  rw [Int.toString_eq_repr, Int.repr_eq_if] at h
  split at h
  · exact .inl (hnat h)
  · rw [String.toList_append] at h
    rcases List.mem_append.mp h with hsign | hdigits
    · exact .inr (List.mem_singleton.mp hsign)
    · exact .inl (hnat hdigits)

theorem int_ne_empty : toString i ≠ "" := by
  rw [Int.toString_eq_repr, Int.repr_eq_if]
  split
  · exact Nat.repr_ne_empty
  · exact fun h => Nat.repr_ne_empty (String.append_eq_empty_iff.mp h).2

theorem floatText_finite :
    floatText (.finite negative m e) = (Binary64.finite negative m e).render := rfl

/-- A text that begins as a number does, with a digit or a sign. -/
def IsNumeral (text : String) : Prop :=
  ∃ c rest, text.toList = c :: rest ∧ (c.isDigit = true ∨ c = '-')

theorem isNumeral_int : IsNumeral (toString i) := by
  cases htext : (toString i).toList with
  | nil => exact absurd (String.toList_eq_nil_iff.mp htext) int_ne_empty
  | cons c rest =>
    exact ⟨c, rest, htext, isDigit_of_mem_int (htext ▸ List.mem_cons_self)⟩

theorem isNumeral_float (h : (Binary64.finite negative m e).Canonical) :
    IsNumeral (floatText (.finite negative m e)) := by
  obtain ⟨c, rest, hbody, hc, _⟩ := Binary64.bodyText_first h
  unfold IsNumeral
  rw [floatText_finite, Binary64.toList_render, hbody]
  cases negative
  · exact ⟨c, rest, rfl, .inl hc⟩
  · exact ⟨'-', c :: rest, rfl, .inr rfl⟩

/-- No number is written as a name is. -/
theorem IsNumeral.ne_name (h : IsNumeral text) (hs : s ∈ ["null", "true", "false"]) : text ≠ s := by
  obtain ⟨c, rest, htext, hc⟩ := h
  rintro rfl
  have hname : ∀ s ∈ ["null", "true", "false"],
      (s.toList.head?.any fun c => c.isDigit || c == '-') = false := by decide
  have hfirst := hname _ hs
  rw [htext, List.head?_cons, Option.any_some, Bool.or_eq_false_iff, beq_eq_false_iff_ne] at hfirst
  rcases hc with hdigit | hsign
  · cases hfirst.1.symm.trans hdigit
  · exact hfirst.2 hsign

/-- No number is written as a quotation is. -/
theorem IsNumeral.ne_quote (h : IsNumeral text) : text ≠ quote s := by
  obtain ⟨c, rest, htext, hc⟩ := h
  rintro rfl
  rw [quote_toList] at htext
  obtain ⟨rfl, _⟩ := List.cons.inj htext
  exact absurd hc (by decide)

theorem name_ne_quote (hs : text ∈ ["null", "true", "false"]) : text ≠ quote s := by
  rintro rfl
  have hname : ∀ s ∈ ["null", "true", "false"], s.toList.head? ≠ some Text.doubleQuote := by decide
  exact hname _ hs (by rw [quote_toList]; rfl)

/-- A decimal has a character that no integer has. -/
theorem int_ne_float (h : (Binary64.finite negative m e).Canonical) :
    toString i ≠ floatText (.finite negative m e) := by
  intro heq
  have hmark : ∀ c, c.isDigit = false → c ≠ '-' →
      c ∉ (Binary64.render (.finite negative m e)).toList := by
    intro c hdigit hsign hc
    rw [← floatText_finite, ← heq] at hc
    rcases isDigit_of_mem_int hc with hyes | hminus
    · cases hdigit.symm.trans hyes
    · exact hsign hminus
  rcases Binary64.render_mark h with hpoint | hexponent
  · exact hmark '.' rfl (by decide) hpoint
  · exact hmark 'e' rfl (by decide) hexponent

theorem floatText_injective {x y : Binary64} (hx : (Atom.float x).IsStandard)
    (hy : (Atom.float y).IsStandard) (h : floatText x = floatText y) : x = y := by
  cases hx with
  | float hx =>
    cases hy with
    | float hy =>
      rw [floatText_finite, floatText_finite] at h
      exact Binary64.render_injective hx hy h

/-- The text of a standard atom is that of no other standard atom. -/
theorem eq_of_atomText? (ha : a.IsStandard) (hb : b.IsStandard) (h : atomText? a = atomText? b) :
    a = b := by
  have hname : ∀ x : Bool, (if x then "true" else "false") ∈ ["null", "true", "false"] := by decide
  have hnull : "null" ∈ ["null", "true", "false"] := by decide
  have hbool : ∀ x : Bool, "null" ≠ if x then "true" else "false" := by decide
  cases ha with
  | null =>
    cases hb with
    | null => rfl
    | bool y => exact absurd (Option.some.inj h) (hbool y)
    | int => exact absurd (Option.some.inj h).symm (isNumeral_int.ne_name hnull)
    | float hy => exact absurd (Option.some.inj h).symm ((isNumeral_float hy).ne_name hnull)
    | str => exact absurd (Option.some.inj h) (name_ne_quote hnull)
  | bool x =>
    cases hb with
    | null => exact absurd (Option.some.inj h).symm (hbool x)
    | bool y =>
      have hinj : ∀ x y : Bool, (if x then "true" else "false") = (if y then "true" else "false") →
          x = y := by decide
      rw [hinj x y (Option.some.inj h)]
    | int => exact absurd (Option.some.inj h).symm (isNumeral_int.ne_name (hname x))
    | float hy => exact absurd (Option.some.inj h).symm ((isNumeral_float hy).ne_name (hname x))
    | str => exact absurd (Option.some.inj h) (name_ne_quote (hname x))
  | int i =>
    cases hb with
    | null => exact absurd (Option.some.inj h) (isNumeral_int.ne_name hnull)
    | bool y => exact absurd (Option.some.inj h) (isNumeral_int.ne_name (hname y))
    | int j => rw [Int.repr_injective (Option.some.inj h)]
    | float hy => exact absurd (Option.some.inj h) (int_ne_float hy)
    | str => exact absurd (Option.some.inj h) isNumeral_int.ne_quote
  | float hx =>
    cases hb with
    | null => exact absurd (Option.some.inj h) ((isNumeral_float hx).ne_name hnull)
    | bool y => exact absurd (Option.some.inj h) ((isNumeral_float hx).ne_name (hname y))
    | int => exact absurd (Option.some.inj h).symm (int_ne_float hx)
    | float hy => rw [floatText_injective (.float hx) (.float hy) (Option.some.inj h)]
    | str => exact absurd (Option.some.inj h) (isNumeral_float hx).ne_quote
  | str s =>
    cases hb with
    | null => exact absurd (Option.some.inj h).symm (name_ne_quote hnull)
    | bool y => exact absurd (Option.some.inj h).symm (name_ne_quote (hname y))
    | int => exact absurd (Option.some.inj h).symm isNumeral_int.ne_quote
    | float hy => exact absurd (Option.some.inj h).symm (isNumeral_float hy).ne_quote
    | str t =>
      have hquoted : (quote s).toList ++ [] = (quote t).toList ++ [] := by rw [Option.some.inj h]
      rw [(quote_cancel hquoted).1]

/-- Standard atoms have a text. -/
theorem exists_atomText? (ha : a.IsStandard) : ∃ text, atomText? a = some text ∧ text ≠ "" := by
  have hnumeral : ∀ {text}, IsNumeral text → text ≠ "" := by
    rintro _ ⟨c, rest, htext, _⟩ rfl
    cases htext
  cases ha with
  | null => exact ⟨_, rfl, by decide⟩
  | bool b => exact ⟨_, rfl, by cases b <;> decide⟩
  | int i => exact ⟨_, rfl, int_ne_empty⟩
  | float h => exact ⟨_, rfl, hnumeral (isNumeral_float h)⟩
  | str s =>
    refine ⟨_, rfl, fun hempty => ?_⟩
    have hfirst := congrArg String.toList hempty
    rw [quote_toList] at hfirst
    cases hfirst

end Atoms

end Json

namespace Value

open Json (atomText? eq_of_atomText? exists_atomText?)

variable {v w : Value} {xs : List Value} {es fs : List (Atom × Value)} {i j : Option Nat}

/-! ## Values -/

/-- What is related in one way is related in another way if that holds of what is there. -/
theorem optionRel_imp {α β : Type} {R S : α → β → Prop} {a : Option α} {b : Option β}
    (h : Option.Rel R a b) (hRS : ∀ x, a = some x → ∀ y, b = some y → R x y → S x y) :
    Option.Rel S a b := by
  cases h with
  | none => exact .none
  | some hr => exact .some (hRS _ rfl _ rfl hr)

theorem sameData_atom_iff {a b : Atom} : (atom a).SameData (atom b) ↔ a = b := by
  constructor
  · intro h
    cases h
    rfl
  · rintro rfl
    exact .atom a

theorem sameData_map_iff : (map es i).SameData (map fs j) ↔
    ∀ k, Option.Rel SameData (OrderedMap.get? es k) (OrderedMap.get? fs k) :=
  ⟨fun h => by cases h with | map h => exact h, .map⟩

theorem sameData_list_iff {ys : List Value} :
    (list xs).SameData (list ys) ↔ List.Forall₂ SameData xs ys :=
  ⟨fun h => by cases h with | list h => exact h, .list⟩

namespace IsStandard

theorem ofAtom {a : Atom} (h : (Value.atom a).IsStandard) : a.IsStandard := by
  cases h with
  | atom ha => exact ha

theorem item (h : (Value.list xs).IsStandard) {x : Value} (hx : x ∈ xs) : x.IsStandard := by
  cases h with
  | list hxs => exact hxs x hx

theorem found (h : (Value.map es i).IsStandard) {k : Atom} (hv : OrderedMap.get? es k = some v) :
    v.IsStandard := by
  obtain ⟨k', hmem, _⟩ := OrderedMap.mem_of_get? hv
  cases h with
  | map _ _ hes => exact hes (k', v) hmem

/-- Standard values have a form in JSON. -/
theorem writable (h : v.IsStandard) : v.Writable := by
  induction h with
  | atom ha =>
    obtain ⟨text, htext, hne⟩ := exists_atomText? ha
    exact .atom htext hne
  | list _ ih => exact .list ih
  | map hkeys hseparate _ ih => exact .map hkeys hseparate ih

theorem withoutTitle (h : v.IsStandard) : (Json.withoutTitle v).IsStandard := by
  cases h with
  | map hkeys hseparate hes =>
    exact .map (fun e he => hkeys e (List.mem_of_mem_filter he)) (hseparate.filter _)
      fun e he => hes e (List.mem_of_mem_filter he)
  | list hxs => exact .list hxs
  | atom ha => exact .atom ha

/-- Standard values of one shape are the same data. -/
theorem sameData (hv : v.IsStandard) (hw : w.IsStandard) (h : v.SameShape w) : v.SameData w := by
  induction hv generalizing w with
  | @atom a ha =>
    cases h with
    | atom htext htext' =>
      obtain rfl := eq_of_atomText? ha hw.ofAtom (htext.trans htext'.symm)
      exact .atom a
  | list _ ih =>
    cases h with
    | list h => exact .list (forall₂_imp_mem₂ (fun x hx y hy => ih x hx (hw.item hy)) h)
  | map _ _ _ ih =>
    cases h with
    | map h =>
      refine .map fun k => optionRel_imp (h k) fun v hv w' hw' hsame => ?_
      obtain ⟨k', hmem, _⟩ := OrderedMap.mem_of_get? hv
      exact ih (k', v) hmem (hw.found hw') hsame

/-- The same data have one shape. -/
theorem sameShape (hv : v.IsStandard) (h : v.SameData w) : v.SameShape w := by
  induction hv generalizing w with
  | atom ha =>
    cases h with
    | atom =>
      obtain ⟨text, htext, _⟩ := exists_atomText? ha
      exact .atom htext htext
  | list _ ih =>
    cases h with
    | list h => exact .list (forall₂_imp_mem (fun x hx _ => ih x hx) h)
  | map _ _ _ ih =>
    cases h with
    | map h =>
      refine .map fun k => optionRel_imp (h k) fun v hv w' _ hsame => ?_
      obtain ⟨k', hmem, _⟩ := OrderedMap.mem_of_get? hv
      exact ih (k', v) hmem hsame

theorem sameShape_iff (hv : v.IsStandard) (hw : w.IsStandard) : v.SameShape w ↔ v.SameData w :=
  ⟨hv.sameData hw, hv.sameShape⟩

end IsStandard

theorem get?_withoutTitle {k : Atom} : OrderedMap.get? (OrderedMap.erase es (.str "title")) k =
    if k = .str "title" then none else OrderedMap.get? es k := by
  by_cases hk : k = .str "title"
  · rw [if_pos hk, hk]
    exact OrderedMap.get?_erase_self
  · rw [if_neg hk]
    refine OrderedMap.get?_erase_of_ne (Bool.eq_false_iff.mpr fun heq => hk ?_)
    exact Atom.str_beq_iff.mp heq

end Value

namespace Json

variable {v w : Value}

/-- The text of standard data decides the data. -/
theorem standard_text_iff {fallback : Fallback} (hv : v.IsStandard) (hw : w.IsStandard) :
    ∃ s t, write compact fallback v = .ok s ∧ write compact fallback w = .ok t ∧
      (s = t ↔ v.SameData w) := by
  obtain ⟨s, hs⟩ := @exists_writeAt fallback 0 v hv.writable
  obtain ⟨t, ht⟩ := @exists_writeAt fallback 0 w hw.writable
  have hs : write compact fallback v = .ok s := hs
  have ht : write compact fallback w = .ok t := ht
  have htexts := @write_eq_iff fallback v w hv.writable hw.writable
  rw [hs, ht, hv.sameShape_iff hw, Except.ok.injEq] at htexts
  exact ⟨s, t, hs, ht, htexts⟩

end Json

end WireShape
