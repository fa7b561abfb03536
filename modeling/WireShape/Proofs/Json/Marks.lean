import Mathlib.Data.List.Forall2
import WireShape.Proofs.Json.Text

/-!
# Where the text of a value ends

The text of a number or a name has none of the characters that separate values, and text in quotation
marks ends at its quotation mark. So if two texts of atoms are equal together with what follows them,
they are equal by themselves, and texts between brackets can be taken off one by one.

* `Json.isMark`, `Json.isClosing`: the characters that separate values.
* `Json.atomText?_cancel`: texts of atoms end where something that closes a value begins.
* `Json.joined_cancel`: equal texts between brackets are equal one by one.
-/

namespace WireShape.Json

/-! ## Numbers and names -/

/-- The characters that mark where values begin and end. -/
def isMark (c : Char) : Bool := [',', ']', '\x7d', '[', '\x7b', Text.doubleQuote].contains c

/-- The characters that stand after a value. -/
def isClosing (c : Char) : Bool := [',', ']', '\x7d'].contains c

theorem isMark_of_isClosing {c : Char} (h : isClosing c = true) : isMark c = true := by
  simp only [isClosing, isMark, List.contains_iff_mem, List.mem_cons, List.not_mem_nil] at h ⊢
  tauto

/-- A text without marks. -/
def Unmarked (cs : List Char) : Prop := ∀ c ∈ cs, isMark c = false

theorem Unmarked.append {cs ds : List Char} (h : Unmarked cs) (h' : Unmarked ds) :
    Unmarked (cs ++ ds) := by
  intro c hc
  rcases List.mem_append.mp hc with hc | hc
  · exact h c hc
  · exact h' c hc

theorem Unmarked.cons {c : Char} {cs : List Char} (hc : isMark c = false) (h : Unmarked cs) :
    Unmarked (c :: cs) := List.forall_mem_cons.mpr ⟨hc, h⟩

theorem unmarked_of {cs : List Char} (h : cs.all (fun c => !isMark c) = true) : Unmarked cs := by
  intro c hc
  simpa using List.all_eq_true.mp h c hc

theorem unmarked_replicate {n : Nat} : Unmarked (List.replicate n '0') := by
  intro c hc
  rw [(List.mem_replicate.mp hc).2]
  rfl

theorem unmarked_toDigits {n : Nat} : Unmarked (Nat.toDigits 10 n) := by
  intro c hc
  have hdigit := Nat.isDigit_of_mem_toDigits (by decide) (by decide) hc
  refine Bool.eq_false_iff.mpr fun hmark => ?_
  simp only [isMark, List.contains_iff_mem, List.mem_cons, List.not_mem_nil, or_false] at hmark
  rcases hmark with rfl | rfl | rfl | rfl | rfl | rfl <;> exact absurd hdigit (by decide)

theorem unmarked_renderDigits {digits : List Char} {x : Int} (h : Unmarked digits) :
    Unmarked (Binary64.renderDigits digits x) := by
  have hexponent : Unmarked (Binary64.renderExponent x) := by
    unfold Binary64.renderExponent
    refine .cons rfl (.cons ?_ ?_)
    · split <;> rfl
    · split
      · exact .cons rfl unmarked_toDigits
      · exact unmarked_toDigits
  unfold Binary64.renderDigits
  split
  · split
    · exact fun _ hc => by cases hc
    · exact .cons (h _ List.mem_cons_self) hexponent
    · obtain ⟨hd, hrest⟩ := List.forall_mem_cons.mp h
      exact .cons hd (.cons rfl (.append hrest hexponent))
  · split
    · exact .cons rfl (.cons rfl (.append unmarked_replicate h))
    · refine .append (.append (fun c hc => h c (List.mem_of_mem_take hc)) unmarked_replicate)
        (.cons rfl ?_)
      split
      · exact .cons rfl fun _ hc => by cases hc
      · exact fun c hc => h c (List.mem_of_mem_drop hc)

theorem unmarked_floatText {x : Binary64} : Unmarked (floatText x).toList := by
  cases x with
  | nan payload =>
    have hname : floatText (.nan payload) = "NaN" := rfl
    rw [hname]
    exact unmarked_of (by decide)
  | infinite negative =>
    cases negative with
    | true => exact unmarked_of (by decide)
    | false => exact unmarked_of (by decide)
  | finite negative m e =>
    have hbody : ∀ body, Unmarked body →
        Unmarked (String.ofList (if negative then '-' :: body else body)).toList := by
      intro body hbody
      rw [String.toList_ofList]
      split
      · exact .cons rfl hbody
      · exact hbody
    refine hbody _ ?_
    split
    · exact unmarked_of (by decide)
    · refine unmarked_renderDigits fun c hc => ?_
      have hmem := List.mem_reverse.mp (List.dropWhile_subset _ (List.mem_reverse.mp hc))
      exact unmarked_toDigits c hmem

/-- The text of an atom is a quotation or has no marks. -/
theorem atomText?_cases {a : Atom} {text : String} (h : atomText? a = some text) :
    (∃ s, a = .str s ∧ text = quote s) ∨ (∀ s, a ≠ .str s) ∧ Unmarked text.toList := by
  cases a with
  | str s => exact .inl ⟨s, rfl, (Option.some.inj h).symm⟩
  | null =>
    cases h
    exact .inr ⟨fun _ h => (by cases h), unmarked_of (by decide)⟩
  | bool b =>
    cases h
    refine .inr ⟨fun _ h => (by cases h), ?_⟩
    cases b with
    | true => exact unmarked_of (by decide)
    | false => exact unmarked_of (by decide)
  | int i =>
    cases h
    refine .inr ⟨fun _ h => (by cases h), ?_⟩
    have hnat : ∀ n : Nat, Unmarked n.repr.toList := by
      intro n
      rw [Nat.repr_eq_ofList_toDigits, String.toList_ofList]
      exact unmarked_toDigits
    rw [Int.toString_eq_repr, Int.repr_eq_if]
    split
    · exact hnat _
    · rw [String.toList_append]
      exact .append (unmarked_of (by decide)) (hnat _)
  | float x =>
    cases h
    exact .inr ⟨fun _ h => (by cases h), unmarked_floatText⟩
  | _ => cases h

/-- What can follow a value: nothing, or a character that closes it. -/
def Stops (r : List Char) : Prop := ∀ c, r.head? = some c → isClosing c = true

theorem stops_cons {c : Char} {r : List Char} (hc : isClosing c = true) : Stops (c :: r) := by
  intro _ h
  cases h
  exact hc

/-- What follows a value does not begin with a character without mark. -/
theorem Stops.ne_cons {c : Char} {r tail : List Char} (hr : Stops r) (hc : isMark c = false) :
    r ≠ c :: tail := by
  rintro rfl
  exact absurd (hc.symm.trans (isMark_of_isClosing (hr c rfl))) Bool.false_ne_true

/-- Texts without marks end where something that stops them begins. -/
theorem unmarked_cancel {cs ds r r' : List Char} (hcs : Unmarked cs) (hds : Unmarked ds)
    (hr : Stops r) (hr' : Stops r') (h : cs ++ r = ds ++ r') : cs = ds ∧ r = r' := by
  induction cs generalizing ds with
  | nil =>
    cases ds with
    | nil => exact ⟨rfl, h⟩
    | cons d ds => exact absurd h (hr.ne_cons (hds d List.mem_cons_self))
  | cons c cs ih =>
    cases ds with
    | nil => exact absurd h.symm (hr'.ne_cons (hcs c List.mem_cons_self))
    | cons d ds =>
      obtain ⟨rfl, htail⟩ := List.cons.inj h
      obtain ⟨rfl, hrest⟩ := ih (fun c hc => hcs c (List.mem_cons_of_mem _ hc))
        (fun c hc => hds c (List.mem_cons_of_mem _ hc)) htail
      exact ⟨rfl, hrest⟩

section Atoms

variable {a b : Atom} {text s t : String} {r r' : List Char}

/-- A number or a name begins as neither a list nor a mapping does, and as nothing that can follow a
value. -/
theorem atomText?_first (h : atomText? a = some text) (hne : text ≠ "") :
    ∃ c rest, text.toList = c :: rest ∧ isClosing c = false ∧ c ≠ '[' ∧ c ≠ '\x7b' := by
  rcases atomText?_cases h with ⟨s, _, rfl⟩ | ⟨_, hplain⟩
  · exact ⟨_, _, quote_toList, by decide⟩
  · cases htext : text.toList with
    | nil => exact absurd (String.toList_eq_nil_iff.mp htext) hne
    | cons c rest =>
      rw [htext] at hplain
      have hc := hplain c List.mem_cons_self
      refine ⟨c, rest, rfl, Bool.eq_false_iff.mpr fun hclosing => ?_, ?_, ?_⟩
      · exact absurd (hc.symm.trans (isMark_of_isClosing hclosing)) Bool.false_ne_true
      · rintro rfl
        exact absurd hc (by decide)
      · rintro rfl
        exact absurd hc (by decide)

/-- A quotation does not begin as a text without marks, with something after it, does. -/
theorem quote_ne_unmarked {cs : List Char} (hcs : Unmarked cs) (hr : Stops r) {tail : List Char} :
    (quote s).toList ++ tail ≠ cs ++ r := by
  rw [quote_toList]
  intro h
  cases cs with
  | nil => exact absurd (hr _ (congrArg List.head? h).symm) (by decide)
  | cons c cs =>
    obtain ⟨rfl, _⟩ := List.cons.inj h
    exact absurd (hcs _ List.mem_cons_self) (by decide)

/-- Equal texts of atoms, with something after them, are the same text. -/
theorem atomText?_cancel (ha : atomText? a = some s) (hb : atomText? b = some t)
    (hr : Stops r) (hr' : Stops r') (h : s.toList ++ r = t.toList ++ r') : s = t ∧ r = r' := by
  rcases atomText?_cases ha with ⟨name, _, rfl⟩ | ⟨_, hs⟩ <;>
    rcases atomText?_cases hb with ⟨name', _, rfl⟩ | ⟨_, ht⟩
  · obtain ⟨rfl, hrest⟩ := quote_cancel h
    exact ⟨rfl, hrest⟩
  · exact absurd h (quote_ne_unmarked ht hr')
  · exact absurd h.symm (quote_ne_unmarked hs hr)
  · obtain ⟨htext, hrest⟩ := unmarked_cancel hs ht hr hr' h
    exact ⟨String.toList_inj.mp htext, hrest⟩

end Atoms

/-! ## Texts between brackets -/

/-- Texts one after the other with commas between them. -/
def joined (texts : List String) : List Char := [','].intercalate (texts.map String.toList)

/-- What comes after the first of several texts, up to the end of the brackets. -/
def following (closing : List Char) : List String → List Char
  | [] => closing
  | texts => ',' :: (joined texts ++ closing)

theorem joined_cons {text : String} {texts : List String} {closing : List Char} :
    joined (text :: texts) ++ closing = text.toList ++ following closing texts := by
  cases texts with
  | nil => simp [joined, following]
  | cons next texts =>
    simp only [joined, following, List.map_cons, List.intercalate_cons_cons, List.append_assoc,
      List.cons_append, List.nil_append]

theorem enclose_toList {level : Nat} {opening closing : String} {texts : List String} :
    (compact.enclose level opening closing texts).toList =
      opening.toList ++ (joined texts ++ closing.toList) := by
  have hstart : ∀ level, compact.lineStart level = "" := fun _ => rfl
  have hseparator : compact.itemSeparator = "," := rfl
  unfold Layout.enclose
  cases texts with
  | nil => simp [joined]
  | cons text texts =>
    simp only [hstart, hseparator, String.append_empty, List.isEmpty_cons, Bool.false_eq_true,
      if_false, String.toList_append, String.toList_intercalate, List.append_assoc, joined]
    rfl

section Lists

variable {α β : Type} {R : α → β → Prop} {A : α → String → Prop} {B : β → String → Prop}
  {xs : List α} {ys : List β} {texts texts' : List String} {c : Char} {r r' : List Char}

/-- A text that does not begin as what follows a value does. -/
def Begins (text : String) : Prop := ∃ c rest, text.toList = c :: rest ∧ isClosing c = false

theorem Begins.append_ne {text : String} {c : Char} {tail r : List Char} (h : Begins text)
    (hc : isClosing c = true) : c :: r ≠ text.toList ++ tail := by
  obtain ⟨d, rest, htext, hd⟩ := h
  rw [htext]
  intro heq
  obtain ⟨rfl, _⟩ := List.cons.inj heq
  exact absurd (hd.symm.trans hc) Bool.false_ne_true

theorem stops_following {closing : List Char} (h : Stops closing) :
    Stops (following closing texts) := by
  cases texts with
  | nil => exact h
  | cons => exact stops_cons rfl

/-- Equal texts between brackets are texts of elements that are related one by one, if texts of
elements can be taken off one by one. -/
theorem joined_cancel (hxs : List.Forall₂ A xs texts) (hys : List.Forall₂ B ys texts')
    (hc : isClosing c = true) (hcomma : c ≠ ',') (hA : ∀ x ∈ xs, ∀ s, A x s → Begins s)
    (hB : ∀ y ∈ ys, ∀ t, B y t → Begins t)
    (hcancel : ∀ x ∈ xs, ∀ y ∈ ys, ∀ s t, A x s → B y t → ∀ r r', Stops r → Stops r' →
      s.toList ++ r = t.toList ++ r' → R x y ∧ r = r')
    (h : joined texts ++ c :: r = joined texts' ++ c :: r') : List.Forall₂ R xs ys ∧ r = r' := by
  induction hxs generalizing ys texts' with
  | nil =>
    cases hys with
    | nil => exact ⟨.nil, (List.cons.inj h).2⟩
    | cons hy _ =>
      rw [joined_cons] at h
      exact absurd h ((hB _ List.mem_cons_self _ hy).append_ne hc)
  | @cons x s xs texts hx hrest ih =>
    cases hys with
    | nil =>
      rw [joined_cons] at h
      exact absurd h.symm ((hA _ List.mem_cons_self _ hx).append_ne hc)
    | @cons y t ys texts' hy hrest' =>
      rw [joined_cons, joined_cons] at h
      obtain ⟨hxy, htail⟩ := hcancel _ List.mem_cons_self _ List.mem_cons_self s t hx hy _ _
        (stops_following (stops_cons hc)) (stops_following (stops_cons hc)) h
      cases hrest with
      | nil =>
        cases hrest' with
        | nil => exact ⟨.cons hxy .nil, (List.cons.inj htail).2⟩
        | cons => exact absurd (List.cons.inj htail).1 hcomma
      | cons hx' hxs' =>
        cases hrest' with
        | nil => exact absurd (List.cons.inj htail).1.symm hcomma
        | cons hy' hys' =>
          obtain ⟨hall, hr⟩ := ih (.cons hy' hys')
            (fun x hx => hA x (List.mem_cons_of_mem _ hx))
            (fun y hy => hB y (List.mem_cons_of_mem _ hy))
            (fun x hx y hy => hcancel x (List.mem_cons_of_mem _ hx) y (List.mem_cons_of_mem _ hy))
            (List.cons.inj htail).2
          exact ⟨.cons hxy hall, hr⟩

end Lists

end WireShape.Json
