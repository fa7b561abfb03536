import Mathlib.Data.List.TakeWhile
import WireShape.Proofs.Binary64.Shortest
import WireShape.Text.Numeral

/-!
# What a rendered datum says

A rendered datum is a decimal whose value is that of the shortest digits, in whichever layout it is
written: a point moves the digits, an exponent moves them back, and zeros at the ends count for
nothing. As no other datum has these digits, data are told apart by their texts.

* `Binary64.decimalValue`: the number that a decimal text stands for.
* `Binary64.decimalValue_renderDigits`: every layout keeps the value of the digits.
* `Binary64.render_injective`: no two finite data are rendered alike.
-/

namespace WireShape.Binary64

open Text (digitsValue takeSign)

variable {cs ds r : List Char} {m m' n : Nat} {e' x : Int}

/-! ## Digits -/

theorem digitsValue_eq : digitsValue cs = Nat.ofDigitChars 10 cs 0 := rfl

theorem digitsValue_append :
    digitsValue (cs ++ ds) = 10 ^ ds.length * digitsValue cs + digitsValue ds := by
  rw [digitsValue_eq, Nat.ofDigitChars_append, Nat.ofDigitChars_eq_ofDigitChars_zero]
  rfl

theorem digitsValue_zeros : digitsValue (List.replicate n '0') = 0 := by
  rw [digitsValue_eq, Nat.ofDigitChars_replicate_zero, Nat.mul_zero]

theorem digitsValue_toDigits : digitsValue (Nat.toDigits 10 n) = n := Nat.ofDigitChars_ten_toDigits

/-- Zeros in front count for nothing. -/
theorem digitsValue_zeros_append : digitsValue (List.replicate n '0' ++ ds) = digitsValue ds := by
  rw [digitsValue_append, digitsValue_zeros, Nat.mul_zero, Nat.zero_add]

/-- Zeros at the end are factors of ten. -/
theorem digitsValue_append_zeros :
    digitsValue (cs ++ List.replicate n '0') = 10 ^ n * digitsValue cs := by
  rw [digitsValue_append, digitsValue_zeros, List.length_replicate, Nat.add_zero]

/-- Text of decimal digits only. -/
def Digits (cs : List Char) : Prop := ∀ c ∈ cs, c.isDigit = true

theorem Digits.append (h : Digits cs) (h' : Digits ds) : Digits (cs ++ ds) := fun c hc =>
  (List.mem_append.mp hc).elim (h c) (h' c)

theorem digits_zeros : Digits (List.replicate n '0') := fun c hc => by
  rw [List.eq_of_mem_replicate hc]
  rfl

theorem digits_toDigits : Digits (Nat.toDigits 10 n) := fun _ hc =>
  Nat.isDigit_of_mem_toDigits (by decide) (by decide) hc

/-- What has been trimmed are zeros at the end. -/
theorem exists_trimZeros (ds : List Char) : ∃ j, ds = trimZeros ds ++ List.replicate j '0' := by
  refine ⟨(ds.reverse.takeWhile (· == '0')).length, ?_⟩
  have hzeros : ds.reverse.takeWhile (· == '0') =
      List.replicate (ds.reverse.takeWhile (· == '0')).length '0' :=
    List.eq_replicate_of_mem fun c hc => eq_of_beq (List.mem_takeWhile_imp (p := (· == '0')) hc)
  apply List.reverse_injective
  rw [List.reverse_append, List.reverse_replicate, ← hzeros, trimZeros, List.reverse_reverse,
    List.takeWhile_append_dropWhile]

theorem Digits.trimZeros (h : Digits ds) : Digits (trimZeros ds) := fun c hc =>
  h c (List.mem_reverse.mp (List.dropWhile_subset _ (List.mem_reverse.mp hc)))

/-! ## Decimal text -/

/-- The number that the exponent of a decimal text stands for, zero if there is none. -/
def exponentValue (cs : List Char) : Int :=
  let (below, digits) := takeSign cs.tail
  if below then -(digitsValue digits : Int) else digitsValue digits

/-- The number that a decimal text without sign stands for. -/
def decimalValue (cs : List Char) : ℚ :=
  let body := cs.takeWhile (· ≠ 'e')
  let whole := body.takeWhile (· ≠ '.')
  let fraction := (body.dropWhile (· ≠ '.')).tail
  digitsValue (whole ++ fraction) *
    10 ^ (exponentValue (cs.dropWhile (· ≠ 'e')) - (fraction.length : Int))

/-- The end of a decimal text: nothing, or an exponent. -/
def IsExponent (r : List Char) : Prop := ∀ c, r.head? = some c → c = 'e'

theorem isExponent_renderExponent : IsExponent (renderExponent x) := fun _ hc =>
  (Option.some.inj hc).symm

theorem exponentValue_renderExponent : exponentValue (renderExponent x) = x := by
  have hpadded : ∀ digits : List Char, digitsValue (if digits.length < 2 then '0' :: digits
      else digits) = digitsValue digits := by
    intro digits
    split
    · exact @digitsValue_zeros_append digits 1
    · rfl
  have hbelow : ∀ digits, exponentValue ('e' :: '-' :: digits) = -(digitsValue digits : Int) :=
    fun _ => rfl
  have habove : ∀ digits, exponentValue ('e' :: '+' :: digits) = digitsValue digits := fun _ => rfl
  unfold renderExponent
  dsimp only
  by_cases hx : x < 0
  · rw [if_pos hx, hbelow, hpadded, digitsValue_toDigits]
    omega
  · rw [if_neg hx, habove, hpadded, digitsValue_toDigits]
    omega

theorem Digits.ne_of_not_digit {c d : Char} (h : Digits cs) (hc : c ∈ cs)
    (hd : d.isDigit = false) : decide (c ≠ d) = true := by
  refine decide_eq_true fun heq => ?_
  rw [← heq, h c hc] at hd
  cases hd

theorem IsExponent.takeWhile_eq (h : IsExponent r) : r.takeWhile (· ≠ 'e') = [] := by
  cases r with
  | nil => rfl
  | cons c r =>
    obtain rfl := h c rfl
    rfl

theorem IsExponent.dropWhile_eq (h : IsExponent r) : r.dropWhile (· ≠ 'e') = r := by
  cases r with
  | nil => rfl
  | cons c r =>
    obtain rfl := h c rfl
    rfl

/-- The value of digits before an exponent. -/
theorem decimalValue_whole (hcs : Digits cs) (hr : IsExponent r) :
    decimalValue (cs ++ r) = digitsValue cs * 10 ^ exponentValue r := by
  have he : ∀ c ∈ cs, decide (c ≠ 'e') = true := fun c hc => hcs.ne_of_not_digit hc rfl
  have hpoint : ∀ c ∈ cs, decide (c ≠ '.') = true := fun c hc => hcs.ne_of_not_digit hc rfl
  have hwhole : cs.takeWhile (· ≠ '.') = cs := List.takeWhile_eq_self_iff.mpr hpoint
  have hfraction : cs.dropWhile (· ≠ '.') = [] := List.dropWhile_eq_nil_iff.mpr hpoint
  unfold decimalValue
  dsimp only
  rw [List.takeWhile_append_of_pos he, List.dropWhile_append_of_pos he, hr.takeWhile_eq,
    hr.dropWhile_eq, List.append_nil, hwhole, hfraction, List.tail_nil, List.append_nil,
    List.length_nil, Nat.cast_zero, sub_zero]

/-- The value of digits with a point between them. -/
theorem decimalValue_point (hcs : Digits cs) (hds : Digits ds) (hr : IsExponent r) :
    decimalValue (cs ++ '.' :: ds ++ r) =
      digitsValue (cs ++ ds) * 10 ^ (exponentValue r - (ds.length : Int)) := by
  have he : ∀ c ∈ cs ++ '.' :: ds, decide (c ≠ 'e') = true := by
    intro c hc
    rcases List.mem_append.mp hc with hc | hc
    · exact hcs.ne_of_not_digit hc rfl
    rcases List.mem_cons.mp hc with rfl | hc
    · rfl
    · exact hds.ne_of_not_digit hc rfl
  have hpoint : ∀ c ∈ cs, decide (c ≠ '.') = true := fun c hc => hcs.ne_of_not_digit hc rfl
  unfold decimalValue
  dsimp only
  rw [List.takeWhile_append_of_pos he, List.dropWhile_append_of_pos he, hr.takeWhile_eq,
    hr.dropWhile_eq, List.append_nil, List.takeWhile_append_of_pos hpoint,
    List.dropWhile_append_of_pos hpoint]
  have hhead : ('.' :: ds).takeWhile (· ≠ '.') = [] := rfl
  have htail : ('.' :: ds).dropWhile (· ≠ '.') = '.' :: ds := rfl
  rw [hhead, htail, List.append_nil, List.tail_cons]

/-! ## Layouts -/

/-- With an exponent the first digit stands alone. -/
theorem decimalValue_scientific (hds : Digits ds) (hx : x < -4 ∨ 16 ≤ x) :
    decimalValue (renderDigits ds x) = digitsValue ds * 10 ^ (x + 1 - (ds.length : Int)) := by
  unfold renderDigits
  rw [if_pos hx]
  split
  · have hnone : digitsValue [] = 0 := rfl
    rw [hnone, Nat.cast_zero, zero_mul]
    exact zero_mul _
  · rename_i d
    rw [← List.singleton_append, decimalValue_whole hds isExponent_renderExponent,
      exponentValue_renderExponent, List.length_singleton]
    congr 2
    omega
  · rename_i d rest hrest
    have hd : Digits [d] := fun c hc => hds c (List.mem_cons.mpr (.inl (List.mem_singleton.mp hc)))
    have htail : Digits rest := fun c hc => hds c (List.mem_cons_of_mem _ hc)
    have hvalue := decimalValue_point hd htail (isExponent_renderExponent (x := x))
    rw [exponentValue_renderExponent] at hvalue
    refine hvalue.trans ?_
    rw [List.singleton_append, List.length_cons]
    congr 2
    omega

/-- Below one, zeros stand between the point and the digits. -/
theorem decimalValue_zeros (hds : Digits ds) (hx : x < 0) :
    decimalValue ('0' :: '.' :: List.replicate (-x - 1).toNat '0' ++ ds) =
      digitsValue ds * 10 ^ (x + 1 - (ds.length : Int)) := by
  have hdigit : digitsValue ['0'] = 0 := rfl
  have hnone : exponentValue [] = 0 := rfl
  have hzero : Digits ['0'] := @digits_zeros 1
  have hfraction : Digits (List.replicate (-x - 1).toNat '0' ++ ds) := digits_zeros.append hds
  have hvalue := decimalValue_point hzero hfraction (r := []) nofun
  rw [List.append_nil] at hvalue
  refine hvalue.trans ?_
  have hfront : digitsValue (['0'] ++ (List.replicate (-x - 1).toNat '0' ++ ds)) =
      digitsValue ds := by
    rw [digitsValue_append, digitsValue_zeros_append, hdigit, Nat.mul_zero, Nat.zero_add]
  rw [hfront, hnone, List.length_append, List.length_replicate]
  congr 2
  omega

/-- The point stands among the digits. -/
theorem decimalValue_among {places : Nat} (hds : Digits ds) (hplaces : places ≤ ds.length) :
    decimalValue (ds.take places ++ '.' :: ds.drop places) =
      digitsValue ds * 10 ^ ((places : Int) - ds.length) := by
  have hnone : exponentValue [] = 0 := rfl
  have hwhole : Digits (ds.take places) := fun c hc => hds c (List.mem_of_mem_take hc)
  have hfraction : Digits (ds.drop places) := fun c hc => hds c (List.mem_of_mem_drop hc)
  have hvalue := decimalValue_point hwhole hfraction (r := []) nofun
  rw [List.append_nil, List.take_append_drop, hnone, List.length_drop] at hvalue
  refine hvalue.trans ?_
  congr 2
  omega

/-- Zeros stand between the digits and the point. -/
theorem decimalValue_filled {count : Nat} (hds : Digits ds) :
    decimalValue (ds ++ List.replicate count '0' ++ '.' :: ['0']) = digitsValue ds * 10 ^ count := by
  have hdigit : digitsValue ['0'] = 0 := rfl
  have hnone : exponentValue [] = 0 := rfl
  have hzeros : Digits (ds ++ List.replicate count '0') := hds.append digits_zeros
  have hzero : Digits ['0'] := @digits_zeros 1
  have hback : (10 : ℚ) ^ (1 : Nat) * 10 ^ (0 - ((1 : Nat) : Int)) = 1 := by norm_num
  have hvalue := decimalValue_point hzeros hzero (r := []) nofun
  rw [List.append_nil, hnone, digitsValue_append, digitsValue_append_zeros] at hvalue
  refine hvalue.trans ?_
  rw [hdigit, List.length_singleton, Nat.add_zero, Nat.cast_mul, Nat.cast_mul, Nat.cast_pow,
    Nat.cast_pow, mul_right_comm, Nat.cast_ofNat, hback, one_mul, mul_comm]

/-- Whichever layout is chosen, the digits keep their value. -/
theorem decimalValue_renderDigits (hds : Digits ds) :
    decimalValue (renderDigits ds x) = digitsValue ds * 10 ^ (x + 1 - (ds.length : Int)) := by
  by_cases hfar : x < -4 ∨ 16 ≤ x
  · exact decimalValue_scientific hds hfar
  unfold renderDigits
  rw [if_neg hfar]
  split
  · exact decimalValue_zeros hds ‹_›
  · dsimp only
    generalize hplaces : (x + 1).toNat = places
    rcases Nat.lt_or_ge places ds.length with hlong | hshort
    · have hne : (ds.drop places).isEmpty = false := by
        rw [List.isEmpty_eq_false_iff, ne_eq, List.drop_eq_nil_iff]
        omega
      rw [hne, if_neg Bool.false_ne_true, List.length_take, Nat.min_eq_left hlong.le, Nat.sub_self,
        List.replicate_zero, List.append_nil, decimalValue_among hds hlong.le]
      congr 2
      omega
    · have hplace : (10 : ℚ) ^ (places - ds.length) = 10 ^ (x + 1 - (ds.length : Int)) := by
        rw [← zpow_natCast]
        congr 1
        omega
      rw [List.take_of_length_le hshort, List.drop_of_length_le hshort, List.isEmpty_nil, if_pos rfl,
        decimalValue_filled hds, hplace]

/-- Digits are written with a digit first, and with a point or an exponent. -/
theorem renderDigits_first (hds : Digits ds) (hne : ds ≠ []) :
    ∃ c rest, renderDigits ds x = c :: rest ∧ c.isDigit = true ∧ ('.' ∈ rest ∨ 'e' ∈ rest) := by
  obtain ⟨d, tail, rfl⟩ := List.exists_cons_of_ne_nil hne
  have hd := hds d List.mem_cons_self
  unfold renderDigits
  split
  · cases tail with
    | nil => exact ⟨d, _, rfl, hd, .inr List.mem_cons_self⟩
    | cons => exact ⟨d, _, rfl, hd, .inl List.mem_cons_self⟩
  split
  · exact ⟨'0', _, rfl, rfl, .inl List.mem_cons_self⟩
  · obtain ⟨places, hplaces⟩ : ∃ places, (x + 1).toNat = places + 1 :=
      Nat.exists_eq_add_one.mpr (by omega)
    rw [hplaces]
    refine ⟨d, _, rfl, hd, .inl ?_⟩
    exact List.mem_append_right _ List.mem_cons_self

/-! ## Data -/

/-- The written form without the sign. -/
def bodyText (m : Nat) (e : Int) : List Char :=
  if m = 0 then ['0', '.', '0']
  else renderDigits (trimZeros (Nat.toDigits 10 (shortest m e).1))
    ((shortest m e).2 + (Nat.toDigits 10 (shortest m e).1).length - 1)

theorem toList_render {negative : Bool} {e : Int} : (render (.finite negative m e)).toList =
    if negative then '-' :: bodyText m e else bodyText m e := String.toList_ofList

section Body

variable {negative negative' : Bool} {e : Int} (hx : (finite negative m e).Canonical)
include hx

/-- The digits of a datum that is not zero. -/
theorem exists_digits (hm : m ≠ 0) : ∃ ds x, Digits ds ∧ ds ≠ [] ∧ bodyText m e = renderDigits ds x ∧
    Rounds m e (digitsValue ds * 10 ^ (x + 1 - (ds.length : Int))) := by
  have hrounds := shortest_rounds hx hm
  unfold bodyText
  rw [if_neg hm]
  generalize (shortest m e).1 = c at hrounds ⊢
  generalize (shortest m e).2 = k at hrounds ⊢
  obtain ⟨j, hj⟩ := exists_trimZeros (Nat.toDigits 10 c)
  have hvalue : (digitsValue (trimZeros (Nat.toDigits 10 c)) : ℚ) * 10 ^ j = c := by
    have hnat := congrArg digitsValue hj
    rw [digitsValue_toDigits, digitsValue_append_zeros] at hnat
    have hcast := congrArg (Nat.cast : Nat → ℚ) hnat
    rw [Nat.cast_mul, Nat.cast_pow] at hcast
    exact (mul_comm _ _).trans hcast.symm
  have hlength : (Nat.toDigits 10 c).length = (trimZeros (Nat.toDigits 10 c)).length + j := by
    have hcount := congrArg List.length hj
    rwa [List.length_append, List.length_replicate] at hcount
  refine ⟨_, _, digits_toDigits.trimZeros, fun hnil => ?_, rfl, ?_⟩
  · -- Without digits the value were zero, which does not round to the datum.
    have hzero : digitsValue [] = 0 := rfl
    rw [hnil, hzero, Nat.cast_zero, zero_mul] at hvalue
    have hpos := hrounds.pos hm
    rw [← hvalue, zero_mul] at hpos
    exact absurd hpos (lt_irrefl 0)
  · have hten : (10 : ℚ) ≠ 0 := by norm_num
    have hexponent : k + (Nat.toDigits 10 c).length - 1 + 1 -
        ((trimZeros (Nat.toDigits 10 c)).length : Int) = j + k := by omega
    rw [hexponent, zpow_add₀ hten, zpow_natCast, ← mul_assoc, hvalue]
    exact hrounds

/-- Data are written with a digit first, and with a point or an exponent. -/
theorem bodyText_first :
    ∃ c rest, bodyText m e = c :: rest ∧ c.isDigit = true ∧ ('.' ∈ rest ∨ 'e' ∈ rest) := by
  by_cases hm : m = 0
  · unfold bodyText
    rw [if_pos hm]
    exact ⟨'0', _, rfl, rfl, .inl List.mem_cons_self⟩
  · obtain ⟨ds, x, hds, hne, hbody, _⟩ := exists_digits hx hm
    rw [hbody]
    exact renderDigits_first hds hne

/-- The value of the text is that of no other datum. -/
theorem decimalValue_bodyText :
    m = 0 ∧ decimalValue (bodyText m e) = 0 ∨ m ≠ 0 ∧ Rounds m e (decimalValue (bodyText m e)) := by
  by_cases hm : m = 0
  · refine .inl ⟨hm, ?_⟩
    unfold bodyText
    rw [if_pos hm]
    exact zero_mul _
  · obtain ⟨ds, x, hds, _, hbody, hrounds⟩ := exists_digits hx hm
    rw [hbody, decimalValue_renderDigits hds]
    exact .inr ⟨hm, hrounds⟩

/-- Canonical data are told apart by their texts, but for their signs. -/
theorem bodyText_injective (hy : (finite negative' m' e').Canonical)
    (h : bodyText m e = bodyText m' e') : m = m' ∧ e = e' := by
  have hvalue' := decimalValue_bodyText hy
  rw [← h] at hvalue'
  rcases decimalValue_bodyText hx with ⟨rfl, hzero⟩ | ⟨hm, hrounds⟩ <;>
    rcases hvalue' with ⟨rfl, hzero'⟩ | ⟨hm', hrounds'⟩
  · have hleast : ¬ twoTo 52 ≤ 0 := by decide
    exact ⟨rfl, (hx.2.2.2.resolve_left hleast).trans (hy.2.2.2.resolve_left hleast).symm⟩
  · exact absurd hzero (hrounds'.pos hm').ne'
  · exact absurd hzero' (hrounds.pos hm).ne'
  · exact hrounds.unique hx hy hrounds'

/-- A datum is written with a point or an exponent. -/
theorem render_mark :
    '.' ∈ (render (finite negative m e)).toList ∨ 'e' ∈ (render (finite negative m e)).toList := by
  obtain ⟨c, rest, hbody, _, hmark⟩ := bodyText_first hx
  rw [toList_render, hbody]
  cases negative
  · exact hmark.imp (List.mem_cons_of_mem _) (List.mem_cons_of_mem _)
  · exact hmark.imp (fun h => List.mem_cons_of_mem _ (List.mem_cons_of_mem _ h))
      fun h => List.mem_cons_of_mem _ (List.mem_cons_of_mem _ h)

/-- No two canonical data are rendered alike. -/
theorem render_injective (hy : (finite negative' m' e').Canonical)
    (h : render (finite negative m e) = render (finite negative' m' e')) :
    finite negative m e = finite negative' m' e' := by
  have htexts := congrArg String.toList h
  rw [toList_render, toList_render] at htexts
  obtain ⟨c, rest, hbody, hc, _⟩ := bodyText_first hx
  obtain ⟨c', rest', hbody', hc', _⟩ := bodyText_first hy
  have hminus : Char.isDigit '-' = false := rfl
  cases negative <;> cases negative'
  · obtain ⟨rfl, rfl⟩ := bodyText_injective hx hy htexts
    rfl
  · rw [hbody] at htexts
    obtain rfl := (List.cons.inj htexts).1
    cases hminus.symm.trans hc
  · rw [hbody'] at htexts
    obtain rfl := (List.cons.inj htexts).1
    cases hminus.symm.trans hc'
  · obtain ⟨rfl, rfl⟩ := bodyText_injective hx hy (List.cons.inj htexts).2
    rfl

end Body

end WireShape.Binary64
