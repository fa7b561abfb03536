import Mathlib.Order.WithBot
import WireShape.Json.Writer
import WireShape.Proofs.Keys

/-!
# The order of keys

Numbers are put in order by their exact values, with an infinity on either side, and texts
character by character. Both orders are linear, and keys that are not the same have different places
in them. A datum that is not a number stands before and after nothing, so it has no place: where one
stands among other keys, sorting leaves them as they happen to be.

* `Number.lt_iff`: the order of numbers is the order of their values.
* `Number.same_of_value_eq`: numbers of one value are one key.
-/

namespace WireShape

namespace Number

/-- The value by which numbers are ordered; a datum that is not a number has none of its own. -/
def value : Number → WithBot (WithTop ℚ)
  | int i => ((i : ℚ) : WithTop ℚ)
  | float (.finite negative m e) => ((Binary64.rational negative m e : ℚ) : WithTop ℚ)
  | float (.infinite true) => ⊥
  | float (.infinite false) => ((⊤ : WithTop ℚ) : WithBot (WithTop ℚ))
  | float (.nan _) => ⊥

/-- A datum that is not a number. -/
def IsNan : Number → Prop
  | float (.nan _) => True
  | _ => False

variable {x y : Number}

theorem compareScaled_eq {negative : Bool} {m : Nat} {e b eb : Int} :
    Binary64.compareScaled (Binary64.signed negative m) e b eb =
      compare (Binary64.rational negative m e) (b * (2 : ℚ) ^ eb) :=
  Binary64.compareScaled_eq_compare

/-- Numbers are ordered by their values. -/
theorem lt_iff (hx : ¬ x.IsNan) (hy : ¬ y.IsNan) : x.lt y = true ↔ x.value < y.value := by
  have hswap : ∀ o : Ordering, o.swap = .lt ↔ o = .gt := by decide
  have htop : ∀ q : ℚ, ((q : WithTop ℚ) : WithBot (WithTop ℚ)) < ⊤ := fun q =>
    WithBot.coe_lt_coe.mpr (WithTop.coe_lt_top q)
  rcases x with i | p | a | ⟨a, m, e⟩ <;> rcases y with j | q | b | ⟨b, n, f⟩
  case float.nan.int | float.nan.float.nan | float.nan.float.infinite | float.nan.float.finite =>
    exact absurd trivial hx
  case int.float.nan | float.infinite.float.nan | float.finite.float.nan =>
    exact absurd trivial hy
  case int.int => simp [lt, compare?, value, compare_lt_iff_lt]
  case int.float.infinite =>
    cases b <;> simp [lt, compare?, Binary64.compareInt?, value, htop]
  case int.float.finite =>
    simp [lt, compare?, Binary64.compareInt?, value, hswap, compareScaled_eq, compare_gt_iff_gt]
  case float.infinite.int =>
    cases a <;> simp [lt, compare?, Binary64.compareInt?, value]
  case float.infinite.float.infinite =>
    cases a <;> cases b <;> simp [lt, compare?, Binary64.compare?, value]
  case float.infinite.float.finite =>
    cases a <;> simp [lt, compare?, Binary64.compare?, value]
  case float.finite.int =>
    simp [lt, compare?, Binary64.compareInt?, value, compareScaled_eq, compare_lt_iff_lt]
  case float.finite.float.infinite =>
    cases b <;> simp [lt, compare?, Binary64.compare?, value, htop]
  case float.finite.float.finite =>
    rw [lt, compare?, Binary64.compare?, compareScaled_eq, ← Binary64.rational, value, value,
      WithBot.coe_lt_coe, WithTop.coe_lt_coe, beq_iff_eq, Option.some.injEq, compare_lt_iff_lt]

/-- Numbers of one value are the same key. -/
theorem same_of_value_eq (hx : ¬ x.IsNan) (hy : ¬ y.IsNan) (h : x.value = y.value) :
    x.same y = true := by
  rw [Atom.sameNumber_iff]
  rcases x with i | p | a | ⟨a, m, e⟩ <;> rcases y with j | q | b | ⟨b, n, f⟩
  case float.nan.int | float.nan.float.nan | float.nan.float.infinite | float.nan.float.finite =>
    exact absurd trivial hx
  case int.float.nan | float.infinite.float.nan | float.finite.float.nan =>
    exact absurd trivial hy
  case int.float.infinite | float.finite.float.infinite => cases b <;> cases h
  case float.infinite.int | float.infinite.float.finite => cases a <;> cases h
  case float.infinite.float.infinite =>
    cases a <;> cases b <;> simp_all [value, Atom.numberKey?]
  all_goals simp_all [value, Atom.numberKey?]

end Number

end WireShape
