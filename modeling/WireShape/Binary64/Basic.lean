/-!
# Binary floating point of 64 bits, exactly

A `Binary64` is a datum of the IEEE 754 format: not a number (with a payload, by which two of them
are told apart), an infinity, or a sign with a mantissa and an exponent that stand for
`± mantissa · 2^exponent`. A finite datum is kept in its canonical form: the mantissa has 53 bits,
or the exponent is the least one, -1074.

* `ofRatio`: the nearest datum of a quotient, ties to the even mantissa.
* `compare?`, `compareInt?`: exact order; none where a datum is not a number.
* `div`, `isMultiple`: the two operations that a check for multiples needs.
-/

namespace WireShape

inductive Binary64
  | nan (payload : Nat)
  | infinite (negative : Bool)
  | finite (negative : Bool) (mantissa : Nat) (exponent : Int)
deriving DecidableEq, Repr, Inhabited

namespace Binary64

/-- A power of two. -/
def twoTo (k : Nat) : Nat := Nat.pow 2 k

def zero (negative : Bool) : Binary64 := .finite negative 0 (-1074)

/-- The least exponent of a finite datum. -/
def minExponent : Int := -1074

/-- The greatest exponent of a finite datum. -/
def maxExponent : Int := 971

/-- A finite datum is canonical if its mantissa has 53 bits or its exponent is the least. -/
def Canonical : Binary64 → Prop
  | .finite _ m e => m < twoTo 53 ∧ minExponent ≤ e ∧ e ≤ maxExponent ∧
    (twoTo 52 ≤ m ∨ e = minExponent)
  | _ => True

/-! ## Rounding -/

/-- The quotient to the nearest integer, a half to the even one. -/
def divNearestEven (num den : Nat) : Nat :=
  let q := num / den
  let r := num % den
  if 2 * r < den then q else if den < 2 * r then q + 1 else if q % 2 = 0 then q else q + 1

/-- The datum nearest to `± num / den` (with `den` positive); infinity beyond the greatest one. -/
def ofRatio (negative : Bool) (num den : Nat) : Binary64 :=
  if num = 0 then zero negative else
  let guess : Int := (num.log2 : Int) - (den.log2 : Int) - 53
  let scaled (e : Int) : Nat × Nat :=
    if 0 ≤ e then (num, den * twoTo e.toNat) else (num * twoTo (-e).toNat, den)
  let wide := let (n, d) := scaled guess; decide (twoTo 53 ≤ n / d)
  let e := max (if wide then guess + 1 else guess) minExponent
  let (n, d) := scaled e
  let m := divNearestEven n d
  let (m, e) := if m = twoTo 53 then (twoTo 52, e + 1) else (m, e)
  if maxExponent < e then .infinite negative else .finite negative m e

/-- The datum nearest to an integer; none if it is beyond the greatest one. -/
def ofInt? (i : Int) : Option Binary64 :=
  match ofRatio (i < 0) i.natAbs 1 with
  | .infinite _ => none
  | x => some x

/-! ## Order -/

/-- Compares `a · 2^ea` with `b · 2^eb`. -/
def compareScaled (a ea b eb : Int) : Ordering :=
  let e := min ea eb
  compare (a * twoTo (ea - e).toNat) (b * twoTo (eb - e).toNat)

/-- The mantissa with its sign. -/
def signed (negative : Bool) (mantissa : Nat) : Int := if negative then -mantissa else mantissa

/-- The exact order of two data; none if one of them is not a number. -/
def compare? : Binary64 → Binary64 → Option Ordering
  | .nan _, _ => none
  | _, .nan _ => none
  | .infinite a, .infinite b => some (if a = b then .eq else if a then .lt else .gt)
  | .infinite a, .finite .. => some (if a then .lt else .gt)
  | .finite .., .infinite b => some (if b then .gt else .lt)
  | .finite a m e, .finite b n f => some (compareScaled (signed a m) e (signed b n) f)

/-- The exact order of a datum and an integer; none if the datum is not a number. -/
def compareInt? : Binary64 → Int → Option Ordering
  | .nan _, _ => none
  | .infinite a, _ => some (if a then .lt else .gt)
  | .finite a m e, i => some (compareScaled (signed a m) e i 0)

/-- Whether the datum is a whole number. -/
def isIntegral : Binary64 → Bool
  | .finite _ m e => if 0 ≤ e then true else m % twoTo (-e).toNat == 0
  | _ => false

def isZero : Binary64 → Bool
  | .finite _ 0 _ => true
  | _ => false

/-! ## Quotients -/

/-- Size of a finite datum as a quotient of naturals. -/
def ratio (mantissa : Nat) (exponent : Int) : Nat × Nat :=
  if 0 ≤ exponent then (mantissa * twoTo exponent.toNat, 1) else (mantissa, twoTo (-exponent).toNat)

/-- The quotient rounded to the nearest datum; none on division by zero. -/
def div? : Binary64 → Binary64 → Option Binary64
  | x, y =>
    if y.isZero then none else
    some <| match x, y with
    | .nan p, _ => .nan p
    | _, .nan p => .nan p
    | .infinite _, .infinite _ => .nan 0
    | .infinite a, .finite b _ _ => .infinite (a != b)
    | .finite a _ _, .infinite b => zero (a != b)
    | .finite a m e, .finite b n f =>
      let (p, q) := ratio m e
      let (r, s) := ratio n f
      ofRatio (a != b) (p * s) (q * r)

/-- Whether the first finite datum is a whole multiple of the second, exactly. -/
def isMultiple : Binary64 → Binary64 → Bool
  | .finite _ m e, .finite _ n f =>
    let (p, q) := ratio m e
    let (r, s) := ratio n f
    p * s % (q * r) == 0
  | .finite _ m _, .infinite _ => m == 0
  | _, _ => false

end Binary64

end WireShape
