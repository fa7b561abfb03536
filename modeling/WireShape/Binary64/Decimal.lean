import WireShape.Binary64.Basic

/-!
# Decimal text of binary floating point

* `ofDecimal`: the datum nearest to `± digits · 10^exponent`.
* `shortest`: the fewest decimal digits that read back as the datum, and of those the nearest.
* `render`: the written form. Positional from `10^-4` up to below `10^16`, else with an exponent
  of at least two digits; a positional whole number ends in `.0`.
-/

namespace WireShape.Binary64

/-! ## Reading -/

/-- Magnitudes from `10^400` are infinite and those below `10^-400` are zero, so such exponents
need no arithmetic. -/
def decimalReach : Int := 400

/-- A power of ten. -/
def tenTo (k : Nat) : Nat := Nat.pow 10 k

/-- The number of decimal digits of `n`, one for zero. -/
def decimalWidth (n : Nat) : Nat := (Nat.toDigits 10 n).length

/-- The datum nearest to `± digits · 10^exponent`. -/
def ofDecimal (negative : Bool) (digits : Nat) (exponent : Int) : Binary64 :=
  if digits = 0 then zero negative else
  let magnitude := (decimalWidth digits : Int) + exponent
  if decimalReach < magnitude then .infinite negative
  else if magnitude < -decimalReach then zero negative
  else if 0 ≤ exponent then ofRatio negative (digits * tenTo exponent.toNat) 1
  else ofRatio negative digits (tenTo (-exponent).toNat)

/-! ## The fewest digits that read back -/

/-- The rounding interval of a positive datum, in units of `2^(exponent - 2)`: its lower end, the
datum, its upper end, and whether the ends belong to it. -/
structure Interval where
  low : Nat
  value : Nat
  high : Nat
  closed : Bool

/-- Halfway to the neighbours; the lower neighbour of a power of two is twice as near. -/
def interval (m : Nat) (e : Int) : Interval :=
  let below := if m = twoTo 52 ∧ minExponent < e then 1 else 2
  { low := 4 * m - below, value := 4 * m, high := 4 * m + 2, closed := m % 2 == 0 }

/-- Numerator and denominator of one unit `2^(e - 2)` on the grid of multiples of `10^k`. -/
def gridScale (e k : Int) : Nat × Nat :=
  (twoTo (e - 2).toNat * tenTo (-k).toNat, twoTo (2 - e).toNat * tenTo k.toNat)

/-- The multiple of `10^k` in the interval that is nearest to the datum, if there is one. -/
def gridPoint? (m : Nat) (e k : Int) : Option Nat :=
  let i := interval m e
  let (a, b) := gridScale e k
  let inside (c : Nat) : Bool :=
    if i.closed then i.low * a ≤ c * b && c * b ≤ i.high * a
    else i.low * a < c * b && c * b < i.high * a
  let c := i.value * a / b
  let down := inside c
  let up := inside (c + 1)
  if down && up then
    let r := i.value * a % b
    if 2 * r < b then some c
    else if b < 2 * r then some (c + 1)
    else if c % 2 = 0 then some c else some (c + 1)
  else if down then some c
  else if up then some (c + 1)
  else none

/-- Whether `10^p ≤ m · 2^e`. -/
def reachesPower (m : Nat) (e p : Int) : Bool :=
  tenTo p.toNat * twoTo (-e).toNat ≤ m * twoTo e.toNat * tenTo (-p).toNat

/-- The exponent of the leading decimal digit of a positive datum. -/
def leadingExponent (m : Nat) (e : Int) : Int :=
  let guess := ((m.log2 : Int) + e) * 30103 / 100000
  if reachesPower m e (guess + 1) then guess + 1
  else if reachesPower m e guess then guess
  else guess - 1

/-- Tries ever finer grids, `fuel` of them at most, from digits of weight `10^k` on. -/
def searchGrid (m : Nat) (e : Int) : Nat → Int → Nat × Int
  | 0, k => (0, k)
  | fuel + 1, k =>
    match gridPoint? m e k with
    | some c => (c, k)
    | none => searchGrid m e fuel (k - 1)

/-- Seventeen digits always suffice. -/
def maxDigits : Nat := 17

/-- Digits and exponent `(c, k)` of the shortest decimal `c · 10^k` that reads back. -/
def shortest (m : Nat) (e : Int) : Nat × Int := searchGrid m e maxDigits (leadingExponent m e)

/-! ## Layout -/

/-- Drops the zeros at the end of the digits. -/
def trimZeros (digits : List Char) : List Char :=
  (digits.reverse.dropWhile (· == '0')).reverse

def renderExponent (x : Int) : List Char :=
  let digits := Nat.toDigits 10 x.natAbs
  let padded := if digits.length < 2 then '0' :: digits else digits
  'e' :: (if x < 0 then '-' else '+') :: padded

/-- Lays out significant digits whose first has weight `10^x`. -/
def renderDigits (digits : List Char) (x : Int) : List Char :=
  if x < -4 ∨ 16 ≤ x then
    match digits with
    | [] => []
    | [d] => d :: renderExponent x
    | d :: rest => d :: '.' :: rest ++ renderExponent x
  else if x < 0 then '0' :: '.' :: List.replicate (-x - 1).toNat '0' ++ digits
  else
    let whole := digits.take (x + 1).toNat
    let fraction := digits.drop (x + 1).toNat
    let whole := whole ++ List.replicate ((x + 1).toNat - whole.length) '0'
    whole ++ '.' :: (if fraction.isEmpty then ['0'] else fraction)

/-- The written form. -/
def render : Binary64 → String
  | .nan _ => "nan"
  | .infinite negative => if negative then "-inf" else "inf"
  | .finite negative m e =>
    let body :=
      if m = 0 then ['0', '.', '0']
      else
        let (c, k) := shortest m e
        let digits := Nat.toDigits 10 c
        renderDigits (trimZeros digits) (k + digits.length - 1)
    String.ofList (if negative then '-' :: body else body)

end WireShape.Binary64
