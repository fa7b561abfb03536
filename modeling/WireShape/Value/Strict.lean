import WireShape.RunSort
import WireShape.Value.Basic

/-!
# Strict equality and order of values

Checks tell booleans from numbers at every depth, which equality of values does not, and they take
bytes for the list of their numbers.

* `Value.sameStrict`: strict equality.
* `Value.before?`: the order of numbers, texts, bytes and lists; none between other values.
* `Value.allDistinct`: whether no two values of a list are strictly equal.
-/

namespace WireShape.Value

/-- Strict equality of atoms. -/
def sameAtomStrict : Atom → Atom → Bool
  | .bool a, .bool b => a == b
  | .bool _, _ => false
  | _, .bool _ => false
  | a, b => a.same b

/-- Whether a list is that of the numbers of bytes. -/
def listsBytes : List Value → List UInt8 → Bool
  | [], [] => true
  | atom a :: xs, b :: bs => sameAtomStrict a (.int b.toNat) && listsBytes xs bs
  | _, _ => false

mutual

/-- Equality in which no boolean is a number, at any depth. -/
def sameStrict : Value → Value → Bool
  | atom (.bytes bs), list ys => listsBytes ys bs
  | list xs, bytes bs => listsBytes xs bs
  | atom a, atom b => sameAtomStrict a b
  | list xs, list ys => sameItemsStrict xs ys
  | map es _, map fs _ => es.length == fs.length && sameEntriesStrict es fs
  | v, w => same v w

def sameItemsStrict : List Value → List Value → Bool
  | [], [] => true
  | x :: xs, y :: ys => sameStrict x y && sameItemsStrict xs ys
  | _, _ => false

/-- Every entry has a strictly equal one in the other mapping. -/
def sameEntriesStrict : List (Atom × Value) → List (Atom × Value) → Bool
  | [], _ => true
  | (k, v) :: es, fs =>
    (match OrderedMap.get? fs k with
      | some w => sameStrict v w
      | none => false) && sameEntriesStrict es fs

end

/-! ## Order -/

/-- The order of atoms: numbers by value, booleans counting as numbers, text and bytes element by
element. -/
def beforeAtom? (a b : Atom) : Option Bool :=
  match a.number?, b.number? with
  | some x, some y => some (x.lt y)
  | _, _ =>
    match a, b with
    | .str s, .str t => some (decide (s < t))
    | .bytes s, .bytes t => some (decide (s < t))
    | _, _ => none

mutual

/-- Whether a value comes before another one; none where there is no order. -/
def before? : Value → Value → Option Bool
  | atom a, atom b => beforeAtom? a b
  | list xs, list ys => beforeItems? xs ys
  | _, _ => none

/-- The first elements that differ decide, or else the length. -/
def beforeItems? : List Value → List Value → Option Bool
  | [], ys => some (!ys.isEmpty)
  | _ :: _, [] => some false
  | x :: xs, y :: ys => if same x y then beforeItems? xs ys else before? x y

end

/-! ## Distinct values -/

/-- The order by which equal values are brought together; booleans have none. -/
def sortOrder (v w : Value) : Except Unit Bool :=
  if v.isBool || w.isBool then .error ()
  else
    match before? v w with
    | some b => .ok b
    | none => .error ()

/-- Whether no two neighbours are strictly equal. -/
def neighboursDistinct : List Value → Bool
  | x :: y :: rest => !sameStrict x y && neighboursDistinct (y :: rest)
  | _ => true

/-- Whether no two values of the list are strictly equal, each compared with those before it. -/
def pairsDistinct (seen : List Value) : List Value → Bool
  | [] => true
  | x :: rest => !seen.any (fun y => sameStrict y x) && pairsDistinct (seen ++ [x]) rest

/-- Whether no two values of a list are strictly equal: neighbours are compared where the list can
be sorted, and all pairs where it cannot. -/
def allDistinct (xs : List Value) : Bool :=
  match RunSort.sortRun? sortOrder xs with
  | .ok sorted => neighboursDistinct sorted
  | .error _ => pairsDistinct [] xs

end WireShape.Value
