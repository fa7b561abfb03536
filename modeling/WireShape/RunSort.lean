/-!
# Sorting by run and insertion

The sort keeps the longest ordered run at the front (a strictly falling run is turned round) and
inserts the remaining elements one by one, by bisection, after the elements they do not precede.
It is stable. The comparison may fail, and the first failure that this order of comparisons meets
is the answer, so the procedure is fixed and not only its result.

* `sortRun?`: the sort with a comparison that may fail.
-/

namespace WireShape.RunSort

variable {α ε : Type}

/-- Length of the longest prefix of `rest` that goes on, from `last`, as `falling` says. -/
def runLength (lt : α → α → Except ε Bool) (falling : Bool) : α → List α → Except ε Nat
  | _, [] => .ok 0
  | last, x :: rest => do
    if (← lt x last) == falling then return (← runLength lt falling x rest) + 1
    else return 0

/-- The position in `sorted[low, high)` after every element that `x` does not precede. -/
def position (lt : α → α → Except ε Bool) (x : α) (sorted : Array α) (low high : Nat) :
    Except ε Nat := do
  if low < high then
    let middle := low + (high - low) / 2
    match sorted[middle]? with
    | none => return low
    | some y =>
      if ← lt x y then position lt x sorted low middle
      else position lt x sorted (middle + 1) high
  else return low
termination_by high - low

/-- Inserts `x` after the elements it does not precede. -/
def insertSorted (lt : α → α → Except ε Bool) (sorted : Array α) (x : α) : Except ε (Array α) := do
  let place ← position lt x sorted 0 sorted.size
  return (sorted.toList.take place ++ x :: sorted.toList.drop place).toArray

/-- Sorts with a comparison that may fail. -/
def sortRun? (lt : α → α → Except ε Bool) : List α → Except ε (List α)
  | [] => .ok []
  | [x] => .ok [x]
  | x :: y :: rest => do
    let falling ← lt y x
    let more ← runLength lt falling y rest
    let run := x :: y :: rest.take more
    let start := if falling then run.reverse else run
    return (← (rest.drop more).foldlM (insertSorted lt) start.toArray).toList

/-- Sorts with a comparison that always answers. -/
def sortRun (lt : α → α → Bool) (xs : List α) : List α :=
  match sortRun? (ε := Empty) (fun a b => .ok (lt a b)) xs with
  | .ok sorted => sorted

end WireShape.RunSort
