import WireShape.Text.Cut
import WireShape.Text.Numeral
import WireShape.Text.Percent
import WireShape.Value.Access

/-!
# References into a document

A reference is `#` for the whole document, or `#/` with the steps to a part of it. In a step `~1`
stands for a slash and `~0` for a tilde, and percent escapes are read.

* `Pointer.target`: the part of a document that a reference leads to.
-/

namespace WireShape.Pointer

/-- Reads `~` and a digit as a character. -/
def readTildes (digit stands : Char) : List Char → List Char
  | '~' :: d :: rest =>
    if d = digit then stands :: readTildes digit stands rest
    else '~' :: readTildes digit stands (d :: rest)
  | c :: rest => c :: readTildes digit stands rest
  | [] => []

/-- The key that a step denotes. -/
def keyOf (step : List Char) : String :=
  String.ofList (readTildes '0' '~' (readTildes '1' '/' step))

/-- The steps of a pointer after its first slash. -/
def steps (pointer : List Char) : List (List Char) :=
  Text.cutAt '/' (Text.percentDecode Text.replaceStray pointer)

/-- The element at a place, which is counted from the end if it is negative. -/
def element {α : Type} (xs : List α) (place : Int) : Except Fault α :=
  let place := if place < 0 then place + xs.length else place
  if place < 0 then .error .unresolvableReference
  else
    match xs[place.toNat]? with
    | some x => .ok x
    | none => .error .unresolvableReference

/-- The place that a step denotes in a sequence. -/
def placeOf (step : List Char) : Except Fault Int :=
  match Text.readInt? (String.ofList step) with
  | some i => .ok i
  | none => .error (.notAnInteger (Text.quote (String.ofList step)))

/-- One step into a value. -/
def follow (v : Value) (step : List Char) : Except Fault Value := do
  match v with
  | .map es _ =>
    match OrderedMap.get? es (.str (keyOf step)) with
    | some next => return next
    | none => throw .unresolvableReference
  | .list xs => element xs (← placeOf step)
  | .str s => return .str (String.singleton (← element s.toList (← placeOf step)))
  | .bytes bs => return .int (← element bs (← placeOf step)).toNat
  | v => throw (.notSubscriptable v.typeName)

/-- The part of a document that a reference leads to. -/
def target (document reference : Value) : Except Fault Value := do
  discard <| reference.startsWith (.str "#")
  match reference with
  | .str s =>
    match s.toList with
    | [] | ['#'] => return document
    | '#' :: '/' :: pointer => (steps pointer).foldlM follow document
    | _ => throw .unresolvableReference
  | _ => throw .unresolvableReference

end WireShape.Pointer
