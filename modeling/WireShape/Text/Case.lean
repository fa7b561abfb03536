import WireShape.Text.CaseTable

/-!
# Upper and lower case of whole texts

* `upper`, `lower`: the full case maps, in which a character may become several. A capital sigma
  becomes the final form at the end of a word.
-/

namespace WireShape.Text

/-- What a table of rows makes of a code point. -/
def imageOf? (rows : List CaseRow) (n : Nat) : Option Nat :=
  (rows.find? fun (first, count, step, _) =>
    first ≤ n && (n - first) % step == 0 && (n - first) / step < count).map
      fun (first, _, _, image) => image + (n - first)

/-- The case map of one character. -/
def mapCase (rows : List CaseRow) (expansions : List (Nat × List Nat)) (c : Char) : List Char :=
  match expansions.lookup c.toNat with
  | some several => several.map Char.ofNat
  | none =>
    match imageOf? rows c.toNat with
    | some image => [Char.ofNat image]
    | none => [c]

def upperChar (c : Char) : List Char :=
  if c.toNat < 128 then [c.toUpper] else mapCase upperRows upperExpansions c

def lowerChar (c : Char) : List Char :=
  if c.toNat < 128 then [c.toLower] else mapCase lowerRows lowerExpansions c

/-- Whether the nearest character that is not skipped is cased. -/
def nextIsCased (cs : List Char) : Bool :=
  match cs.dropWhile (inRanges caseIgnorableRanges) with
  | [] => false
  | c :: _ => inRanges casedRanges c

/-- Lower case, with the characters already passed in `before`, the nearest first. -/
def lowerFrom : List Char → List Char → List Char
  | _, [] => []
  | before, c :: rest =>
    let here :=
      if c = 'Σ' then
        if nextIsCased before && !nextIsCased rest then ['ς'] else ['σ']
      else lowerChar c
    here ++ lowerFrom (c :: before) rest

def upper (s : String) : String := String.ofList (s.toList.flatMap upperChar)

def lower (s : String) : String := String.ofList (lowerFrom [] s.toList)

end WireShape.Text
