import WireShape.Text.Ranges

/-!
# White space

* `isBlank`: the characters of white space in all of Unicode.
* `isAsciiBlank`: the six that count in text made of ASCII only.
* `strip`: drops white space at both ends.
-/

namespace WireShape.Text

def blankRanges : Ranges :=
  [
    (9, 13), (28, 32), (133, 133), (160, 160), (5760, 5760), (8192, 8202), (8232, 8233),
    (8239, 8239), (8287, 8287), (12288, 12288)
  ]

def isBlank (c : Char) : Bool := inRanges blankRanges c

/-- Space, tab, line feed, vertical tab, form feed and carriage return. -/
def isAsciiBlank (c : Char) : Bool := c == ' ' || (9 ≤ c.toNat && c.toNat ≤ 13)

/-- Drops the characters of a class at both ends. -/
def stripBy (p : Char → Bool) (cs : List Char) : List Char :=
  ((cs.dropWhile p).reverse.dropWhile p).reverse

/-- Drops white space at both ends. -/
def strip (s : String) : String := String.ofList (stripBy isBlank s.toList)

end WireShape.Text
