import WireShape.RunSort
import WireShape.Value.Display

/-!
# JSON text

Values are written as JSON in ASCII. What JSON has no form for goes to a fallback. Keys that are
not text are written as the text of their JSON form, after sorting.

* `Json.write`: the text of a value in a given layout.
* `Json.compact`, `Json.spaced`, `Json.indented`: the layouts in use.
* `Json.canonical`: the text by which the shapes of schemas are compared.
-/

namespace WireShape.Json

/-! ## Text in quotation marks -/

/-- The escape of a unit of sixteen bits. -/
def escapeUnit (n : Nat) : List Char := Text.backslash :: 'u' :: Text.hex 4 n

def escapeChar (c : Char) : List Char :=
  if c = Text.doubleQuote || c = Text.backslash then [Text.backslash, c]
  else if c.toNat = 10 then [Text.backslash, 'n']
  else if c.toNat = 13 then [Text.backslash, 'r']
  else if c.toNat = 9 then [Text.backslash, 't']
  else if c.toNat = 8 then [Text.backslash, 'b']
  else if c.toNat = 12 then [Text.backslash, 'f']
  else if 32 ≤ c.toNat && c.toNat ≤ 126 then [c]
  else if c.toNat < 0x10000 then escapeUnit c.toNat
  else
    let n := c.toNat - 0x10000
    escapeUnit (0xd800 + n / 0x400) ++ escapeUnit (0xdc00 + n % 0x400)

def quote (s : String) : String :=
  String.ofList (Text.doubleQuote :: s.toList.flatMap escapeChar ++ [Text.doubleQuote])

/-! ## Atoms and keys -/

/-- A number as JSON text, with names for infinities and for what is not a number. -/
def floatText : Binary64 → String
  | .nan _ => "NaN"
  | .infinite negative => if negative then "-Infinity" else "Infinity"
  | x => x.render

/-- The JSON form of an atom; none where JSON has no form for it. -/
def atomText? : Atom → Option String
  | .null => some "null"
  | .bool b => some (if b then "true" else "false")
  | .int i => some (toString i)
  | .float x => some (floatText x)
  | .str s => some (quote s)
  | _ => none

/-- The text that a key is written as. -/
def keyText : Atom → Except Fault String
  | .str s => .ok (quote s)
  | k =>
    match atomText? k with
    | some text => .ok (quote text)
    | none => .error (.badObjectKey k.typeName)

/-- The order of keys: numbers by value, text and bytes element by element. -/
def keyBefore (a b : Atom) : Except Fault Bool :=
  match a.number?, b.number? with
  | some x, some y => .ok (x.lt y)
  | _, _ =>
    match a, b with
    | .str s, .str t => .ok (decide (s < t))
    | .bytes s, .bytes t => .ok (decide (s < t))
    | _, _ => .error (.notOrdered "<" a.typeName b.typeName)

/-! ## Layouts -/

structure Layout where
  itemSeparator : String
  keySeparator : String
  /-- Blanks by which each level is set in, on lines of its own. -/
  indent : Option Nat
  sortKeys : Bool

/-- No blanks, keys sorted. -/
def compact : Layout := ⟨",", ":", none, true⟩

/-- A blank after each separator, keys in their own order. -/
def spaced : Layout := ⟨", ", ": ", none, false⟩

/-- Two blanks a level, keys sorted. -/
def indented : Layout := ⟨",", ": ", some 2, true⟩

/-- The start of a new line at a level; nothing in a layout of one line. -/
def Layout.lineStart (layout : Layout) (level : Nat) : String :=
  match layout.indent with
  | none => ""
  | some width => "\n" ++ String.ofList (List.replicate (width * level) ' ')

/-- Puts the parts of a container at a level between its brackets. -/
def Layout.enclose (layout : Layout) (level : Nat) (opening closing : String)
    (parts : List String) : String :=
  if parts.isEmpty then opening ++ closing
  else
    opening ++ layout.lineStart (level + 1) ++
      (layout.itemSeparator ++ layout.lineStart (level + 1)).intercalate parts ++
      layout.lineStart level ++ closing

/-! ## Values -/

/-- What is written for a value that JSON has no form for. -/
abbrev Fallback := Value → Except Fault String

/-- Refuses such values. -/
def refuse : Fallback := fun v => .error (.notSerializable v.shortTypeName)

/-- The entries of an object in the order of writing, each with its text or its failure. -/
def Layout.arrange (layout : Layout) (entries : List (Atom × Except Fault String)) :
    Except Fault (List String) := do
  let entries ←
    if layout.sortKeys then RunSort.sortRun? (fun a b => keyBefore a.1 b.1) entries
    else pure entries
  entries.mapM fun (k, text) => do return (← keyText k) ++ layout.keySeparator ++ (← text)

mutual

/-- The text of a value that stands at a level. -/
def writeAt (layout : Layout) (fallback : Fallback) (level : Nat) : Value → Except Fault String
  | .atom a =>
    match atomText? a with
    | some text => .ok text
    | none => do return quote (← fallback (.atom a))
  | .list xs => do
    return layout.enclose level "[" "]" (← writeItems layout fallback (level + 1) xs)
  | .map es _ => do
    let parts ← layout.arrange (writeEntries layout fallback (level + 1) es)
    return layout.enclose level "\x7b" "\x7d" parts
  | v => do return quote (← fallback v)

def writeItems (layout : Layout) (fallback : Fallback) (level : Nat) :
    List Value → Except Fault (List String)
  | [] => .ok []
  | x :: xs => do
    return (← writeAt layout fallback level x) :: (← writeItems layout fallback level xs)

def writeEntries (layout : Layout) (fallback : Fallback) (level : Nat) :
    List (Atom × Value) → List (Atom × Except Fault String)
  | [] => []
  | (k, v) :: es =>
    (k, writeAt layout fallback level v) :: writeEntries layout fallback level es

end

/-- The text of a value. -/
def write (layout : Layout) (fallback : Fallback) (v : Value) : Except Fault String :=
  writeAt layout fallback 0 v

/-- A schema without the title at its top, which carries its name and not its shape. -/
def withoutTitle : Value → Value
  | .map es _ => .ofEntries (OrderedMap.erase es (.str "title"))
  | v => v

/-- The text by which the shapes of schemas are compared: compact, without the title at the top,
and with the plain form of what JSON has no form for. -/
def canonical (describe : Describe) (schema : Value) : Except Fault String :=
  write compact (·.display describe) (withoutTitle schema)

end WireShape.Json
