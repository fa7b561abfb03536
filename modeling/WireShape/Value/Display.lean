import WireShape.Fault
import WireShape.Text.Quoted
import WireShape.Binary64.Decimal
import WireShape.Value.Basic

/-!
# Values as text

* `Value.quoted`: the form inside messages, in which text stands between quotation marks.
* `Value.display`: the form by itself: text as it is, a sibling reference by its key.

Both need the descriptions of the schema nodes that a value holds, which may fail.
-/

namespace WireShape

/-- How schema nodes are described. -/
abbrev Describe := NodeId → Except Fault String

/-- Longer sources of a pattern are cut off in its quoted form. -/
def maxShownPattern : Nat := 200

/-- The form of an atom inside messages. -/
def Atom.quoted (describe : Describe) : Atom → Except Fault String
  | null => .ok "None"
  | bool b => .ok (if b then "True" else "False")
  | int i => .ok (toString i)
  | float x => .ok x.render
  | str s => .ok (Text.quote s)
  | bytes bs => .ok (Text.quoteBytes bs)
  | ref key => .ok ("Ref(key=" ++ Text.quote key ++ ")")
  | callable _ name => .ok ("<call " ++ name ++ ">")
  | regex source =>
    .ok ("re.compile(" ++ String.ofList ((Text.quote source).toList.take maxShownPattern) ++ ")")
  | node id => describe id

/-- The form of an atom by itself. -/
def Atom.display (describe : Describe) : Atom → Except Fault String
  | str s => .ok s
  | ref key => .ok ("ref:" ++ key)
  | a => a.quoted describe

namespace Value

mutual

/-- The form of a value inside messages. -/
def quoted (describe : Describe) : Value → Except Fault String
  | atom a => a.quoted describe
  | list xs => do return "[" ++ ", ".intercalate (← quotedItems describe xs) ++ "]"
  | map es _ => do
    return "\x7b" ++ ", ".intercalate (← quotedEntries describe es) ++ "\x7d"
  | mediaType schema examples => do
    return "MediaType(schema=" ++ (← quoted describe schema) ++ ", examples=" ++
      (← quoted describe examples) ++ ")"
  | requestBody content description required => do
    return "RequestBody(content=" ++ (← quoted describe content) ++ ", description=" ++
      (← quoted describe description) ++ ", required=" ++ (← quoted describe required) ++ ")"
  | response description content => do
    return "Response(description=" ++ (← quoted describe description) ++ ", content=" ++
      (← quoted describe content) ++ ")"

def quotedItems (describe : Describe) : List Value → Except Fault (List String)
  | [] => .ok []
  | x :: xs => do return (← quoted describe x) :: (← quotedItems describe xs)

def quotedEntries (describe : Describe) : List (Atom × Value) → Except Fault (List String)
  | [] => .ok []
  | (k, v) :: es => do
    return ((← k.quoted describe) ++ ": " ++ (← quoted describe v)) :: (← quotedEntries describe es)

end

/-- The form of a value by itself. -/
def display (describe : Describe) : Value → Except Fault String
  | atom a => a.display describe
  | v => v.quoted describe

end Value

end WireShape
