import WireShape.Text.Blank
import WireShape.Text.Digit

/-!
# Patterns

A pattern is a list of alternatives, and an alternative a row of steps: an anchor at the start or
the end of the text, or a run of characters of a class. Groups are not read.

* `Pattern.parse`: a pattern from its notation.
* `Pattern.found`: whether some part of a text fits a pattern.
-/

namespace WireShape

inductive CharSet
  | range (low high : Char)
  /-- Decimal digits of all scripts. -/
  | digits
  /-- White space. -/
  | blanks
deriving DecidableEq, Repr

structure CharClass where
  negated : Bool
  sets : List CharSet
deriving DecidableEq, Repr

inductive PatternStep
  | start
  /-- The end of the text, or before a line feed that ends it. -/
  | finish
  /-- At least so many characters of a class in a row, and at most so many. -/
  | run (characters : CharClass) (least : Nat) (most : Option Nat)
deriving DecidableEq, Repr

/-- Alternatives, each a row of steps. -/
abbrev Pattern := List (List PatternStep)

namespace CharSet

def single (c : Char) : CharSet := range c c

def holds (c : Char) : CharSet → Bool
  | range low high => low ≤ c && c ≤ high
  | digits => (Text.digitValue? c).isSome
  | blanks => Text.isBlank c

end CharSet

namespace CharClass

def ofSet (s : CharSet) : CharClass := ⟨false, [s]⟩

/-- Every character but the line feed. -/
def anyOfLine : CharClass := ⟨true, [.single '\n']⟩

def holds (k : CharClass) (c : Char) : Bool := k.negated != k.sets.any (·.holds c)

end CharClass

namespace Pattern

/-! ## Finding -/

/-- What is left of a text, and whether nothing of it has been passed. -/
structure Cursor where
  atStart : Bool
  rest : List Char

/-- What can be left after a run of characters of a class. -/
def afterRun (characters : CharClass) : Nat → Option Nat → List Char → List (List Char)
  | least, _, [] => if least = 0 then [[]] else []
  | least, most, c :: rest =>
    let here := if least = 0 then [c :: rest] else []
    if most != some 0 && characters.holds c then
      here ++ afterRun characters (least - 1) (most.map (· - 1)) rest
    else here

/-- Where a step can lead. -/
def advance (step : PatternStep) (place : Cursor) : List Cursor :=
  match step with
  | .start => if place.atStart then [place] else []
  | .finish => if place.rest.isEmpty || place.rest == ['\n'] then [place] else []
  | .run characters least most =>
    (afterRun characters least most place.rest).map fun rest =>
      ⟨place.atStart && rest.length == place.rest.length, rest⟩

/-- Whether a row of steps fits from a place on. -/
def fits : List PatternStep → Cursor → Bool
  | [], _ => true
  | step :: steps, place => (advance step place).any (fits steps)

/-- The places of a text. -/
def places : Bool → List Char → List Cursor
  | atStart, [] => [⟨atStart, []⟩]
  | atStart, c :: rest => ⟨atStart, c :: rest⟩ :: places false rest

/-- Whether some part of a text fits a pattern. -/
def found (p : Pattern) (s : String) : Bool :=
  (places true s.toList).any fun place => p.any fun steps => fits steps place

/-! ## Reading -/

inductive Token
  | step (s : PatternStep)
  | repetition (least : Nat) (most : Option Nat)
  | bar

/-- What an escaped character stands for. -/
def escaped (c : Char) : Except String CharSet :=
  match c with
  | 'd' => .ok .digits
  | 's' => .ok .blanks
  | 'n' => .ok (.single '\n')
  | 't' => .ok (.single '\t')
  | c => if c.isAlphanum then .error ("bad escape \\" ++ String.singleton c) else .ok (.single c)

/-- The members of a class up to its closing bracket, which is a member if it comes first. -/
def classMembers (first : Bool) : List Char → Except String (List CharSet × List Char)
  | [] => .error "unterminated character set"
  | '\x5c' :: c :: rest => do
    let s ← escaped c
    let (sets, rest) ← classMembers false rest
    return (s :: sets, rest)
  | low :: '-' :: high :: rest =>
    if low = ']' && !first then .ok ([], '-' :: high :: rest)
    else if high = ']' then .ok ([.single low, .single '-'], rest)
    else if high < low then .error "bad character range"
    else do
      let (sets, rest) ← classMembers false rest
      return (.range low high :: sets, rest)
  | c :: rest =>
    if c = ']' && !first then .ok ([], rest)
    else do
      let (sets, rest) ← classMembers false rest
      return (.single c :: sets, rest)

/-- A class after its opening bracket. -/
def characterClass : List Char → Except String (CharClass × List Char)
  | '^' :: rest => do
    let (sets, rest) ← classMembers true rest
    return (⟨true, sets⟩, rest)
  | rest => do
    let (sets, rest) ← classMembers true rest
    return (⟨false, sets⟩, rest)

/-- A number of repetitions, after the opening brace: `n}`, `n,}`, `,m}` or `n,m}`. -/
def repetition? (cs : List Char) : Option (Nat × Option Nat × List Char) :=
  let value (ds : List Char) : Nat := ds.foldl (fun n d => 10 * n + (d.toNat - 48)) 0
  let least := cs.takeWhile Char.isDigit
  match cs.dropWhile Char.isDigit with
  | '\x7d' :: rest => if least.isEmpty then none else some (value least, some (value least), rest)
  | ',' :: more =>
    let most := more.takeWhile Char.isDigit
    match more.dropWhile Char.isDigit with
    | '\x7d' :: rest => some (value least, if most.isEmpty then none else some (value most), rest)
    | _ => none
  | _ => none

/-- A class that occurs once. -/
def once (characters : CharClass) : Token := .step (.run characters 1 (some 1))

/-- The tokens of a notation, `fuel` of them at most. -/
def tokens : Nat → List Char → Except String (List Token)
  | _, [] => .ok []
  | 0, _ => .error "unexpected end of pattern"
  | fuel + 1, c :: rest =>
    let next (t : Token) (rest : List Char) : Except String (List Token) := do
      return t :: (← tokens fuel rest)
    match c with
    | '^' => next (.step .start) rest
    | '$' => next (.step .finish) rest
    | '|' => next .bar rest
    | '.' => next (once .anyOfLine) rest
    | '*' => next (.repetition 0 none) rest
    | '+' => next (.repetition 1 none) rest
    | '?' => next (.repetition 0 (some 1)) rest
    | '\x7b' =>
      match repetition? rest with
      | some (least, most, rest) => next (.repetition least most) rest
      | none => next (once (.ofSet (.single c))) rest
    | '[' => do
      let (characters, rest) ← characterClass rest
      next (once characters) rest
    | '\x5c' =>
      match rest with
      | [] => .error "bad escape (end of pattern)"
      | e :: rest => do next (once (.ofSet (← escaped e))) rest
    | '(' | ')' => .error "groups are not supported"
    | c => next (once (.ofSet (.single c))) rest

/-- The alternatives of a row of tokens. A repetition belongs to the class before it, which must
stand there once. -/
def ofTokens : List Token → Except String Pattern
  | [] => .ok [[]]
  | .bar :: rest => do return [] :: (← ofTokens rest)
  | .repetition .. :: _ => .error "nothing to repeat"
  | .step (.run characters _ _) :: .repetition least most :: rest => do
    addStep (.run characters least most) (← ofTokens rest)
  | .step s :: rest => do addStep s (← ofTokens rest)
where
  /-- Puts a step before the first alternative. -/
  addStep (s : PatternStep) : Pattern → Except String Pattern
    | [] => .ok [[s]]
    | steps :: more => .ok ((s :: steps) :: more)

/-- A pattern from its notation. -/
def parse (source : String) : Except String Pattern := do
  ofTokens (← tokens source.length source.toList)

end Pattern

end WireShape
