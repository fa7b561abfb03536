import WireShape.Text.Digit

/-!
# Arguments of the command line

One word names the source; the options may stand before and after it. The name of an option may be
cut short as long as it stays clear, its value may follow an equals sign, and after `--` there are
only words.

* `Arguments.parse`: the arguments, or why they are refused.
-/

namespace WireShape

structure Arguments where
  /-- The source, named as `module:attribute`. -/
  source : String
  /-- The file that the document is written to. -/
  out : Option String := none
  /-- The file that keeps the digest of the document. -/
  snapshot : String := "openapi_spec_hash.txt"
  updateHash : Bool := false
  check : Bool := false
  /-- Whether parameters that are not declared are refused. -/
  strict : Bool := false
deriving DecidableEq, Repr

namespace Arguments

/-- Why a command line is not carried out. -/
inductive Refusal
  | usage
  /-- Help was asked for. -/
  | help
deriving DecidableEq, Repr

/-- The status with which the command ends. -/
def Refusal.status : Refusal → Nat
  | usage => 2
  | help => 0

inductive Switch
  | help
  | out
  | snapshot
  | updateHash
  | check
  | strict
deriving DecidableEq, Repr

/-- The names of the options. -/
def switches : List (String × Switch) :=
  [ ("-h", .help), ("--help", .help), ("--out", .out), ("--snapshot", .snapshot),
    ("--update-hash", .updateHash), ("--check", .check), ("--strict", .strict) ]

/-! ## Words and options -/

inductive Token
  | word (s : String)
  /-- An option by its full name, with the value that is attached to it. -/
  | option (name : String) (switch : Switch) (value : Option String)
  | unknown
  /-- The mark after which there are only words. -/
  | mark

/-- Text before and after the first equals sign. -/
def cutValue? (cs : List Char) : Option (List Char × List Char) :=
  if cs.contains '=' then some (cs.takeWhile (· != '='), (cs.dropWhile (· != '=')).drop 1)
  else none

/-- The options that a name may be short for, each with the attached value. -/
def candidates (cs : List Char) : List Token :=
  match cs with
  | '-' :: '-' :: _ =>
    let (name, value) := match cutValue? cs with
      | some (name, value) => (name, some (String.ofList value))
      | none => (cs, none)
    (switches.filter fun e => name.isPrefixOf e.1.toList).map fun e => .option e.1 e.2 value
  | '-' :: _ =>
    (switches.filter fun e => e.1.toList == cs.take 2).map fun e =>
      .option e.1 e.2 (some (String.ofList (cs.drop 2)))
  | _ => []

/-- Whether the argument is a number below zero: digits, or digits around a point. -/
def isNegativeNumber : List Char → Bool
  | '-' :: cs =>
    let isDigit (c : Char) : Bool := (Text.digitValue? c).isSome
    match cs.dropWhile isDigit with
    | [] => !cs.isEmpty
    | '.' :: fraction => !fraction.isEmpty && fraction.all isDigit
    | _ => false
  | _ => false

/-- An option that is written out, with the value attached to it. -/
def writtenOut? (cs : List Char) : Option Token :=
  match switches.lookup (String.ofList cs) with
  | some switch => some (.option (String.ofList cs) switch none)
  | none => do
    let (name, value) ← cutValue? cs
    let switch ← switches.lookup (String.ofList name)
    return .option (String.ofList name) switch (some (String.ofList value))

/-- What an argument is, before any mark. -/
def classify (s : String) : Except Refusal Token :=
  let cs := s.toList
  if cs.head? != some '-' || cs.length == 1 then .ok (.word s)
  else
    match writtenOut? cs with
    | some token => .ok token
    | none =>
      match candidates cs with
      | [token] => .ok token
      | _ :: _ :: _ => .error .usage
      | [] => .ok (if isNegativeNumber cs || cs.contains ' ' then .word s else .unknown)

/-- What the arguments are. -/
def tokens : List String → Except Refusal (List Token)
  | [] => .ok []
  | "--" :: rest => .ok (.mark :: rest.map .word)
  | s :: rest => do return (← classify s) :: (← tokens rest)

/-! ## Arguments -/

/-- What has been read. -/
structure Progress where
  source : Option String := none
  arguments : Arguments := { source := "" }
  /-- Whether something was met that has no place. -/
  stray : Bool := false

/-- Sets a flag, which takes no value. -/
def Progress.setFlag (p : Progress) (switch : Switch) : Progress :=
  match switch with
  | .updateHash => { p with arguments := { p.arguments with updateHash := true } }
  | .check => { p with arguments := { p.arguments with check := true } }
  | .strict => { p with arguments := { p.arguments with strict := true } }
  | _ => p

def Progress.setValue (p : Progress) (switch : Switch) (value : String) : Progress :=
  match switch with
  | .out => { p with arguments := { p.arguments with out := some value } }
  | .snapshot => { p with arguments := { p.arguments with snapshot := value } }
  | _ => p

def takesValue : Switch → Bool
  | .out | .snapshot => true
  | _ => false

/-- Asks for help; the short name may be repeated in one word. -/
def askHelp (name : String) (value : Option String) : Refusal :=
  match value with
  | none => .help
  | some more =>
    if name == "-h" && !more.isEmpty && more.toList.all (· == 'h') then .help else .usage

/-- Reads tokens from left to right; the first refusal ends it. -/
def consume (p : Progress) : List Token → Except Refusal Progress
  | [] => .ok p
  | .word s :: rest =>
    if p.source.isSome then consume { p with stray := true } rest
    else
      match rest with
      | .mark :: rest => consume { p with source := some s } rest
      | rest => consume { p with source := some s } rest
  | .mark :: rest => consume { p with stray := p.stray || p.source.isSome } rest
  | .unknown :: rest => consume { p with stray := true } rest
  | .option name switch value :: rest =>
    if switch = .help then .error (askHelp name value)
    else if takesValue switch then
      match value, rest with
      | some v, rest => consume (p.setValue switch v) rest
      | none, .word v :: rest => consume (p.setValue switch v) rest
      | none, _ => .error .usage
    else if value.isSome then .error .usage
    else consume (p.setFlag switch) rest

/-- The arguments, or why they are refused. -/
def parse (args : List String) : Except Refusal Arguments := do
  let p ← consume {} (← tokens args)
  match p.source with
  | some source => if p.stray then throw .usage else return { p.arguments with source }
  | none => throw .usage

end Arguments

end WireShape
