import WireShape.Command.Arguments
import WireShape.Command.Catalogue
import WireShape.Command.FileTree
import WireShape.Document
import WireShape.Settings

/-!
# The command

The command builds the document of a source and prints its digest, writes the document to a file,
keeps its digest in a snapshot, or checks it against the snapshot.

Its status is 0 on success, 2 if the digest differs from the snapshot, and 3 if the document cannot
be built or there is no snapshot.

* `Command.run`: the command on a tree of files.
-/

namespace WireShape

namespace Command

/-- What the command reads, writes and shows. -/
structure Console where
  files : FileTree
  output : String := ""
  errors : String := ""
  log : Array LogEntry := #[]
  /-- Entries of the log below this level are dropped. -/
  threshold : Nat

/-- A step of the command; a fault that it does not report itself ends it. -/
abbrev Step := ExceptT Fault (StateM Console)

/-- How the command ends. -/
inductive Ending
  | finished (status : Nat)
  | refused (reason : Arguments.Refusal)
  | failed (fault : Fault)

namespace Step

def lift {α : Type} (r : Except Fault α) : Step α := fun console => (r, console)

/-- Writes a line to the output. -/
def print (line : String) : Step Unit :=
  modify fun c => { c with output := c.output ++ line ++ "\n" }

/-- Writes a line to the errors. -/
def printError (line : String) : Step Unit :=
  modify fun c => { c with errors := c.errors ++ line ++ "\n" }

/-- Entries of this level and above are shown among the errors. -/
def shownLevel : LogLevel := .warning

/-- Takes an entry into the log, unless its level is too low. -/
def note (entry : LogEntry) : Step Unit := do
  if (← get).threshold ≤ entry.level.number then
    modify fun c => { c with log := c.log.push entry }
    if shownLevel.number ≤ entry.level.number then printError entry.message

def write (p : TreePath) (text : String) : Step Unit := do
  let files ← lift ((← get).files.write p text)
  modify fun c => { c with files }

end Step

open Step

/-! ## Statuses -/

def success : Nat := 0
def mismatch : Nat := 2
def failure : Nat := 3

/-! ## Steps -/

/-- The document of the named source and its digest, with the log of the work. -/
def build (catalogue : Catalogue) (env : Environment) (args : Arguments) :
    Except Fault (Value × String) × Array LogEntry :=
  match catalogue.find args.source with
  | .error f => (.error f, #[])
  | .ok listing =>
    Document.buildWithDigest listing.heap env listing.source (.bool args.strict)

/-- Writes the document to a file. -/
def writeDocument (document : Value) (out : String) : Step Unit := do
  let path := TreePath.parse out
  let files ← lift ((← get).files.makeDirectory path.parent)
  modify fun c => { c with files }
  write path ((← lift (Json.write Json.indented Json.refuse document)) ++ "\n")
  let size := (← lift (Json.write Json.spaced Json.refuse document)).length
  print ("Wrote spec JSON to " ++ path.text ++ " (" ++ toString size ++ " bytes)")

/-- Compares the digest with the snapshot; a status ends the command. -/
def checkSnapshot (digest : String) (snapshot : TreePath) : Step (Option Nat) := do
  let files := (← get).files
  if !files.holds snapshot then
    printError ("Snapshot " ++ snapshot.text ++ " not found")
    return some failure
  let expected := Text.strip (← lift (files.read snapshot))
  if digest != expected then
    printError ("Spec hash mismatch: expected=" ++ expected ++ " current=" ++ digest)
    return some mismatch
  print ("Spec hash OK: " ++ digest)
  return none

/-- Writes the digest to the snapshot. -/
def updateSnapshot (digest : String) (snapshot : TreePath) : Step Unit := do
  write snapshot (digest ++ "\n")
  note ⟨.info, "Updated snapshot " ++ snapshot.text⟩
  print ("Updated snapshot hash -> " ++ digest)

/-- What is done with a document and its digest. -/
def publish (args : Arguments) (document : Value) (digest : String) : Step Nat := do
  let snapshot := TreePath.parse args.snapshot
  let out := args.out.getD ""
  if !out.isEmpty then writeDocument document out
  if args.check then
    match ← checkSnapshot digest snapshot with
    | some status => return status
    | none => pure ()
  if args.updateHash then updateSnapshot digest snapshot
  if out.isEmpty && !args.updateHash && !args.check then print digest
  return success

/-- The command with its arguments. -/
def perform (catalogue : Catalogue) (env : Environment) (args : Arguments) : Step Nat := do
  let (outcome, log) := build catalogue env args
  log.toList.forM note
  match outcome with
  | .ok (document, digest) => publish args document digest
  | .error f =>
    if f.isBuildFailure then
      printError ("Cannot build spec: " ++ f.message)
      return failure
    else throw f

/-! ## The whole command -/

/-- The level at which entries are kept where no level is set. -/
def unsetLevel : LogLevel := .warning

/-- The lowest level of entries that are kept. -/
def thresholdOf (env : Environment) : Except Fault Nat := do
  let level ← Settings.logLevel env .null
  return if level = 0 then unsetLevel.number else level

/-- The command on a tree of files. -/
def run (catalogue : Catalogue) (env : Environment) (files : FileTree) (words : List String) :
    Ending × Console :=
  match Arguments.parse words, thresholdOf env with
  | .error reason, _ => (.refused reason, { files, threshold := 0 })
  | .ok _, .error f => (.failed f, { files, threshold := 0 })
  | .ok args, .ok threshold =>
    match perform catalogue env args { files, threshold } with
    | (.ok status, console) => (.finished status, console)
    | (.error f, console) => (.failed f, console)

end Command

end WireShape
