import WireShape.Command.Run
import WireShape.Command.Sample

/-!
# The command line

The command of `WireShape.Command` on the files of the machine. It knows the sample catalogue.

Only what the command may touch is read beforehand: the files that its arguments name and the
directories above them. What it changed is written back at the end.
-/

open WireShape

/-- The variables that settings are taken from, as far as they are set. -/
def readEnvironment : IO Environment := do
  let values ← Settings.variableNames.mapM fun name => do return (name, ← IO.getEnv name)
  return values.filterMap fun (name, value) => value.map fun v => (name, v)

/-- A path and those of the directories above it, the outermost first. -/
def leadingPaths (p : TreePath) : List TreePath :=
  (List.range p.parts.length).map fun i => { p with parts := p.parts.take (i + 1) }

/-- The paths that the command may touch. -/
def touchedPaths (words : List String) : List TreePath :=
  match Arguments.parse words with
  | .ok arguments =>
    (arguments.out.toList ++ [arguments.snapshot]).flatMap fun p => leadingPaths (TreePath.parse p)
  | .error _ => []

/-- The files and directories at paths. -/
def readTree (paths : List TreePath) : IO FileTree := do
  let here ← IO.currentDir
  let mut tree : FileTree := {}
  for p in paths do
    let target := here / p.text
    if ← target.isDir then tree := tree.add p.place .directory
    else if ← target.pathExists then tree := tree.add p.place (.file (← IO.FS.readFile target))
  return tree

/-- Writes what is at paths back, where it has changed. -/
def writeTree (paths : List TreePath) (before after : FileTree) : IO Unit := do
  for p in paths do
    if before.at? p.place != after.at? p.place then
      match after.at? p.place with
      | some .directory => IO.FS.createDirAll p.text
      | some (.file text) => IO.FS.writeFile p.text text
      | none => pure ()

def main (words : List String) : IO UInt32 := do
  let out ← IO.getStdout
  let err ← IO.getStderr
  match Sample.catalogue with
  | .error fault =>
    err.putStrLn fault.message
    return 1
  | .ok catalogue =>
    let paths := touchedPaths words
    let before ← readTree paths
    let (ending, console) := Command.run catalogue (← readEnvironment) before words
    writeTree paths before console.files
    out.putStr console.output
    err.putStr console.errors
    match ending with
    | .finished status => return UInt32.ofNat status
    | .refused reason =>
      err.putStrLn ("usage: SOURCE [-h] [--out OUT] [--snapshot SNAPSHOT] [--update-hash] " ++
        "[--check] [--strict]")
      return UInt32.ofNat reason.status
    | .failed fault =>
      err.putStrLn fault.message
      return 1
