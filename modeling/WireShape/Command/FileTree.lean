import WireShape.Fault
import WireShape.OrderedMap
import WireShape.RunSort
import WireShape.Text.Cut
import WireShape.Text.Quoted

/-!
# A tree of files

Files and directories below a directory, with the few operations that a command needs. An operation
fails as the operating system would.

* `TreePath`: a path in the form in which it is shown.
* `FileTree.read`, `FileTree.write`, `FileTree.makeDirectory`: the operations.
* `FileTree.read_write`: a file that was written reads back, up to the ends of its lines.
-/

namespace WireShape

/-! ## Paths -/

structure TreePath where
  /-- The slashes at the start: none, one, or exactly two. -/
  root : String
  /-- The names between slashes, without empty ones and single dots. -/
  parts : List String
deriving DecidableEq, Repr

namespace TreePath

/-- The slashes that a path begins with: more than two count as one. -/
def rootOf (cs : List Char) : String :=
  match (cs.takeWhile (· == '/')).length with
  | 0 => ""
  | 2 => "//"
  | _ => "/"

def parse (s : String) : TreePath :=
  let parts := (Text.cutAt '/' s.toList).map String.ofList
  ⟨rootOf s.toList, parts.filter fun part => part != "" && part != "."⟩

/-- The path as it is shown. -/
def text (p : TreePath) : String :=
  if p.root.isEmpty && p.parts.isEmpty then "." else p.root ++ "/".intercalate p.parts

def parent (p : TreePath) : TreePath := { p with parts := p.parts.dropLast }

/-- One step of walking along a path. -/
def walk (place : List String) (part : String) : List String :=
  if part = ".." then
    match place with
    | [] => [".."]
    | ".." :: above => ".." :: ".." :: above
    | ["/"] => ["/"]
    | _ :: above => above
  else part :: place

/-- The place that a path leads to: names from the innermost to the outermost. -/
def place (p : TreePath) : List String :=
  p.parts.foldl walk (if p.root.isEmpty then [] else ["/"])

end TreePath

/-! ## Trees -/

inductive TreeEntry
  | file (text : String)
  | directory
deriving DecidableEq, Repr

/-- Files and directories by their places. -/
structure FileTree where
  entries : OrderedMap (List String) TreeEntry := []
deriving Repr

namespace FileTree

/-- Whether a place is a directory that is always there: the one at which paths begin, those above
it, and the outermost one. -/
def isGiven (place : List String) : Bool := place.all fun part => part == ".." || part == "/"

/-- What is at a place. -/
def at? (t : FileTree) (place : List String) : Option TreeEntry :=
  if isGiven place then some .directory else OrderedMap.get? t.entries place

/-- The places above a place, itself left out. -/
def above : List String → List (List String)
  | [] => []
  | _ :: rest => rest :: above rest

/-- Whether a file is where a directory would have to be. -/
def isBlocked (t : FileTree) (place : List String) : Bool :=
  (above place).any fun p =>
    match t.at? p with
    | some (.file _) => true
    | _ => false

/-- Adds the directories above a place that are missing, the outermost first. -/
def addAbove (t : FileTree) (place : List String) : FileTree :=
  (above place).reverse.foldl (fun t p =>
    if (t.at? p).isSome then t else ⟨OrderedMap.insert t.entries p .directory⟩) t

def add (t : FileTree) (place : List String) (entry : TreeEntry) : FileTree :=
  ⟨OrderedMap.insert (t.addAbove place).entries place entry⟩

/-- A tree of files with their paths. -/
def ofFiles (files : List (String × String)) : FileTree :=
  files.foldl (fun t e => t.add (TreePath.parse e.1).place (.file e.2)) {}

/-- The files below the directory at which paths begin, by path. -/
def toFiles (t : FileTree) : List (String × String) :=
  let files := t.entries.filterMap fun (place, entry) =>
    match entry with
    | .file text =>
      if place.any fun part => part == ".." || part == "/" then none
      else some ("/".intercalate place.reverse, text)
    | .directory => none
  RunSort.sortRun (fun a b => decide (a.1 < b.1)) files

/-! ## Operations -/

/-- The failure of the operating system with a number and a reason. -/
def failure (code : Nat) (reason : String) (p : TreePath) : Fault :=
  .fileFault code reason (Text.quote p.text)

def notFound (p : TreePath) : Fault := failure 2 "No such file or directory" p

def alreadyThere (p : TreePath) : Fault := failure 17 "File exists" p

def notDirectory (p : TreePath) : Fault := failure 20 "Not a directory" p

def isDirectory (p : TreePath) : Fault := failure 21 "Is a directory" p

def holds (t : FileTree) (p : TreePath) : Bool :=
  (t.at? p.place).isSome && !t.isBlocked p.place

/-- The text with line feeds at the ends of its lines, however they were marked. -/
def withLineFeeds : List Char → List Char
  | '\r' :: '\n' :: rest => '\n' :: withLineFeeds rest
  | '\r' :: rest => '\n' :: withLineFeeds rest
  | c :: rest => c :: withLineFeeds rest
  | [] => []

/-- The text of a file, with line feeds at the ends of its lines. -/
def read (t : FileTree) (p : TreePath) : Except Fault String :=
  match t.at? p.place with
  | some (.file text) => .ok (String.ofList (withLineFeeds text.toList))
  | some .directory => .error (isDirectory p)
  | none => .error (notFound p)

/-- Makes sure that a directory and those above it are there. -/
def makeDirectory (t : FileTree) (p : TreePath) : Except Fault FileTree :=
  match t.at? p.place with
  | some .directory => .ok t
  | some (.file _) => .error (alreadyThere p)
  | none =>
    if t.isBlocked p.place then .error (notDirectory p) else .ok (t.add p.place .directory)

/-- Writes a file, and the directories above it. -/
def write (t : FileTree) (p : TreePath) (text : String) : Except Fault FileTree := do
  let t ← t.makeDirectory p.parent
  match t.at? p.place with
  | some .directory => throw (isDirectory p)
  | _ => return t.add p.place (.file text)

theorem read_write {t t' : FileTree} {p : TreePath} {text : String}
    (h : t.write p text = .ok t') :
    t'.read p = .ok (String.ofList (withLineFeeds text.toList)) := by
  unfold write at h
  cases hm : t.makeDirectory p.parent with
  | error f => simp [hm, bind, Except.bind] at h
  | ok t₁ =>
    simp only [hm, bind, Except.bind] at h
    have written : (t₁.add p.place (.file text)).at? p.place =
        if isGiven p.place then some .directory else some (.file text) := by
      simp [at?, add, OrderedMap.get?_insert_self]
    by_cases hg : isGiven p.place = true
    · simp [at?, hg] at h
    · split at h
      · cases h
      · cases h
        simp [read, written, hg]

end FileTree

end WireShape
