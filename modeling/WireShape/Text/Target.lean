import WireShape.Text.Percent

/-!
# Targets of requests

A target is a path, perhaps with a host before it and a query after it.

* `targetPath`: the path, with its escapes read and one slash at its start.
* `mergeSlashes`: the path with every two slashes in a row made one.
-/

namespace WireShape.Text

/-- A target without its host, which two slashes begin. -/
def afterHost : List Char → List Char
  | '/' :: '/' :: rest => rest.dropWhile fun c => c != '/' && c != '?' && c != '#'
  | cs => cs

/-- The path that a target names. -/
def targetPath (target : String) : String :=
  let path := (afterHost target.toList).takeWhile fun c => c != '?' && c != '#'
  String.ofList ('/' :: (percentDecode replaceStray path).dropWhile (· == '/'))

/-- Makes one slash of every two in a row, from left to right. -/
def mergePairs : List Char → List Char
  | '/' :: '/' :: rest => '/' :: mergePairs rest
  | c :: rest => c :: mergePairs rest
  | [] => []

def mergeSlashes (path : String) : String := String.ofList (mergePairs path.toList)

end WireShape.Text
