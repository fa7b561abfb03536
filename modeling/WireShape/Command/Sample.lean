import WireShape.Command.Catalogue
import WireShape.Node.Builder

/-!
# A sample source

A small service that lends books, as `sample:Books`.

* `Sample.catalogue`: the catalogue that holds it.
-/

namespace WireShape

namespace Sample

/-- Puts a node into the heap. -/
def place (n : Node) : StateT Heap (Except Fault) Value := do
  let (id, heap) := (← get).add n
  set heap
  return .node id

def tag : Value :=
  .ofFields [("name", .str "Books"), ("description", .str "Books and where they are.")]

/-- A book as clients see it. -/
def book : StateT Heap (Except Fault) Value := do
  let title ← place (← Node.string.min (.int 1)).required
  let pages ← place (← (← Node.number.integer).min (.int 1))
  let subjects ← place (← (← Node.array [← place Node.string]).unique)
  let parts := Value.ofFields [("title", title), ("pages", pages), ("subjects", subjects)]
  place ((← Node.object parts).label (.str "Book"))

/-- The number by which a book is known. -/
def bookNumber : StateT Heap (Except Fault) Value := do
  let number ← place ((← Node.number.integer).required.description (.str "The number of the book."))
  place (← Node.object (.ofFields [("bookNumber", number)]))

/-- Content in one media type. -/
def jsonContent (schema : Value) : Value := .ofFields [("application/json", schema)]

def books : StateT Heap (Except Fault) Source := do
  let book ← book
  let number ← bookNumber
  let found := Value.ofFields [("description", .str "The book."), ("content", jsonContent book)]
  let added := Value.ofFields [("description", .str "The book was added.")]
  let get := Value.ofFields [ ("path", .str "/books"), ("method", .str "get"),
    ("summary", .str "Finds a book."), ("query", number),
    ("responses", .ofFields [("200", found)]) ]
  let add := Value.ofFields [ ("path", .str "/books"), ("method", .str "post"),
    ("summary", .str "Adds a book."), ("body", .ofFields [("content", jsonContent book)]),
    ("responses", .ofFields [("201", added)]) ]
  return {
    name := "Books", tag := some tag, schemas := some (.ofFields [("Book", book)])
    parameters := some (.ofFields [("BookNumber", number)]), routes := some [get, add] }

/-- The catalogue with the sample. -/
def catalogue : Except Fault Catalogue := do
  let (source, heap) ← books.run {}
  return [("sample", [("Books", { heap, source })])]

end Sample

end WireShape
