import WireShape.Document
import WireShape.Text.Target

/-!
# A site that publishes the document

The site serves the document and a page that shows it, below a start path. The document is built
when it is first asked for and kept from then on.

* `DocsSite.make`: the site of a source.
* `DocsSite.respond`: the answer to a request for a path.
-/

namespace WireShape

structure DocsSite where
  heap : Heap
  env : Environment
  source : Source
  settings : Value
  /-- The path below which the site lies, without a slash at its end. -/
  start : String
  /-- The document, once it has been built. -/
  document : Option Value := none
  /-- What has been noted while building it. -/
  log : Array LogEntry := #[]

/-- An answer: a status and, where something is shown, its text. -/
structure Reply where
  status : Nat
  body : Option String

namespace DocsSite

/-- Drops the slashes at the end. -/
def withoutEndSlashes (s : String) : String :=
  String.ofList (s.toList.reverse.dropWhile (· == '/')).reverse

/-- The site of a source. Its name must be a single word without dots, and its paths begin with a
slash. -/
def make (heap : Heap) (env : Environment) (source : Source) (name : String) (settings : Value)
    (start : String) : Except Fault DocsSite :=
  if name.isEmpty then .error .emptyName
  else if name.toList.contains '.' then .error .dottedName
  else
    let start := withoutEndSlashes start
    if start.isEmpty || start.startsWith "/" then .ok { heap, env, source, settings, start }
    else .error (.badPath (start ++ "/openapi.json"))

def documentPath (site : DocsSite) : String := site.start ++ "/openapi.json"

def pagePath (site : DocsSite) : String := site.start ++ "/docs"

/-! ## Text -/

/-- Characters that stand for themselves in the path of a URL. -/
def isPathChar (b : UInt8) : Bool :=
  let c := Char.ofNat b.toNat
  c.isAlphanum || "-._~!$&'()*+,/:;=@".toList.contains c

/-- A path with all else written as escapes of its bytes. -/
def escapePath (path : String) : String :=
  String.ofList (path.toUTF8.toList.flatMap fun b =>
    if isPathChar b then [Char.ofNat b.toNat]
    else '%' :: (Text.hex 2 b.toNat).map Char.toUpper)

/-- The page that shows the document at a URL. -/
def page (documentUrl : String) : String :=
  "<!DOCTYPE html><html><head><title>API Docs</title>" ++
    "<link rel=\"stylesheet\" " ++
    "href=\"https://cdn.jsdelivr.net/npm/redoc@next/bundles/redoc.standalone.css\" />" ++
    "</head><body><redoc spec-url='" ++ documentUrl ++ "'></redoc>" ++
    "<script src='https://cdn.jsdelivr.net/npm/redoc@next/bundles/redoc.standalone.js'></script>" ++
    "</body></html>"

mutual

/-- A value in which references to sibling fields and parts of routes are mappings of their
fields. -/
def unfoldRecords : Value → Value
  | .ref key => .ofFields [("key", .str key)]
  | .atom a => .atom a
  | .list xs => .list (unfoldItems xs)
  | .map es identity => .map (unfoldEntries es) identity
  | .mediaType schema examples =>
    .ofFields [("schema", unfoldRecords schema), ("examples", unfoldRecords examples)]
  | .requestBody content description required =>
    .ofFields [("content", unfoldRecords content), ("description", unfoldRecords description),
      ("required", unfoldRecords required)]
  | .response description content =>
    .ofFields [("description", unfoldRecords description), ("content", unfoldRecords content)]

def unfoldItems : List Value → List Value
  | [] => []
  | x :: xs => unfoldRecords x :: unfoldItems xs

def unfoldEntries : List (Atom × Value) → List (Atom × Value)
  | [] => []
  | (k, v) :: es => (k, unfoldRecords v) :: unfoldEntries es

end

/-- The text that is served for a document. -/
def documentText (document : Value) : Except Fault String := do
  return (← Json.write Json.compact Json.refuse (unfoldRecords document)) ++ "\n"

/-! ## Requests -/

/-- The document, built now if it has not been built before. -/
def fetch (site : DocsSite) : Except Fault Value × DocsSite :=
  match site.document with
  | some document => (.ok document, site)
  | none =>
    let (outcome, log) := Document.build site.heap site.env site.source site.settings
    let site := { site with log := site.log ++ log }
    match outcome with
    | .ok document => (.ok document, { site with document := some document })
    | .error fault => (.error fault, site)

/-- Whether something is served at a path. -/
def serves (site : DocsSite) (path : String) : Bool :=
  path == site.documentPath || path == site.pagePath

/-- A path at which nothing is served. -/
def notFound : Nat := 404

/-- A path that has to be asked for in another spelling. -/
def elsewhere : Nat := 308

/-- The answer to a request. A path that is served with fewer slashes is only pointed to. -/
def respond (site : DocsSite) (target : String) : Except Fault Reply × DocsSite :=
  let path := Text.targetPath target
  if path = site.documentPath then
    let (outcome, site) := site.fetch
    (do return ⟨200, some (← documentText (← outcome))⟩, site)
  else if path = site.pagePath then
    (.ok ⟨200, some (page (escapePath site.documentPath))⟩, site)
  else (.ok ⟨if site.serves (Text.mergeSlashes path) then elsewhere else notFound, none⟩, site)

end DocsSite

end WireShape
