import WireShape.Sha256
import WireShape.Spec

/-!
# The published document

The document is the specification under the version of the format and the title and version of the
API. Its digest is that of its compact text with sorted keys.

* `Document.build`: the document of a source under settings.
* `Document.digest`: the digest of a document.
-/

namespace WireShape

open Value (Fields)

namespace Document

/-- The document of a source, with the log of the work. -/
def build (heap : Heap) (env : Environment) (source : Source) (overrides : Value) :
    Except Fault Value × Array LogEntry :=
  match Settings.load env overrides with
  | .error fault => (.error fault, #[])
  | .ok settings =>
    let (outcome, log) := Spec.build heap env source (Settings.get settings "STRICT_PARAMETERS")
      (Settings.get settings "HEADER_PREFIX")
    (outcome.map fun definition =>
      let info := Value.ofFields [("title", Settings.get settings "API_TITLE"),
        ("version", Settings.get settings "API_VERSION")]
      .ofEntries (Fields.merge [(.str "openapi", Settings.get settings "OPENAPI_VERSION"),
        (.str "info", info)] definition), log)

/-- The digest of a document. -/
def digest (document : Value) : Except Fault String := do
  return Sha256.hexDigest (← Json.write Json.compact Json.refuse document)

/-- The document of a source and its digest. -/
def buildWithDigest (heap : Heap) (env : Environment) (source : Source) (strict : Value) :
    Except Fault (Value × String) × Array LogEntry :=
  let (outcome, log) := build heap env source (.ofFields [("STRICT_PARAMETERS", strict)])
  (do let document ← outcome; return (document, ← digest document), log)

end Document

end WireShape
