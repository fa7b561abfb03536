import WireShape.Json.Reader
import WireShape.Text.Blank
import WireShape.Text.Case
import WireShape.Text.Percent
import WireShape.Text.Target

/-!
# Requests

A request as it arrives, before anything is known about what it should look like.

* `Request.mediaType`: the media type of the body, without parameters, in lower case.
* `Request.header?`: a header by its name, in which letter case does not count.
* `Request.queryKeys`, `Request.queryValues`: the keys of the query and the values of one key.
* `Request.bodyData`: the data that the body carries.
-/

namespace WireShape

/-- A file that is sent in a form. -/
structure Upload where
  field : String
  contentType : String
  content : List UInt8

inductive RequestBodyData
  | text (s : String)
  | form (fields : List (String × String)) (uploads : List Upload)

structure Request where
  method : String := "GET"
  path : String := "/"
  query : List (String × String) := []
  headers : List (String × String) := []
  body : RequestBodyData := .text ""
  /-- The values of the parameters in the path. -/
  pathArguments : Value := .null
  /-- The identifier that the surroundings gave to the request. -/
  assignedId : Value := .null

namespace Request

/-! ## Headers -/

/-- A header name in the form in which names are compared. -/
def normalName (name : String) : String :=
  String.ofList ((Text.upper name).toList.map fun c => if c = '-' then '_' else c)

/-- The values of a header, in their order. -/
def headerValues (r : Request) (name : String) : List String :=
  (r.headers.filter fun e => normalName e.1 == normalName name).map (·.2)

def formType : String := "application/x-www-form-urlencoded"

def multipartType : String := "multipart/form-data"

/-- The type of the body: the one that a header names, or else the one of the form. -/
def contentType? (r : Request) : Option String :=
  match (r.headerValues "content-type").head? with
  | some type => some type
  | none =>
    match r.body with
    | .text _ => none
    | .form fields uploads =>
      if !uploads.isEmpty then some multipartType
      else if !fields.isEmpty then some formType
      else none

/-- A type without its parameters. -/
def withoutParameters (type : String) : String :=
  Text.strip (String.ofList (type.toList.takeWhile (· != ';')))

/-- The media type of the body; empty if it has none. -/
def mediaType (r : Request) : String := Text.lower (withoutParameters (r.contentType?.getD ""))

/-- The number of bytes of the body, as far as it is known. -/
def contentLength? (r : Request) : Option String :=
  match r.body with
  | .text "" | .form .. =>
    ((r.headerValues "content-length").head?.bind Text.readInt?).map toString
  | .text s => some (toString s.utf8ByteSize)

/-- The host that is asked where the request does not name one. -/
def defaultHost : String := "localhost"

/-- A header; the values of one that is repeated are joined. -/
def header? (r : Request) (name : String) : Option String :=
  match normalName name with
  | "CONTENT_TYPE" => r.contentType?
  | "CONTENT_LENGTH" => r.contentLength?
  | normal =>
    match r.headerValues name with
    | [] => if normal == "HOST" then some defaultHost else none
    | values => some (", ".intercalate values)

/-- The identifier of the request: its own header, or else the one that it was given. -/
def identifier (r : Request) : Value :=
  (Value.str ((r.header? "x-request-id").getD "")).orElse r.assignedId

/-- The path as it is noted. -/
def shownPath (r : Request) : String := Text.targetPath r.path

/-! ## Query -/

/-- The keys of the query, each once. -/
def queryKeys (r : Request) : List String :=
  r.query.foldl (fun keys e => if keys.contains e.1 then keys else keys ++ [e.1]) []

/-- The values of a key of the query. -/
def queryValues (r : Request) (key : String) : List String :=
  (r.query.filter fun e => e.1 == key).map (·.2)

/-! ## Body -/

/-- The types of forms. -/
def formTypes : List String := [multipartType, formType]

/-- The fields of the form that arrive. A form travels under the name of one of the two types of
forms, and only one of them carries files. -/
def formFields (r : Request) : List (String × String) :=
  match r.body with
  | .text s => if r.mediaType == formType then Text.formFields s else []
  | .form fields _ =>
    if formTypes.contains (withoutParameters (r.contentType?.getD "")) then fields else []

/-- The files that arrive. -/
def uploads (r : Request) : List Upload :=
  match r.body with
  | .text _ => []
  | .form _ uploads =>
    if withoutParameters (r.contentType?.getD "") == multipartType then uploads else []

/-- The field that carries a file. -/
def fileField : String := "file"

/-- The data of a form: the first value of each field, and the first file with its type. -/
def formData (r : Request) : Value :=
  let fields : Value.Fields := r.formFields.foldl (fun acc e =>
    if OrderedMap.contains acc (.str e.1) then acc else acc ++ [(.str e.1, .str e.2)]) []
  match r.uploads.find? fun u => u.field == fileField with
  | some upload =>
    .ofEntries ((fields.set fileField (.bytes upload.content)).set "mimetype"
      (.str (Text.lower (withoutParameters upload.contentType))))
  | none => .ofEntries fields

/-- Whether a media type is JSON or built on it. -/
def isJson (type : String) : Bool :=
  type == "application/json" || (type.startsWith "application/" && type.endsWith "+json")

/-- The data that the body carries; null if it carries none that can be read. -/
def bodyData (r : Request) : Value :=
  if formTypes.contains r.mediaType then r.formData
  else if isJson r.mediaType then
    match r.body with
    | .text s => (Json.read? s).getD .null
    | .form .. => .null
  else .null

end Request

end WireShape
