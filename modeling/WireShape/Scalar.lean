import WireShape.Node.Builder

/-!
# Keywords of scalar nodes

What the rules, flags and allowed values of one scalar node say as keywords of a schema.

* `Scalar.keywords`: the keywords of a node read as a scalar kind.
* `Scalar.extract`: the keywords of a node by its own kind or base type.
* `Node.limitValue`: a limit, in which a reference to a sibling field is replaced by the value that
  the node's metadata give for it.
-/

namespace WireShape

open Value (Fields)

/-! ## Limits -/

namespace Node

/-- The value that the metadata of a node give for a sibling field. -/
def siblingValue (n : Node) (key : String) (fallback : Value) : Except Fault Value := do
  let values := n.metaValue "refValues"
  if values.truthy then return (← values.get (.str key)).getD fallback else return fallback

/-- A limit; a reference to a sibling field becomes the value given for it. -/
def limitValue (n : Node) (limit : Value) (fallback : Value := .int 0) : Except Fault Value :=
  match limit with
  | .ref key => n.siblingValue key fallback
  | v => .ok v

/-- The keywords of the size rules, with the given ending of their names; a later rule wins. -/
def sizeKeywords (n : Node) (suffix : String) : Except Fault Fields :=
  n.rules.foldlM (fun fields rule => do
    let limit ← n.limitValue (rule.limit?.getD .null)
    match rule with
    | .min _ => return fields.set ("min" ++ suffix) limit
    | .max _ => return fields.set ("max" ++ suffix) limit
    | .length _ => return (fields.set ("min" ++ suffix) limit).set ("max" ++ suffix) limit
    | _ => return fields) []

/-- The keywords of the allowed and denied values that the kind accepts. -/
def valueKeywords (n : Node) (accept : Value → Bool) : Fields :=
  let valids := n.valids.filter accept
  let invalids := n.invalids.filter accept
  let fields : Fields := if (n.flag "only").truthy && !valids.isEmpty
    then Fields.set [] "enum" (.list valids) else []
  if invalids.isEmpty then fields
  else fields.set "not" (.ofFields [("enum", .list invalids)])

/-- The letter case that a node asks for, as the ending of a pattern's name. -/
def caseSuffix (n : Node) : String :=
  match n.rule? "case" with
  | some (.case .lower) => "Lower"
  | some (.case .upper) => "Upper"
  | _ => ""

/-- The kind that a node is compiled as: its base type, if the metadata give one, or its kind. -/
def baseKind (n : Node) : Value := (n.metaValue "baseType").orElse (.str n.kind)

end Node

/-! ## Tables -/

/-- The patterns of character rules, by the ending that the letter case gives. -/
def alphanumPattern : String → String
  | "Lower" => "^[a-z0-9]*$"
  | "Upper" => "^[A-Z0-9]*$"
  | _ => "^[a-zA-Z0-9]*$"

def tokenPattern : String := "^[a-zA-Z0-9_]*$"

/-- Text rules that set a format and drop any pattern, in the order in which they apply. -/
def textFormats : List (String × String) :=
  [("email", "email"), ("isoDate", "date-time"), ("guid", "uuid")]

/-- The date format that asks for a date without a time. -/
def dateOnlyFormat : String := "YYYY-MM-DD"

/-! ## Scalar kinds -/

inductive Scalar
  | number
  | string
  | binary
  | date
  | boolean
  | any
deriving DecidableEq, Repr

namespace Scalar

def ofName? : String → Option Scalar
  | "number" => some number
  | "string" => some string
  | "binary" => some binary
  | "date" => some date
  | "boolean" => some boolean
  | "any" => some any
  | _ => none

def numberKeywords (n : Node) : Except Fault Fields := do
  let fields : Fields :=
    if n.hasRule "integer" then Fields.set [] "type" (.str "integer")
    else (Fields.set [] "type" (.str "number")).set "format"
      (.str (if n.hasRule "precision" then "double" else "float"))
  let fields := match n.rule? "sign" with
    | some (.sign .positive) => fields.set "minimum" (.int 1)
    | some (.sign .negative) => fields.set "maximum" (.int (-1))
    | _ => fields
  let fields ← match n.rule? "min" with
    | some (.min limit) => do pure (fields.set "minimum" (← n.limitValue limit))
    | _ => pure fields
  let fields ← match n.rule? "max" with
    | some (.max limit) => do pure (fields.set "maximum" (← n.limitValue limit))
    | _ => pure fields
  return fields.merge (n.valueKeywords Value.isNumber)

/-- The pattern of a text node. -/
def patternKeyword (n : Node) (fields : Fields) : Fields :=
  let fields :=
    if n.hasRule "alphanum" then
      let strict := (n.flag "convert").isFalse
      fields.set "pattern" (.str (alphanumPattern (if strict then n.caseSuffix else "")))
    else fields
  let fields := if n.hasRule "token" then fields.set "pattern" (.str tokenPattern) else fields
  match n.rule? "pattern" with
  | some (.pattern regex) => fields.set "pattern" (Node.patternSource regex)
  | _ => fields

/-- Formats win over patterns, whatever the order of the rules. -/
def formatKeyword (n : Node) (fields : Fields) : Fields :=
  textFormats.foldl (fun fields (rule, fmt) =>
    if n.hasRule rule then (fields.set "format" (.str fmt)).remove "pattern" else fields) fields

def stringKeywords (n : Node) : Except Fault Fields := do
  let fields := formatKeyword n (patternKeyword n (Fields.set [] "type" (.str "string")))
  return (fields.merge (← n.sizeKeywords "Length")).merge (n.valueKeywords Value.isText)

def binaryKeywords (n : Node) : Except Fault Fields := do
  let fmt := if (n.flag "encoding").same (.str "base64") then "byte" else "binary"
  let fields := (Fields.set [] "type" (.str "string")).set "format" (.str fmt)
  return fields.merge (← n.sizeKeywords "Length")

def dateKeywords (n : Node) : Fields :=
  let fmt := if (n.flag "format").same (.str dateOnlyFormat) then "date" else "date-time"
  (Fields.set [] "type" (.str "string")).set "format" (.str fmt)

def booleanKeywords (n : Node) : Fields :=
  (Fields.set [] "type" (.str "boolean")).merge (n.valueKeywords Value.isBool)

def anyKeywords (n : Node) : Fields :=
  let fields : Fields := if (n.metaValue "swaggerType").same (.str "file")
    then (Fields.set [] "type" (.str "file")).set "in" (.str "formData") else []
  fields.merge (n.valueKeywords fun v => v.isText || v.isNumber)

/-- The keywords of a node read as a scalar kind. -/
def keywords : Scalar → Node → Except Fault Fields
  | number, n => numberKeywords n
  | string, n => stringKeywords n
  | binary, n => binaryKeywords n
  | date, n => .ok (dateKeywords n)
  | boolean, n => .ok (booleanKeywords n)
  | any, n => .ok (anyKeywords n)

/-- The keywords of a scalar node; kinds with parts have none. -/
def extract (describe : Describe) (n : Node) : Except Fault Fields := do
  let kind := n.baseKind
  match (← kind.asKey) with
  | .str name =>
    match ofName? name with
    | some scalar => scalar.keywords n
    | none => throw (.missingKey (Text.quote name))
  | key => throw (.missingKey (← key.quoted describe))

end Scalar

end WireShape
