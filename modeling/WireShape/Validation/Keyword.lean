/-!
# Keywords that are checked

* `Keyword`: the keywords of a schema that say something about data. All others are ignored.
* `Keyword.ofName?`: the keyword of a name.
-/

namespace WireShape

inductive Keyword
  | reference
  | type
  | enum
  | const
  | minimum
  | maximum
  | exclusiveMinimum
  | exclusiveMaximum
  | multipleOf
  | minLength
  | maxLength
  | minItems
  | maxItems
  | minProperties
  | maxProperties
  | uniqueItems
  | pattern
  | format
  | required
  | properties
  | additionalProperties
  | items
  | anyOf
  | oneOf
  | allOf
  | not
deriving DecidableEq, Repr

namespace Keyword

/-- The keyword of a name; none if it is not checked. -/
def ofName? : String → Option Keyword
  | "$ref" => some reference
  | "type" => some type
  | "enum" => some enum
  | "const" => some const
  | "minimum" => some minimum
  | "maximum" => some maximum
  | "exclusiveMinimum" => some exclusiveMinimum
  | "exclusiveMaximum" => some exclusiveMaximum
  | "multipleOf" => some multipleOf
  | "minLength" => some minLength
  | "maxLength" => some maxLength
  | "minItems" => some minItems
  | "maxItems" => some maxItems
  | "minProperties" => some minProperties
  | "maxProperties" => some maxProperties
  | "uniqueItems" => some uniqueItems
  | "pattern" => some pattern
  | "format" => some format
  | "required" => some required
  | "properties" => some properties
  | "additionalProperties" => some additionalProperties
  | "items" => some items
  | "anyOf" => some anyOf
  | "oneOf" => some oneOf
  | "allOf" => some allOf
  | "not" => some not
  | _ => none

/-- Keywords whose violation says less than the violations behind it. -/
def isWeak : Keyword → Bool
  | anyOf | oneOf => true
  | _ => false

end Keyword

end WireShape
