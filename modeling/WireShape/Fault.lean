/-!
# What can go wrong

A `Fault` is the cause of a failure. The wording is in one place.

* `Fault`: the causes, by the part of the work in which they arise.
* `Fault.message`: the text of a cause.
* `Fault.isBuildFailure`: the causes that the command line reports as a failed build instead of
  passing them on.
-/

namespace WireShape

/-- What a route source is asked for. -/
inductive Accessor
  | tag
  | schemas
  | parameters
  | routes
deriving DecidableEq, Repr

inductive Fault
  -- schemas
  | noSchema
  | forbiddenContent
  | notASchema (type : String)
  | unknownKind (kind : String)
  | nestedOverride
  | missingLabel
  | labelConflict (name bucket : String)
  | cyclicSchema (kind : String)
  | methodUnavailable (method kind : String)
  | badMatchMode (shown : String)
  -- routes
  | incompleteRoute
  | namelessTag (source : String)
  | duplicateRoute (method path : String)
  | undeclaredParameter (name path : String)
  | notProvided (accessor : Accessor)
  | emptyName
  | dottedName
  | badPath (path : String)
  -- values of the wrong type
  | missingKey (shown : String)
  | missingIndex
  | noAttribute (type member : String)
  | unhashable (type : String)
  | notMapping (type : String)
  | notIterable (type : String)
  | notContainer (type : String)
  | notSubscriptable (type : String)
  | notCallable (type : String)
  | badIndex (container index : String)
  | textOperandNeeded (type : String)
  | bytesOperandNeeded (type : String)
  | badOperands (op left right : String)
  | badTextSum (type : String)
  | badBytesSum (type : String)
  | notOrdered (op left right : String)
  | noLength (type : String)
  | pairNotSequence (index : Nat)
  | pairLength (index length : Nat)
  | tooFewParts (expected got : Nat)
  | badStart (owner type : String)
  | keywordNotText
  | unexpectedArgument (name : String)
  | missingArguments (names : List String)
  | notSerializable (type : String)
  | badObjectKey (type : String)
  | notMatchable (type : String)
  -- arithmetic
  | divisionByZero (what : String)
  | intTooLarge
  | infinityToRatio
  | notANumberToInt
  | notAnInteger (shown : String)
  -- validation
  | unknownType
  | unknownTypeOf (shown : String)
  | unresolvableReference
  | unbounded
  | bytesPattern
  | badPattern (reason : String)
  -- command line
  | badSource (shown : String)
  | noModule (shown : String)
  | notPackage (shown shownParent : String)
  | relativeModule (shown : String)
  | noModuleAttribute (module member : String)
  | fileFault (code : Nat) (reason shown : String)
deriving DecidableEq, Repr

namespace Fault

/-- Quoted names in a row, the last one after an `and`. -/
def enumerate : List String → String
  | [] => ""
  | [a] => "'" ++ a ++ "'"
  | [a, b] => "'" ++ a ++ "' and '" ++ b ++ "'"
  | [a, b, c] => "'" ++ a ++ "', '" ++ b ++ "', and '" ++ c ++ "'"
  | a :: rest => "'" ++ a ++ "', " ++ enumerate rest

def notProvidedText : Accessor → String
  | .tag => "Subclasses must implement tag() returning \x7b\"name\", \"description\"\x7d."
  | .schemas => "Subclasses must implement schemas()."
  | .parameters => "Subclasses must implement parameters()."
  | .routes => "Subclasses must implement routes() listing every route."

/-- The text of a cause. -/
def message : Fault → String
  | noSchema => "No schema was passed."
  | forbiddenContent => "A forbidden schema cannot be used as a body or response."
  | notASchema type =>
    "Passed value of type " ++ type ++ " does not appear to be a schema node."
  | unknownKind kind => kind ++ " is not a recognized schema type."
  | nestedOverride =>
    "Cannot override the schema for one which is being used in another override " ++
      "(no nested schema overrides)."
  | missingLabel =>
    "Encountered a schema without a label. " ++
      "Define a label() or declare the schema in schemas() for reuse."
  | labelConflict name bucket =>
    "Label \"" ++ name ++ "\" is already used for a different " ++ bucket ++ " shape. " ++
      "Make the shapes match or use a different label."
  | cyclicSchema kind =>
    "Schema node (" ++ (if kind.isEmpty then "unknown" else kind) ++
      ") contains itself as a descendant."
  | methodUnavailable method kind =>
    method ++ "() is not available on " ++ kind ++ " schemas"
  | badMatchMode shown => "match mode must be any, one or all (got " ++ shown ++ ")"
  | incompleteRoute => "Path, method, and summary are required to define an API route."
  | namelessTag source => source ++ ".tag() must return a mapping with a 'name'."
  | duplicateRoute method path => "Duplicate route " ++ method ++ " " ++ path
  | undeclaredParameter name path =>
    "Parameter '" ++ name ++ "' used by " ++ path ++ " is not declared in parameters()."
  | notProvided accessor => notProvidedText accessor
  | emptyName => "'name' may not be empty."
  | dottedName => "'name' may not contain a dot '.' character."
  | badPath path => "URL rule '" ++ path ++ "' must start with a slash."
  | missingKey shown => shown
  | missingIndex => "list index out of range"
  | noAttribute type member =>
    "'" ++ type ++ "' object has no attribute '" ++ member ++ "'"
  | unhashable type => "unhashable type: '" ++ type ++ "'"
  | notMapping type => "'" ++ type ++ "' object is not a mapping"
  | notIterable type => "'" ++ type ++ "' object is not iterable"
  | notContainer type => "argument of type '" ++ type ++ "' is not iterable"
  | notSubscriptable type => "'" ++ type ++ "' object is not subscriptable"
  | notCallable type => "'" ++ type ++ "' object is not callable"
  | badIndex container index => container ++ " indices must be integers" ++
      (if container == "string" then ", not '" ++ index ++ "'"
       else " or slices, not " ++ index)
  | textOperandNeeded type =>
    "'in <string>' requires string as left operand, not " ++ type
  | bytesOperandNeeded type => "a bytes-like object is required, not '" ++ type ++ "'"
  | badOperands op left right =>
    "unsupported operand type(s) for " ++ op ++ ": '" ++ left ++ "' and '" ++ right ++ "'"
  | badTextSum type => "can only concatenate str (not \"" ++ type ++ "\") to str"
  | badBytesSum type => "can't concat " ++ type ++ " to bytes"
  | notOrdered op left right =>
    "'" ++ op ++ "' not supported between instances of '" ++ left ++ "' and '" ++ right ++ "'"
  | noLength type => "object of type '" ++ type ++ "' has no len()"
  | pairNotSequence index =>
    "cannot convert dictionary update sequence element #" ++ toString index ++ " to a sequence"
  | pairLength index length =>
    "dictionary update sequence element #" ++ toString index ++ " has length " ++
      toString length ++ "; 2 is required"
  | tooFewParts expected got =>
    "not enough values to unpack (expected " ++ toString expected ++ ", got " ++
      toString got ++ ")"
  | badStart owner type =>
    "startswith first arg must be " ++ owner ++ " or a tuple of " ++ owner ++ ", not " ++ type
  | keywordNotText => "keywords must be strings"
  | unexpectedArgument name =>
    "RouteSchema.create_route() got an unexpected keyword argument '" ++ name ++ "'"
  | missingArguments names =>
    "RouteSchema.create_route() missing " ++ toString names.length ++
      " required keyword-only argument" ++ (if names.length == 1 then "" else "s") ++ ": " ++
      enumerate names
  | notSerializable type => "Object of type " ++ type ++ " is not JSON serializable"
  | badObjectKey type => "keys must be str, int, float, bool or None, not " ++ type
  | notMatchable type => "expected string or bytes-like object, got '" ++ type ++ "'"
  | divisionByZero what => what
  | intTooLarge => "int too large to convert to float"
  | infinityToRatio => "cannot convert Infinity to integer ratio"
  | notANumberToInt => "cannot convert float NaN to integer"
  | notAnInteger shown => "invalid literal for int() with base 10: " ++ shown
  | unknownType => ""
  | unknownTypeOf shown => "Type " ++ shown ++ " is unknown to this type checker"
  | unresolvableReference => ""
  | unbounded => ""
  | bytesPattern => "cannot use a string pattern on a bytes-like object"
  | badPattern reason => reason
  | badSource shown => "Source must look like module:attribute (got " ++ shown ++ ")"
  | noModule shown => "No module named " ++ shown
  | notPackage shown shownParent =>
    "No module named " ++ shown ++ "; " ++ shownParent ++ " is not a package"
  | relativeModule shown =>
    "the 'package' argument is required to perform a relative import for " ++ shown
  | noModuleAttribute module member =>
    "module '" ++ module ++ "' has no attribute '" ++ member ++ "'"
  | fileFault code reason shown =>
    "[Errno " ++ toString code ++ "] " ++ reason ++ ": " ++ shown

/-- Whether the command line reports the cause as a failed build: the faults of schemas and routes,
of the named source, of values that lack an asked-for member, and of malformed values; not those of
a value that cannot be used as such, of a missing key or of an accessor that is not provided. -/
def isBuildFailure : Fault → Bool
  | noSchema | forbiddenContent | notASchema _ | unknownKind _ | nestedOverride | missingLabel
  | labelConflict .. | cyclicSchema _ | badMatchMode _ => true
  | incompleteRoute | namelessTag _ | duplicateRoute .. | undeclaredParameter .. => true
  | noAttribute .. | pairLength .. | tooFewParts .. | notANumberToInt | notAnInteger _ => true
  | badSource _ | noModule _ | notPackage .. | noModuleAttribute .. => true
  | _ => false

end Fault

end WireShape
