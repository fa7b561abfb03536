import WireShape.Log
import WireShape.Text.Blank
import WireShape.Text.Case
import WireShape.Value.Access

/-!
# Settings

Settings come from the environment and can be overridden one by one.

* `Settings.load`: the settings of an environment with overrides.
* `Settings.logLevel`: the number of the log level that is asked for.
-/

namespace WireShape

open Value (Fields)

/-- The variables of the environment. -/
abbrev Environment := OrderedMap String String

namespace Settings

/-- The variables that settings are taken from. -/
def variableNames : List String :=
  [ "ROUTEDOC_OPENAPI_VERSION", "ROUTEDOC_API_TITLE", "ROUTEDOC_API_VERSION",
    "ROUTEDOC_HEADER_PREFIX", "ROUTEDOC_STRICT_PARAMETERS", "LOG_LEVEL" ]

def defaultHeaderStart : String := "x-"

/-- The spellings of yes. -/
def affirmatives : List String := ["1", "true", "yes", "on"]

/-- Whether a variable is set to a spelling of yes. -/
def isAffirmative (env : Environment) (name : String) : Bool :=
  match env.get? name with
  | some raw => affirmatives.contains (Text.lower (Text.strip raw))
  | none => false

/-- The settings of an environment. -/
def ofEnvironment (env : Environment) : Fields :=
  let text (name fallback : String) : Value := .str (env.getD name fallback)
  [ (.str "OPENAPI_VERSION", text "ROUTEDOC_OPENAPI_VERSION" "3.0.3"),
    (.str "API_TITLE", text "ROUTEDOC_API_TITLE" "API"),
    (.str "API_VERSION", text "ROUTEDOC_API_VERSION" "0.1.0"),
    (.str "HEADER_PREFIX", text "ROUTEDOC_HEADER_PREFIX" defaultHeaderStart),
    (.str "STRICT_PARAMETERS", .bool (isAffirmative env "ROUTEDOC_STRICT_PARAMETERS")),
    (.str "LOG_LEVEL", .str (Text.upper (env.getD "LOG_LEVEL" "INFO"))) ]

/-- The settings of an environment with overrides. -/
def load (env : Environment) (overrides : Value) : Except Fault Fields := do
  let settings := ofEnvironment env
  if overrides.truthy then return settings.merge (← overrides.toEntries) else return settings

/-- A setting, or null. -/
def get (settings : Fields) (name : String) : Value := OrderedMap.getD settings (.str name) .null

/-- The level that counts where none or an unknown one is asked for. -/
def defaultLevel : LogLevel := .info

/-- The number of the log level that is asked for, or else that of the environment. -/
def logLevel (env : Environment) (level : Value) : Except Fault Nat :=
  match level.orElse (get (ofEnvironment env) "LOG_LEVEL") with
  | .str name => .ok ((LogLevel.numberOfName? (Text.upper name)).getD defaultLevel.number)
  | v => .error (.noAttribute v.typeName "upper")

end Settings

end WireShape
