/-!
# Log entries

* `LogLevel`: the levels with their names and numbers.
* `LogEntry`: a level and a message.
-/

namespace WireShape

inductive LogLevel
  | debug
  | info
  | warning
  | error
  | critical
deriving DecidableEq, Repr

namespace LogLevel

def name : LogLevel → String
  | debug => "DEBUG"
  | info => "INFO"
  | warning => "WARNING"
  | error => "ERROR"
  | critical => "CRITICAL"

def number : LogLevel → Nat
  | debug => 10
  | info => 20
  | warning => 30
  | error => 40
  | critical => 50

/-- The number that a name stands for; names of levels have short forms too. -/
def numberOfName? : String → Option Nat
  | "CRITICAL" | "FATAL" => some 50
  | "ERROR" => some 40
  | "WARNING" | "WARN" => some 30
  | "INFO" => some 20
  | "DEBUG" => some 10
  | "NOTSET" => some 0
  | _ => none

end LogLevel

structure LogEntry where
  level : LogLevel
  message : String
deriving DecidableEq, Repr

end WireShape
