namespace SecondaryIndex

inductive LogLevel
  | trace
  | debug
  | info
  | warn
  | error
  | critical
  deriving DecidableEq

namespace LogLevel

def severity : LogLevel → Nat
  | trace => 0
  | debug => 1
  | info => 2
  | warn => 3
  | error => 4
  | critical => 5

def name : LogLevel → String
  | trace => "trace"
  | debug => "debug"
  | info => "info"
  | warn => "warn"
  | error => "error"
  | critical => "critical"

/-- The case of ASCII letters does not count. An unknown name stands for `info`. -/
def ofName (name : String) : LogLevel :=
  match name.toLower with
  | "trace" => trace
  | "debug" => debug
  | "warn" | "warning" => warn
  | "error" | "err" => error
  | "critical" | "crit" => critical
  | _ => info

end LogLevel

structure Log where
  level : Option LogLevel := none

namespace Log

/-- Sets the level, and turns the log on if it is off. -/
def setLevel (_ : Log) (level : LogLevel) : Log := ⟨some level⟩

def shutdown (_ : Log) : Log := ⟨none⟩

def isOn (log : Log) : Bool := log.level.isSome

def takes (log : Log) (level : LogLevel) : Bool :=
  log.level.any fun least => least.severity ≤ level.severity

end Log
end SecondaryIndex
