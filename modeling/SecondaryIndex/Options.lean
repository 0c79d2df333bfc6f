import SecondaryIndex.Duration

namespace SecondaryIndex

inductive ConfigValue
  | null
  | bool (value : Bool)
  | integer (value : Int)
  | decimal (mantissa : Int) (places : Nat)
  | text (value : String)
  | array (values : List ConfigValue)
  | object (members : List (String × ConfigValue))
  deriving Inhabited

namespace ConfigValue

/-- For a signed number, a truth value counts as 1 or 0, and a decimal loses its fraction. -/
def integer? : ConfigValue → Option Int
  | bool b => some b.toInt
  | integer n => some n
  | decimal mantissa places => some (mantissa.tdiv (Int.pow 10 places))
  | _ => none

/-- For a size, a truth value is of the wrong kind. -/
def size? : ConfigValue → Option Int
  | bool _ => none
  | v => v.integer?

def text? : ConfigValue → Option String
  | text s => some s
  | _ => none

def member? (name : String) (members : List (String × ConfigValue)) : Option ConfigValue :=
  (members.find? (·.1 = name)).map Prod.snd

/-- A member, the default in its absence, and nothing if it is of the wrong kind. -/
def read? {α : Type} (kind : ConfigValue → Option α) (members : List (String × ConfigValue))
    (name : String) (default : α) : Option α :=
  match member? name members with
  | none => some default
  | some v => kind v

end ConfigValue

structure Options where
  /-- In milliseconds. -/
  timeQuota : Int64 := 5000
  /-- After how many rows the clock is read again. -/
  checkpointInterval : UInt64 := 1024
  /-- Zero stands for no limit. -/
  resultLimit : UInt64 := 0
  logLevel : String := "info"
  deriving DecidableEq

namespace Options

/-- An interval has at least one row. -/
def intervalOf (n : Int64) : UInt64 := if n ≤ 0 then 1 else n.toUInt64

def ofMembers? (members : List (String × ConfigValue)) : Option Options := do
  let quota ← ConfigValue.read? ConfigValue.integer? members "time_quota_ms" 5000
  let interval ← ConfigValue.read? ConfigValue.integer? members "checkpoint_interval" 1024
  let limit ← ConfigValue.read? ConfigValue.size? members "result_limit" 0
  let level ← ConfigValue.read? ConfigValue.text? members "log_level" "info"
  return ⟨Int64.ofInt quota, intervalOf (Int64.ofInt interval), UInt64.ofInt limit, level⟩

def ofConfig : ConfigValue → Options
  | .object members => (ofMembers? members).getD {}
  | _ => {}

def toConfig (o : Options) : ConfigValue :=
  .object [("time_quota_ms", .integer o.timeQuota.toInt),
    ("checkpoint_interval", .integer o.checkpointInterval.toNat),
    ("result_limit", .integer o.resultLimit.toNat),
    ("log_level", .text o.logLevel)]

end Options
end SecondaryIndex
