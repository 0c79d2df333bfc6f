import SecondaryIndex.Bigint

namespace SecondaryIndex

inductive ValueType
  | text
  | ascii
  | bigint
  | blob
  deriving DecidableEq

namespace ValueType

def name : ValueType → String
  | text => "text"
  | ascii => "ascii"
  | bigint => "bigint"
  | blob => "blob"

/-- Names are read without regard to the case of their ASCII letters. -/
def ofName? (name : String) : Option ValueType :=
  match name.toLower with
  | "text" | "utf8" | "varchar" => some text
  | "ascii" => some ascii
  | "bigint" | "int64" | "long" => some bigint
  | "blob" | "bytes" => some blob
  | _ => none

def isTextual : ValueType → Bool
  | text | ascii => true
  | bigint | blob => false

/-- Bigint values are ordered as numbers, all others as bytes. -/
def compare : ValueType → Bytes → Bytes → Except Fault Ordering
  | bigint, a, b => Bigint.compare a b
  | _, a, b => .ok (Ord.compare a b)

def less (type : ValueType) (a b : Bytes) : Except Fault Bool := do
  return (← type.compare a b).isLT

/-- Text is shown as it is, all else by its hexadecimal digits, but a well-formed bigint as the
number. -/
def render : ValueType → Bytes → Bytes
  | text, b | ascii, b => b
  | blob, b => Bytes.ofText s!"0x{b.hex}"
  | bigint, b =>
    match Bigint.decode b with
    | .ok v => Bytes.ofText (toString v.toInt)
    | .error _ => Bytes.ofText s!"0x{b.hex}"

theorem compare_of_ne_bigint {type : ValueType} (h : type ≠ bigint) (a b : Bytes) :
    type.compare a b = .ok (Ord.compare a b) := by
  cases type with
  | bigint => exact absurd rfl h
  | text | ascii | blob => rfl

end ValueType
end SecondaryIndex
