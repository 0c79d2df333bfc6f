import SecondaryIndex.Predicate
import SecondaryIndex.ValueType

namespace SecondaryIndex

/-- The number of a column index in the catalog. -/
abbrev IndexId := Nat

structure Column where
  name : String
  type : Option ValueType
  index : Option IndexId := none

namespace Column

def isTextual (column : Column) : Bool := column.type.any ValueType.isTextual

end Column

structure Condition where
  column : String
  type : ValueType
  index : Option IndexId
  predicate : Predicate

namespace Condition

/-- A condition needs a column whose type is known. -/
def on (column : Column) (predicate : Predicate) : Except Fault Condition :=
  match column.type with
  | none => .error (.untypedColumn column.name)
  | some type => .ok ⟨column.name, type, column.index, predicate⟩

def eq (column : Column) (value : Bytes) : Except Fault Condition := on column (.eq value)

def notEq (column : Column) (value : Bytes) : Except Fault Condition := on column (.notEq value)

def lessThan (column : Column) (value : Bytes) (inclusive : Bool) : Except Fault Condition :=
  on column (.range none (some ⟨value, inclusive⟩))

def greaterThan (column : Column) (value : Bytes) (inclusive : Bool) : Except Fault Condition :=
  on column (.range (some ⟨value, inclusive⟩) none)

def between (column : Column) (lower upper : Bound) : Except Fault Condition :=
  on column (.range (some lower) (some upper))

def startsWith (column : Column) (start : Bytes) : Except Fault Condition :=
  if column.isTextual then on column (.startsWith start) else .error (.startNeedsText column.name)

def contains (column : Column) (part : Bytes) : Except Fault Condition :=
  if column.isTextual then on column (.contains part) else .error (.partNeedsText column.name)

/-- Whether an index can answer the condition. What is left out is for the row filter. -/
def eligible (c : Condition) : Bool :=
  c.index.isSome &&
    match c.predicate with
    | .notEq _ => false
    | _ => true

/-- Whether `value` stands above the bound, or on it if the bound is inclusive. -/
def clearsLower (type : ValueType) (bound : Option Bound) (value : Bytes) : Except Fault Bool :=
  match bound with
  | none => .ok true
  | some b => return match ← type.compare value b.value with
    | .lt => false
    | .eq => b.inclusive
    | .gt => true

def clearsUpper (type : ValueType) (bound : Option Bound) (value : Bytes) : Except Fault Bool :=
  match bound with
  | none => .ok true
  | some b => return match ← type.compare value b.value with
    | .lt => true
    | .eq => b.inclusive
    | .gt => false

/-- Whether a row with this value in the column meets the condition. -/
def accepts (c : Condition) (value : Bytes) : Except Fault Bool :=
  match c.predicate with
  | .eq v => return (← c.type.compare value v).isEq
  | .notEq v => return !(← c.type.compare value v).isEq
  | .startsWith start => .ok (value.startsWith start)
  | .contains part => .ok (value.contains part)
  | .range lower upper => do
    if ← clearsLower c.type lower value then clearsUpper c.type upper value else return false

def renderLower (type : ValueType) : Option Bound → Bytes
  | none => Bytes.ofText "(-inf"
  | some b => Bytes.ofText (if b.inclusive then "[" else "(") ++ type.render b.value

def renderUpper (type : ValueType) : Option Bound → Bytes
  | none => Bytes.ofText "+inf)"
  | some b => type.render b.value ++ Bytes.ofText (if b.inclusive then "]" else ")")

def renderOperand (type : ValueType) : Predicate → Bytes
  | .eq v | .notEq v | .startsWith v | .contains v =>
    Bytes.ofText "'" ++ type.render v ++ Bytes.ofText "'"
  | .range lower upper => renderLower type lower ++ Bytes.ofText ", " ++ renderUpper type upper

/-- Column, operator and operand, such as `age RANGE [18, 65)`. -/
def render (c : Condition) : Bytes :=
  Bytes.ofText s!"{c.column} {c.predicate.name} " ++ renderOperand c.type c.predicate

/-- Whether two conditions ask the same of the same column. -/
def same (a b : Condition) : Bool := a.column = b.column ∧ a.predicate = b.predicate

def compare : Condition → Condition → Ordering :=
  compareLex (compareOn column) (compareOn predicate)

instance : Std.TransCmp compare :=
  inferInstanceAs (Std.TransCmp (compareLex (compareOn column) (compareOn predicate)))

theorem compare_eq_iff_same {a b : Condition} : compare a b = .eq ↔ a.same b := by
  rw [same, decide_eq_true_iff, ← Std.LawfulEqOrd.compare_eq_iff_eq (a := a.column),
    ← Std.LawfulEqOrd.compare_eq_iff_eq (a := a.predicate)]
  exact Ordering.then_eq_eq

end Condition

/-- The conditions that one connective joins at one step of a plan. -/
abbrev Group := List Condition

namespace Group

/-- Groups are ordered condition by condition, a group before its extensions. -/
def compare : Group → Group → Ordering := List.compareLex Condition.compare

instance : Std.TransCmp compare :=
  inferInstanceAs (Std.TransCmp (List.compareLex Condition.compare))

/-- The eligible conditions without repeats, in order of first occurrence. -/
def eligible (g : Group) : List Condition :=
  g.foldl (fun seen c => if c.eligible && !seen.any c.same then seen ++ [c] else seen) []

end Group
end SecondaryIndex
