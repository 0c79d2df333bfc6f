import SecondaryIndex.Cursor.Lifetime

namespace SecondaryIndex

inductive Connective
  | and
  | or
  deriving DecidableEq

namespace Connective

def name : Connective → String
  | and => "AND"
  | or => "OR"

def extent : Connective → Extent → Extent → Extent
  | and => Extent.meet
  | or => Extent.join

end Connective

structure Merge where
  connective : Connective
  inputs : List CursorId := []
  extent : Extent := {}
  deriving DecidableEq

namespace Merge

def push (m : Merge) (id : CursorId) (extent : Extent) : Merge :=
  { m with
    inputs := m.inputs ++ [id]
    extent := if m.inputs.isEmpty then extent else m.connective.extent m.extent extent }

/-- What is absent or has no tokens is left out. -/
def add (m : Merge) (input : Option CursorId) : Act Merge := do
  match input with
  | none => return m
  | some id =>
    let c ← Cursor.state id
    return if c.extent.count = 0 then m else m.push id c.extent

def addAll (m : Merge) : List (Option CursorId) → Act Merge
  | [] => return m
  | input :: rest => do (← m.add input).addAll rest

/-- Inputs of an intersection without a common token range are closed, and an empty cursor stands
for them. -/
def combine (m : Merge) : Act CursorId := do
  match m.connective with
  | .or => Cursor.openAs { extent := m.extent, source := .union m.inputs }
  | .and =>
    if m.extent.high < m.extent.low then
      Cursor.closeAll m.inputs
      Cursor.empty.openAs
    else Cursor.openAs { extent := m.extent, source := .intersection m.inputs }

/-- One cursor for all inputs: a single input itself, and none without inputs. -/
def build (m : Merge) : Act (Option CursorId) := do
  match m.inputs with
  | [] => return none
  | [id] => return some id
  | _ => some <$> m.combine

/-- What is left of a merge when its inputs have gone into a cursor or have been closed. -/
def spent (m : Merge) : Merge := { m with inputs := [] }

/-- Closes all inputs. The merge is empty afterwards, also if closing one of them fails. -/
def shut (m : Merge) : Act (Except Fault Unit × Merge) := do
  let r ← Act.attempt (Cursor.closeAll m.inputs)
  return (r, m.spent)

def close (m : Merge) : Act Unit := do Act.settle (← m.shut).1

theorem shut_eq (m : Merge) (e : Engine) : m.shut e =
    (.ok ((Cursor.closeAll m.inputs e).1, m.spent), (Cursor.closeAll m.inputs e).2) := rfl

theorem close_eq (m : Merge) : m.close = Cursor.closeAll m.inputs := by
  funext e
  change Act.settle (Cursor.closeAll m.inputs e).1 (Cursor.closeAll m.inputs e).2 = _
  rcases Cursor.closeAll m.inputs e with ⟨_ | _, e'⟩ <;> rfl

def union (inputs : List (Option CursorId)) : Act (Option CursorId) := do
  (← ({ connective := .or } : Merge).addAll inputs).build

end Merge
end SecondaryIndex
