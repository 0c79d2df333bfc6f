import SecondaryIndex.Cursor.Lifetime

namespace SecondaryIndex

namespace Source

def inputs : Source → List CursorId
  | .tokens .. => []
  | .union children | .intersection children => children
  | .matches merged _ => [merged]

def isMatches : Source → Bool
  | .matches .. => true
  | _ => false

end Source

namespace Engine

def inputs (e : Engine) (id : CursorId) : List CursorId :=
  (e.cursors[id]?.map fun c => c.source.inputs).getD []

/-- Adds what is read by the cursors below `n` that are within reach. A cursor reads only cursors
opened before it, so one pass downwards finds them all. -/
def reachFrom (e : Engine) : Nat → List CursorId → List CursorId
  | 0, reached => reached
  | n + 1, reached => e.reachFrom n (if n ∈ reached then e.inputs n ++ reached else reached)

def grouped (e : Engine) : List CursorId :=
  e.sessions.toList.flatMap fun s => s.groups.values.flatten

/-- The cursors that can be read while those in `held` are in use. -/
def withinReach (e : Engine) (held : List CursorId) : List CursorId :=
  e.reachFrom e.cursors.size (held ++ e.grouped)

def outOfReach (e : Engine) (held : List CursorId) : List CursorId :=
  let reached := e.withinReach held
  (List.range e.cursors.size).filter fun id => id ∉ reached

end Engine

/-- Closes the matches that neither a cursor in `held` nor an open group leads to. -/
def Cursor.reclaim (held : List CursorId) : Act Unit := do
  let e ← get
  Cursor.closeQuietly <| (e.outOfReach held).filter fun id =>
    e.cursors[id]?.any fun c => c.source.isMatches

end SecondaryIndex
