import SecondaryIndex.Session

namespace SecondaryIndex

inductive Query
  | absent
  | node (connective : Connective) (group : Group) (left right : Query)
  deriving Inhabited

namespace Query

def isAbsent : Query → Bool
  | absent => true
  | node .. => false

/-- Plans the group of a node. None if a conjunction has a condition without any match. -/
def start (session : SessionId) (connective : Connective) (group : Group) :
    Act (Option Merge) := do
  if group.isEmpty then return some { connective }
  let m ← Session.plan session connective group
  return if connective = .and ∧ m.inputs.length < group.eligible.length then none else some m

/-- Adds the result of a part. None if a conjunction has a part without any match. -/
def join (m : Merge) (part : Query) (build : Act (Option CursorId)) : Act (Option Merge) := do
  if part.isAbsent then return some m
  match ← build with
  | some id => some <$> m.add (some id)
  | none => return if m.connective = .and then none else some m

/-- A cursor over the rows of the query, none if nothing can match. -/
def build (session : SessionId) : Query → Act (Option CursorId)
  | absent => return none
  | node connective group left right => do
    match ← start session connective group with
    | none => return none
    | some m =>
      match ← join m left (build session left) with
      | none => return none
      | some m =>
        match ← join m right (build session right) with
        | none => return none
        | some m => m.build

/-- Releases the groups of all nodes. -/
def release (session : SessionId) : Query → Act Unit
  | absent => return
  | node _ group left right => do
    if !group.isEmpty then Session.release session group
    release session left
    release session right

def separated : List Bytes → Bytes
  | [] => []
  | [b] => b
  | b :: rest => b ++ Bytes.ofText ", " ++ separated rest

/-- The connective with all that it joins, such as `AND(a EQ 'x', OR(b EQ 'y'))`. -/
def render : Query → Bytes
  | absent => []
  | node connective group left right =>
    let parts := (if left.isAbsent then [] else [left.render]) ++
      (if right.isAbsent then [] else [right.render])
    Bytes.ofText s!"{connective.name}(" ++ separated (group.map Condition.render ++ parts) ++
      Bytes.ofText ")"

end Query
end SecondaryIndex
