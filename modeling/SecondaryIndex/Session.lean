import SecondaryIndex.BaseTable
import SecondaryIndex.Candidate
import SecondaryIndex.Catalog
import SecondaryIndex.Matches

namespace SecondaryIndex

abbrev SessionId := Nat

namespace Session

def state (id : SessionId) : Act Session := return (← get).session id

def update (id : SessionId) (change : Session → Session) : Act Unit :=
  modify (·.updateSession id change)

def openAt (now : Duration) (range : Option KeyRange) (quota : Int64) : Act SessionId := do
  let scope ← BaseTable.pin range
  let e ← get
  set { e with
    sessions := e.sessions.push { start := now, quota := .ofMilliseconds quota, scope } }
  return e.sessions.size

def elapsed (s : Session) (now : Duration) : Duration := now - s.start

/-- Fails once the quota is used up. -/
def checkpoint (id : SessionId) (now : Duration) : Act Unit := do
  let s ← state id
  if s.quota ≤ s.elapsed now then throw (.outOfTime (s.elapsed now) s.quota)

def candidates (id : SessionId) (connective : Connective) (group : Group) :
    Act (List Candidate) := do
  let s ← state id
  Act.settle (Candidate.ofGroup (← get) s.scope connective group)

def primary (id : SessionId) (group : Group) : Act (Option Candidate) := do
  let s ← state id
  Act.settle (Candidate.primary (← get) s.scope group)

def openMatches (c : Candidate) : Act (Option CursorId) := do
  let memtable ← match c.condition.index with
    | none => pure none
    | some index => Catalog.searchMemtable index c.condition
  Matches.openAs c.condition memtable c.segments

/-- Opens the matches of one condition after the other, leaving out those without any. If one
fails, those before it are closed. -/
def openAll : List Candidate → Act (List CursorId)
  | [] => return []
  | c :: rest => do
    match ← openMatches c with
    | none => openAll rest
    | some id =>
      let more ← Act.orUndo (openAll rest) (Cursor.close id)
      return id :: more

/-- Merges the matches of the group's conditions. The group is open from then on. -/
def plan (id : SessionId) (connective : Connective) (group : Group) : Act Merge := do
  let s ← state id
  if s.finished then throw .sessionFinished
  if s.groups.contains group then throw .groupOpen
  let opened ← openAll (← candidates id connective group)
  let merge ← ({ connective } : Merge).addAll (opened.map some)
  update id fun s => { s with groups := s.groups.insert group opened }
  return merge

/-- Closes the cursors of an open group. -/
def release (id : SessionId) (group : Group) : Act Unit := do
  match (← state id).groups.get? group with
  | none => return
  | some cursors =>
    update id fun s => { s with groups := s.groups.erase group }
    Catalog.reclaim
    Cursor.closeQuietly cursors

def releaseAll (id : SessionId) : List Group → Act Unit
  | [] => return
  | group :: rest => do
    release id group
    releaseAll id rest

/-- Releases all groups, and then the files in scope. A second time it does nothing. -/
def finish (id : SessionId) : Act Unit := do
  let s ← state id
  if s.finished then return
  update id fun s => { s with finished := true }
  releaseAll id s.groups.keys
  DataFile.releaseAll s.scope
  update id fun s => { s with scope := [] }

structure Description where
  connective : Connective
  scope : Nat
  /-- For a conjunction, the primary condition if there is one. -/
  primary : Option (Option Condition)
  candidates : List Candidate
  /-- Conditions that are left to the row filter. -/
  postFilter : List Condition

def describe (id : SessionId) (connective : Connective) (group : Group) : Act Description := do
  let s ← state id
  let primary ← match connective with
    | .and => some <$> (Option.map Candidate.condition) <$> primary id group
    | .or => pure none
  let candidates ← candidates id connective group
  return { connective, scope := s.scope.length, primary, candidates
           postFilter := group.filter fun c => !c.eligible }

end Session
end SecondaryIndex
