import SecondaryIndex.Merge

namespace SecondaryIndex

structure Candidate where
  condition : Condition
  segments : List Segment

namespace Candidate

/-- A group reads one snapshot for each column, that of its first eligible condition there. -/
def snapshotFor (e : Engine) (group : Group) (c : Condition) : Option Snapshot := do
  let first ← group.find? fun d => d.eligible && d.column = c.column
  let index ← e.indexes[← first.index]?
  return index.snapshot

/-- The segments in scope that the terms of the condition single out. -/
def direct (e : Engine) (scope : List DataFile) (group : Group) (c : Condition) :
    Except Fault Candidate :=
  match snapshotFor e group c with
  | none => .ok ⟨c, []⟩
  | some v => return ⟨c, ← v.candidates scope c⟩

/-- Of equally good ones the first is kept. -/
def better (best : Option Candidate) (c : Candidate) : Candidate :=
  match best with
  | none => c
  | some best => if c.segments.length < best.segments.length then c else best

def primaryOf (e : Engine) (scope : List DataFile) (group : Group) :
    Option Candidate → List Condition → Except Fault (Option Candidate)
  | best, [] => .ok best
  | best, c :: rest => do
    primaryOf e scope group (some (better best (← direct e scope group c))) rest

/-- The first eligible condition with the fewest segments. -/
def primary (e : Engine) (scope : List DataFile) (group : Group) :
    Except Fault (Option Candidate) :=
  primaryOf e scope group none (group.filter Condition.eligible)

/-- The segments in scope whose keys overlap those of a segment of the primary condition. -/
def narrowed (e : Engine) (scope : List DataFile) (group : Group) (primary : List Segment)
    (c : Condition) : Candidate :=
  match snapshotFor e group c with
  | none => ⟨c, []⟩
  | some v => ⟨c, SegmentSet.ofList <|
      primary.flatMap fun p => (v.overlapping p.minKey p.maxKey).filter (·.file ∈ scope)⟩

/-- The candidate of one condition beside the primary one. A primary condition without segments
does not narrow the others, as its rows may all be in the memtable. -/
def beside (e : Engine) (scope : List DataFile) (group : Group) (primary : Option Candidate)
    (c : Condition) : Except Fault Candidate :=
  match primary with
  | none => direct e scope group c
  | some p =>
    if p.segments.isEmpty then direct e scope group c
    else if p.condition.same c then .ok ⟨c, p.segments⟩
    else .ok (narrowed e scope group p.segments c)

def allBeside (e : Engine) (scope : List DataFile) (group : Group) (primary : Option Candidate) :
    List Condition → Except Fault (List Candidate)
  | [] => .ok []
  | c :: rest => return (← beside e scope group primary c) ::
      (← allBeside e scope group primary rest)

/-- One candidate for each eligible condition, in the order of the group. -/
def ofGroup (e : Engine) (scope : List DataFile) (connective : Connective) (group : Group) :
    Except Fault (List Candidate) := do
  let primary ← match connective with
    | .and => primary e scope group
    | .or => pure none
  allBeside e scope group primary group.eligible

end Candidate
end SecondaryIndex
