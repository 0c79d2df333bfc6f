import SecondaryIndex.Segment.Lifetime

namespace SecondaryIndex.Snapshot

structure Selection where
  kept : List Segment := []
  excluded : List Segment := []

/-- Keeps a segment if its file stays and no segment of its generation was kept before. -/
def consider (leaves : DataFile → Bool) (sel : Selection) (s : Segment) : Selection :=
  if leaves s.file || SegmentSet.hasGeneration s.generation sel.kept then
    { sel with excluded := sel.excluded ++ [s] }
  else { sel with kept := SegmentSet.insert s sel.kept }

def select (leaves : DataFile → Bool) (segments : List Segment) : Selection :=
  segments.foldl (consider leaves) {}

/-- Dropped files and compacted files leave. -/
def leaves (e : Engine) (dropped : List DataFile) (f : DataFile) : Bool :=
  f ∈ dropped || (e.file f).compacted

/-- Builds the next snapshot. If that fails, no reference is dropped. -/
def update (type : ValueType) (current : List Segment) (dropped : List DataFile)
    (added : List Segment) (indexing : TermIndexing) : Act Snapshot := do
  let sel := select (leaves (← get) dropped) (current ++ added)
  let next ← Act.settle (build type sel.kept indexing)
  Segment.releaseAll sel.excluded
  return next

end SecondaryIndex.Snapshot
