import SecondaryIndex.TermRanges

namespace SecondaryIndex

structure Snapshot where
  type : ValueType
  segments : List Segment
  terms : TermRanges
  keys : IntervalTree Token Segment

namespace Snapshot

/-- How the term ranges of a snapshot are made. -/
abbrev TermIndexing := ValueType → List Segment → Except Fault TermRanges

def keyLess (a b : Token) : Except Fault Bool := .ok (a < b)

def keyRanges (segments : List Segment) : Except Fault (IntervalTree Token Segment) :=
  IntervalTree.build keyLess (segments.map fun s => ⟨s.minKey, s.maxKey, s⟩)

/-- Term ranges and key ranges have to count the same segments. -/
def build (type : ValueType) (segments : List Segment) (indexing : TermIndexing) :
    Except Fault Snapshot := do
  let terms ← indexing type segments
  let keys ← keyRanges segments
  if keys.count ≠ terms.count then throw (.inconsistentView keys.count terms.count)
  return ⟨type, segments, terms, keys⟩

def empty (type : ValueType) : Snapshot := ⟨type, [], .empty type, .empty keyLess⟩

theorem build_nil (type : ValueType) : build type [] TermRanges.build = .ok (empty type) := rfl

/-- The segments of data files in scope that may hold a match, by generation. -/
def candidates (v : Snapshot) (scope : List DataFile) (c : Condition) :
    Except Fault (List Segment) := do
  return (← v.terms.search c).filter (·.file ∈ scope)

def overlapping (v : Snapshot) (low high : Token) : List Segment :=
  (v.keys.search low high).toOption.getD []

end Snapshot
end SecondaryIndex
