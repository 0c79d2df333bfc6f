import SecondaryIndex.Condition
import SecondaryIndex.IntervalTree
import SecondaryIndex.Segment

namespace SecondaryIndex

structure TermRanges where
  type : ValueType
  /-- Whether a prefix predicate is narrowed to the terms with that prefix. -/
  narrowsStart : Bool
  /-- The least and the greatest term of all segments. -/
  bounds : Option (Bytes × Bytes)
  tree : IntervalTree Bytes Segment

namespace TermRanges

/-- The first segment sets the bounds, and later ones widen them. -/
def widen (type : ValueType) (bounds : Option (Bytes × Bytes)) (s : Segment) :
    Except Fault (Option (Bytes × Bytes)) :=
  match bounds with
  | none => .ok (some (s.minTerm, s.maxTerm))
  | some (low, high) => do
    let low ← if (← type.compare s.minTerm low).isLT then pure s.minTerm else pure low
    let high ← if (← type.compare s.maxTerm high).isGT then pure s.maxTerm else pure high
    return some (low, high)

def boundsOf (type : ValueType) : Option (Bytes × Bytes) → List Segment →
    Except Fault (Option (Bytes × Bytes))
  | bounds, [] => .ok bounds
  | bounds, s :: rest => do boundsOf type (← widen type bounds s) rest

/-- Bounds over all segments, and a tree of those among them that `indexed` keeps. -/
def buildWith (narrowsStart : Bool) (indexed : List Segment → List Segment) (type : ValueType)
    (segments : List Segment) : Except Fault TermRanges := do
  let bounds ← boundsOf type none segments
  let tree ← IntervalTree.build type.less
    ((indexed segments).map fun s => ⟨s.minTerm, s.maxTerm, s⟩)
  return ⟨type, narrowsStart, bounds, tree⟩

/-- Only columns of text narrow a prefix. -/
def build (type : ValueType) (segments : List Segment) : Except Fault TermRanges :=
  buildWith type.isTextual id type segments

def empty (type : ValueType) : TermRanges := ⟨type, type.isTextual, none, .empty type.less⟩

def count (r : TermRanges) : Nat := r.tree.count

/-- The closed interval of terms that can meet a condition, given the least and the greatest. -/
def interval (r : TermRanges) (low high : Bytes) (c : Condition) : Bytes × Bytes :=
  match c.predicate with
  | .eq v => (v, v)
  | .range lower upper => ((lower.map Bound.value).getD low, (upper.map Bound.value).getD high)
  | .startsWith start =>
    if r.narrowsStart then (start, start.successor.getD high) else (low, high)
  | .notEq _ | .contains _ => (low, high)

/-- The segments that may hold a match, one per generation. -/
def search (r : TermRanges) (c : Condition) : Except Fault (List Segment) := do
  match r.bounds with
  | none => return []
  | some (low, high) =>
    if r.tree.isEmpty then return []
    let (low, high) := r.interval low high c
    return SegmentSet.ofList (← r.tree.search low high)

end TermRanges
end SecondaryIndex
