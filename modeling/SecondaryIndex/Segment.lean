import SecondaryIndex.Bytes
import SecondaryIndex.DataFile

namespace SecondaryIndex

structure Segment where
  /-- The place of the segment among all segments. -/
  id : Nat
  file : DataFile
  minKey : Token
  maxKey : Token
  minTerm : Bytes
  maxTerm : Bytes
  deriving DecidableEq

namespace Segment

def generation (s : Segment) : Nat := s.file.generation

def text (s : Segment) : String := s!"segment({s.file.text}, keys=[{s.minKey}, {s.maxKey}])"

end Segment

namespace SegmentSet

/-- Adds a segment at its place, unless its generation is there. -/
def insert (s : Segment) : List Segment → List Segment
  | [] => [s]
  | t :: rest =>
    if s.generation < t.generation then s :: t :: rest
    else if s.generation = t.generation then t :: rest
    else t :: insert s rest

def ofList (segments : List Segment) : List Segment :=
  segments.foldl (fun set s => insert s set) []

def hasGeneration (generation : Nat) (segments : List Segment) : Bool :=
  segments.any (·.generation = generation)

theorem mem_insert {a s : Segment} {set : List Segment} (h : a ∈ insert s set) :
    a = s ∨ a ∈ set := by
  induction set with
  | nil => simpa [insert] using h
  | cons t rest ih => grind [insert]

theorem pairwise_insert {s : Segment} {set : List Segment}
    (h : set.Pairwise (·.generation < ·.generation)) :
    (insert s set).Pairwise (·.generation < ·.generation) := by
  induction set with
  | nil => simp [insert]
  | cons t rest ih => grind [insert, mem_insert, List.pairwise_cons]

end SegmentSet
end SecondaryIndex
