import SecondaryIndex.KeyRange

namespace SecondaryIndex

structure DataFile where
  /-- The place of the file among all files. -/
  id : Nat
  generation : Nat
  path : String
  minKey : Token
  maxKey : Token
  deriving DecidableEq

namespace DataFile

def text (f : DataFile) : String := s!"{f.path}#{f.generation}"

def meets (f : DataFile) (r : KeyRange) : Bool := r.meets f.minKey f.maxKey

end DataFile
end SecondaryIndex
