import SecondaryIndex.Duration

namespace SecondaryIndex

inductive Fault
  /-- A bigint value that is not eight bytes long. -/
  | badWidth (size : Nat)
  | untypedColumn (column : String)
  /-- A prefix predicate on a column that holds no text. -/
  | startNeedsText (column : String)
  /-- A substring predicate on a column that holds no text. -/
  | partNeedsText (column : String)
  | invertedInterval
  /-- A token was asked of a cursor that has none left. -/
  | exhausted
  /-- A search that has used up all its turns, in place of one that never ends. -/
  | endless
  /-- One release more than there were references on a data file. -/
  | unreferencedFile (file : String)
  /-- One release more than there were references on a segment. -/
  | unreferencedSegment (segment : String)
  | searchAfterRelease (segment : String)
  | searchAfterClose
  | incompleteSegment
  | fileGone (file : String)
  | emptySegment
  /-- The key ranges and the term ranges of a snapshot count different segments. -/
  | inconsistentView (keys terms : Nat)
  | sessionFinished
  | groupOpen
  | outOfTime (elapsed quota : Duration)
  | missingRoot
  /-- A failure below the index, in the words of the device that failed. -/
  | device (text : String)
  deriving DecidableEq

namespace Fault

/-- A text up to its first NUL character, all of it if there is none. -/
def untilNul (s : String) : String := String.ofList (s.toList.takeWhile (· ≠ '\x00'))

def wording : Fault → String
  | badWidth size => s!"bigint value must be 8 bytes, got {size}"
  | untypedColumn column => s!"column '{column}' has no type"
  | startNeedsText column => s!"prefix predicate requires a textual column: {column}"
  | partNeedsText column => s!"contains predicate requires a textual column: {column}"
  | invertedInterval => "interval with max < min"
  | exhausted => "range iterator exhausted"
  | endless => "search without end"
  | unreferencedFile file => s!"release of unreferenced data file {file}"
  | unreferencedSegment segment => s!"release of unreferenced segment {segment}"
  | searchAfterRelease segment => s!"search on released segment {segment}"
  | searchAfterClose => "search on closed segment reader"
  | incompleteSegment => "segment requires a data file and a reader"
  | fileGone file => s!"data file {file} is already released"
  | emptySegment => "cannot open a segment without terms"
  | inconsistentView keys terms =>
    s!"mismatched sizes for intervals tree for keys vs terms: {keys} != {terms}"
  | sessionFinished => "query session already finished"
  | groupOpen => "Can't process the same expressions multiple times."
  | outOfTime elapsed quota =>
    s!"query exceeded its time quota ({elapsed.milliseconds} ms >= {quota.milliseconds} ms)"
  | missingRoot => "query plan requires a root operation"
  | device text => text

/-- The report of a fault. A NUL in a column's name or in a file's path cuts it short. -/
def message (f : Fault) : String := untilNul f.wording

end Fault
end SecondaryIndex
