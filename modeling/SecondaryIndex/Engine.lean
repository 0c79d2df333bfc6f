import Std.Data.TreeMap
import SecondaryIndex.Cursor
import SecondaryIndex.Reader
import SecondaryIndex.Snapshot

namespace SecondaryIndex

structure FileState where
  refs : Nat := 0
  compacted : Bool := false
  deriving DecidableEq

structure SegmentState where
  reader : Reader
  refs : Nat

/-- The index of one column: the entries not yet stored, and the stored segments. -/
structure ColumnIndex where
  column : String
  type : ValueType
  memtable : Postings
  snapshot : Snapshot
  /-- Set when the index has let go of its segments. -/
  retired : Bool := false

/-- The planning of one query. The files in scope stay referenced until it is finished, and the
cursors of a group stay open until the group is released. -/
structure Session where
  start : Duration
  quota : Duration
  scope : List DataFile
  groups : Std.TreeMap Group (List CursorId) Group.compare := ∅
  finished : Bool := false

/-- Data files and segments are known by their places in `files` and `segments`. -/
structure Engine where
  files : Array FileState := #[]
  /-- The files of the base table, in the order in which they joined it. -/
  live : List DataFile := []
  segments : Array SegmentState := #[]
  cursors : Array Cursor := #[]
  schema : Std.TreeMap String ValueType := ∅
  published : Std.TreeMap String IndexId := ∅
  /-- The indexes that callers keep handles on: one entry for each column or condition they have. -/
  handles : List IndexId := []
  indexes : Array ColumnIndex := #[]
  sessions : Array Session := #[]

namespace ColumnIndex

def create (column : String) (type : ValueType) : ColumnIndex :=
  { column, type, memtable := { type }, snapshot := .empty type }

end ColumnIndex

namespace Session

def ended : Session := { start := 0, quota := 0, scope := [], finished := true }

end Session

namespace Engine

def file (e : Engine) (f : DataFile) : FileState := e.files.getD f.id {}

def segment? (e : Engine) (s : Segment) : Option SegmentState := e.segments[s.id]?

def refs (e : Engine) (s : Segment) : Nat := ((e.segment? s).map SegmentState.refs).getD 0

def session (e : Engine) (id : Nat) : Session := e.sessions.getD id .ended

def updateFile (e : Engine) (f : DataFile) (change : FileState → FileState) : Engine :=
  { e with files := e.files.modify f.id change }

def updateSegment (e : Engine) (s : Segment) (change : SegmentState → SegmentState) : Engine :=
  { e with segments := e.segments.modify s.id change }

def updateIndex (e : Engine) (id : IndexId) (change : ColumnIndex → ColumnIndex) : Engine :=
  { e with indexes := e.indexes.modify id change }

def updateSession (e : Engine) (id : Nat) (change : Session → Session) : Engine :=
  { e with sessions := e.sessions.modify id change }

theorem file_updateFile (e : Engine) (f g : DataFile) (change : FileState → FileState) :
    (e.updateFile f change).file g =
      if f.id = g.id ∧ g.id < e.files.size then change (e.file g) else e.file g := by
  simp only [file, updateFile, Array.getD_eq_getD_getElem?, Array.getElem?_modify]
  by_cases h : f.id = g.id <;> by_cases hg : g.id < e.files.size <;> simp [h, hg]

theorem segment?_updateSegment (e : Engine) (s t : Segment)
    (change : SegmentState → SegmentState) :
    (e.updateSegment s change).segment? t =
      if s.id = t.id then (e.segment? t).map change else e.segment? t := by
  simp [segment?, updateSegment, Array.getElem?_modify]

end Engine
end SecondaryIndex
