import SecondaryIndex.Cursor.Reclaim
import SecondaryIndex.Proofs.Opening
import SecondaryIndex.Query.Run

namespace SecondaryIndex

inductive Operation
  | createFile (generation : Nat) (path : String) (minKey maxKey : Token)
  | retainFile (f : DataFile)
  | releaseFile (f : DataFile)
  | markCompacted (f : DataFile)
  | replaceFiles (removed added : List DataFile)
  | pinFiles (range : Option KeyRange)
  | releaseFiles (fs : List DataFile)
  | shutdownTable
  | createSegment (file : Option DataFile) (reader : Option Reader) (minKey maxKey : Token)
      (minTerm maxTerm : Bytes)
  | retainSegment (s : Segment)
  | releaseSegment (s : Segment)
  | searchSegment (s : Segment) (c : Condition)
  | register (column : String) (type : Option ValueType)
  | createIndex (column : String)
  | dropIndex (column : String)
  | takeColumn (name : String)
  | shareIndex (id : IndexId)
  | letIndexGo (id : IndexId)
  | enter (token : Token) (column : String) (value : Bytes)
  | attach (column : String) (dropped : List DataFile) (segments : List Segment)
  | searchMemtable (id : IndexId) (c : Condition)
  | shutdownCatalog
  | openTokens (tokens : List Token) (closeFault : Option Fault)
  | openMatches (c : Condition) (memtable : Option CursorId) (segments : List Segment)
  | buildMerge (m : Merge)
  | hasNext (id : CursorId)
  | next (id : CursorId)
  | skipTo (id : CursorId) (target : Token)
  | closeCursor (id : CursorId)
  | reclaimCursors (held : List CursorId)
  | openSession (now : Duration) (range : Option KeyRange) (quota : Int64)
  | plan (id : SessionId) (connective : Connective) (group : Group)
  | releaseGroup (id : SessionId) (group : Group)
  | finish (id : SessionId)
  | build (id : SessionId) (q : Query)
  | releaseQuery (id : SessionId) (q : Query)
  | run (r : Query.Request)

namespace Operation

/-- What an operation makes of an engine. -/
def effect : Operation → Engine → Engine
  | createFile generation path minKey maxKey, e =>
    (DataFile.create generation path minKey maxKey e).2
  | retainFile f, e => (f.retain e).2
  | releaseFile f, e => (f.release e).2
  | markCompacted f, e => (f.markCompacted e).2
  | replaceFiles removed added, e => (BaseTable.replace removed added e).2
  | pinFiles range, e => (BaseTable.pin range e).2
  | releaseFiles fs, e => (DataFile.releaseAll fs e).2
  | shutdownTable, e => (BaseTable.shutdown e).2
  | createSegment file reader minKey maxKey minTerm maxTerm, e =>
    (Segment.create file reader minKey maxKey minTerm maxTerm e).2
  | retainSegment s, e => (s.retain e).2
  | releaseSegment s, e => (s.release e).2
  | searchSegment s c, e => (s.search c e).2
  | register column type, e => (Catalog.register column type e).2
  | createIndex column, e => (Catalog.createIndex column e).2
  | dropIndex column, e => (Catalog.dropIndex column e).2
  | takeColumn name, e => (Catalog.column name e).2
  | shareIndex id, e => (Catalog.share id e).2
  | letIndexGo id, e => (Catalog.letGo id e).2
  | enter token column value, e => (Catalog.enter token column value e).2
  | attach column dropped segments, e => (Catalog.attach column dropped segments e).2
  | searchMemtable id c, e => (Catalog.searchMemtable id c e).2
  | shutdownCatalog, e => (Catalog.shutdown e).2
  | openTokens tokens closeFault, e => ((Cursor.ofTokens tokens closeFault none).openAs e).2
  | openMatches c memtable segments, e => (Matches.openAs c memtable segments e).2
  | buildMerge m, e => (m.build e).2
  | hasNext id, e => (Act.pull (Cursor.hasNext id) e).2
  | next id, e => (Act.pull (Cursor.next id) e).2
  | skipTo id target, e => (Act.pull (Cursor.skipTo id target) e).2
  | closeCursor id, e => (Cursor.close id e).2
  | reclaimCursors held, e => (Cursor.reclaim held e).2
  | openSession now range quota, e => (Session.openAt now range quota e).2
  | plan id connective group, e => (Session.plan id connective group e).2
  | releaseGroup id group, e => (Session.release id group e).2
  | finish id, e => (Session.finish id e).2
  | build id q, e => (q.build id e).2
  | releaseQuery id q, e => (q.release id e).2
  | run r, e => (r.run e).2

/-- The indexes that are named for an operation, by themselves or in a condition. -/
def uses : Operation → List IndexId
  | searchSegment _ c | openMatches c _ _ => c.index.toList
  | searchMemtable id c => id :: c.index.toList
  | shareIndex id | letIndexGo id => [id]
  | plan _ _ group | releaseGroup _ group => group.indexes
  | build _ q | releaseQuery _ q => q.groups.flatMap Group.indexes
  | run r => r.query.groups.flatMap Group.indexes
  | _ => []

/-- Whether an operation may change more than files, segments and cursors. -/
def structural : Operation → Bool
  | replaceFiles .. | register .. | createIndex .. | dropIndex .. | takeColumn .. | shareIndex ..
  | letIndexGo .. | enter .. | attach .. | shutdownCatalog | openSession .. | plan ..
  | releaseGroup .. | finish .. | build .. | releaseQuery .. | run .. => true
  | _ => false

theorem frame_effect {op : Operation} (h : op.structural = false) (e : Engine) :
    Frame e (op.effect e) := by
  cases op with
  | createFile generation path minKey maxKey =>
    exact (DataFile.framed_create generation path minKey maxKey).frame e
  | retainFile f => exact (DataFile.framed_retain f).frame e
  | releaseFile f => exact (DataFile.framed_release f).frame e
  | markCompacted f => exact (DataFile.framed_markCompacted f).frame e
  | pinFiles range => exact (BaseTable.framed_pin range).frame e
  | releaseFiles fs => exact (DataFile.framed_releaseAll fs).frame e
  | shutdownTable => exact BaseTable.framed_shutdown.frame e
  | createSegment file reader minKey maxKey minTerm maxTerm =>
    exact (Segment.framed_create file reader minKey maxKey minTerm maxTerm).frame e
  | retainSegment s => exact (Segment.framed_retain s).frame e
  | releaseSegment s => exact (Segment.framed_release s).frame e
  | searchSegment s c => exact (Segment.framed_search s c).frame e
  | searchMemtable id c => exact (Catalog.framed_searchMemtable id c).frame e
  | openTokens tokens closeFault => exact (Cursor.framed_openAs _).frame e
  | openMatches c memtable segments => exact (Matches.framed_openAs c memtable segments).frame e
  | buildMerge m => exact (Merge.framed_build m).frame e
  | hasNext id => exact (Framed.pull _).frame e
  | next id => exact (Framed.pull _).frame e
  | skipTo id target => exact (Framed.pull _).frame e
  | closeCursor id => exact (Cursor.framed_close id).frame e
  | reclaimCursors held => exact (Cursor.framed_closeQuietly _).frame e
  | _ => cases h

/-- What depends on live files, catalog and sessions only is kept by all operations if it is kept by
those that may change them. -/
theorem keeps {I : Engine → Prop} (frame : ∀ {e e'}, I e → Frame e e' → I e')
    (step : ∀ (op : Operation) e, op.structural = true → I e → I (op.effect e)) (op : Operation)
    (e : Engine) (he : I e) : I (op.effect e) := by
  cases h : op.structural with
  | false => exact frame he (frame_effect h e)
  | true => exact step op e h he

/-- What several operations make of an engine, one after the other. -/
def effects (ops : List Operation) (e : Engine) : Engine := ops.foldl (fun e op => op.effect e) e

end Operation

/-- The engines that operations lead to, from an engine that holds nothing. -/
inductive Reachable : Engine → Prop
  | start : Reachable {}
  | step {e : Engine} (op : Operation) (h : Reachable e) : Reachable (op.effect e)

theorem Reachable.steps {e : Engine} (h : Reachable e) (ops : List Operation) :
    Reachable (Operation.effects ops e) := by
  induction ops generalizing e with
  | nil => exact h
  | cons op rest ih => exact ih (.step op h)

/-- What holds at the start, and is kept by every operation, holds of every reachable engine. -/
theorem Reachable.invariant {I : Engine → Prop} (start : I {})
    (step : ∀ op e, I e → I (Operation.effect op e)) {e : Engine} (h : Reachable e) : I e := by
  induction h with
  | start => exact start
  | step op _ ih => exact step op _ ih

end SecondaryIndex
