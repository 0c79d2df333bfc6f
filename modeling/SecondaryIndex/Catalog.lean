import SecondaryIndex.Cursor.Lifetime
import SecondaryIndex.Snapshot.Update

namespace SecondaryIndex

inductive Refusal
  | unnamedColumn
  | missingType (column : String)
  | otherType (column : String) (registered : ValueType)
  | unknownColumn (column : String)
  | indexExists (column : String)
  | nothingToDrop (column : String)
  | nowhereToEnter (column : String)
  | nowhereToAttach (column : String)
  /-- The segments do not make a snapshot. -/
  | unfitSegments (fault : Fault)
  deriving DecidableEq

namespace Refusal

def message : Refusal → String
  | unnamedColumn => "registerColumn: empty column name"
  | missingType column => s!"registerColumn: no type for column {column}"
  | otherType column registered =>
    s!"registerColumn: column {column} already registered as {registered.name}"
  | unknownColumn column => s!"createIndex: unknown column {column}"
  | indexExists column => s!"createIndex: index on {column} already exists"
  | nothingToDrop column => s!"dropIndex: no index on {column}"
  | nowhereToEnter column => s!"index: no index on {column}"
  | nowhereToAttach column => s!"attachSegments: no index on {column}"
  | unfitSegments fault => s!"attachSegments: {fault.message}"

end Refusal

abbrev Status := Except Refusal Unit

namespace Engine

def indexOn? (e : Engine) (column : String) : Option IndexId := e.published.get? column

def columnIndexOn? (e : Engine) (column : String) : Option (IndexId × ColumnIndex) := do
  let id ← e.indexOn? column
  return (id, ← e.indexes[id]?)

def column? (e : Engine) (column : String) : Option Column :=
  (e.schema.get? column).map fun type => ⟨column, some type, e.indexOn? column⟩

def indexedColumns (e : Engine) : List String := e.published.keys

def inOpenGroup (e : Engine) (id : IndexId) : Bool :=
  e.sessions.toList.any fun s => s.groups.keys.any fun g => g.any fun c => c.index = some id

/-- Whether the index is on its column still, or at least in use: a caller has a handle on it, or an
open group needs it. -/
def holds (e : Engine) (id : IndexId) : Bool :=
  e.published.values.contains id || (e.handles.contains id || e.inOpenGroup id)

end Engine

namespace Catalog

/-- Lets an index go: its segments are released, once. -/
def retire (id : IndexId) : Act Unit := do
  match (← get).indexes[id]? with
  | none => return
  | some index =>
    if index.retired then return
    modify (·.updateIndex id fun index => { index with retired := true })
    Segment.releaseAll index.snapshot.segments

def retireAll : List IndexId → Act Unit
  | [] => return
  | id :: rest => do
    retire id
    retireAll rest

/-- Retires the indexes that nothing holds any more. -/
def reclaim : Act Unit := do
  let e ← get
  retireAll ((List.range e.indexes.size).filter fun id => !e.holds id)

/-- A column may be registered again with its own type. -/
def register (column : String) (type : Option ValueType) : Act Status := do
  if column.isEmpty then return .error .unnamedColumn
  match type, (← get).schema.get? column with
  | none, _ => return .error (.missingType column)
  | some type, some registered =>
    return if registered = type then .ok () else .error (.otherType column registered)
  | some type, none =>
    modify fun e => { e with schema := e.schema.insert column type }
    return .ok ()

def createIndex (column : String) : Act Status := do
  let e ← get
  match e.schema.get? column, e.indexOn? column with
  | none, _ => return .error (.unknownColumn column)
  | some _, some _ => return .error (.indexExists column)
  | some type, none =>
    set { e with
      indexes := e.indexes.push (.create column type)
      published := e.published.insert column e.indexes.size }
    return .ok ()

def registerIndexed (column : String) (type : Option ValueType) : Act Status := do
  match ← register column type with
  | .error r => return .error r
  | .ok () => createIndex column

/-- The index leaves the catalog. Its segments are released as soon as nothing holds it: no handle
of a caller, and no open group. -/
def dropIndex (column : String) : Act Status := do
  match (← get).indexOn? column with
  | none => return .error (.nothingToDrop column)
  | some _ =>
    modify fun e => { e with published := e.published.erase column }
    reclaim
    return .ok ()

/-- Hands out a column. With it the caller has a handle on the index, if there is one. -/
def column (name : String) : Act (Option Column) := do
  let e ← get
  let column := e.column? name
  set { e with handles := (column.bind Column.index).toList ++ e.handles }
  return column

/-- One more handle, for a condition or a query that is made from what the caller has already. -/
def share (id : IndexId) : Act Unit :=
  modify fun e => if id ∈ e.handles then { e with handles := id :: e.handles } else e

/-- Gives a handle back. The last holder of a dropped index lets go of its segments with it. -/
def letGo (id : IndexId) : Act Unit := do
  modify fun e => { e with handles := e.handles.erase id }
  reclaim

def enter (token : Token) (column : String) (value : Bytes) : Act Status := do
  match (← get).columnIndexOn? column with
  | none => return .error (.nowhereToEnter column)
  | some (id, index) =>
    let memtable ← Act.settle (index.memtable.add value token)
    modify (·.updateIndex id fun index => { index with memtable })
    return .ok ()

/-- Publishes new segments for the column and drops those of the given files. The segments are the
catalog's from then on, whatever the outcome. -/
def attach (column : String) (dropped : List DataFile) (segments : List Segment) : Act Status := do
  match (← get).columnIndexOn? column with
  | none =>
    Segment.releaseAll segments
    return .error (.nowhereToAttach column)
  | some (id, index) =>
    match ← Act.attempt
        (Snapshot.update index.type index.snapshot.segments dropped segments TermRanges.build) with
    | .ok snapshot =>
      modify (·.updateIndex id fun index => { index with snapshot })
      return .ok ()
    | .error fault =>
      Segment.releaseAll segments
      return .error (.unfitSegments fault)

/-- The tokens in the memtable of an index that meet a condition, in a cursor if there are any. -/
def searchMemtable (id : IndexId) (c : Condition) : Act (Option CursorId) := do
  match (← get).indexes[id]? with
  | none => return none
  | some index =>
    let tokens ← Act.settle (index.memtable.search c)
    if tokens.isEmpty then return none
    some <$> (Cursor.ofTokens tokens none none).openAs

/-- Ends the catalog: every index that is not in use lets go. -/
def shutdown : Act Unit := do
  modify fun e => { e with published := ∅ }
  reclaim

end Catalog
end SecondaryIndex
