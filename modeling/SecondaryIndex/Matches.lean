import SecondaryIndex.Merge
import SecondaryIndex.Segment.Search

namespace SecondaryIndex.Matches

/-- Searches one segment. What it finds comes with a reference on the segment; if it finds nothing,
or fails, no reference is left. -/
def probe (c : Condition) (s : Segment) : Act (Option CursorId) := do
  if !(← s.retain) then return none
  match ← Act.orUndo (s.search c) s.release with
  | none =>
    s.release
    return none
  | some id =>
    if (← Cursor.state id).extent.count = 0 then
      Act.orUndo (Cursor.close id) s.release
      s.release
      return none
    else return some id

def gather (c : Condition) : List Segment → Act (List (CursorId × Segment))
  | [] => return []
  | s :: rest => do
    match ← probe c s with
    | none => gather c rest
    | some id =>
      let more ← Act.orUndo (gather c rest) do
        Act.quietly (Cursor.close id)
        s.release
      return (id, s) :: more

/-- The memtable's matches come last. None if nothing matches. -/
def openAs (c : Condition) (memtable : Option CursorId) (segments : List Segment) :
    Act (Option CursorId) := do
  let found ← gather c segments
  match ← Merge.union (found.map (fun p => some p.1) ++ [memtable]) with
  | none => return none
  | some merged =>
    let extent := (← Cursor.state merged).extent
    some <$> Cursor.openAs { extent, source := .matches merged (found.map Prod.snd) }

/-- The segments that a cursor keeps referenced while it is open. -/
def referenced (id : CursorId) : Act (List Segment) := do
  match (← Cursor.state id).source with
  | .matches _ segments => return segments
  | _ => return []

end SecondaryIndex.Matches
