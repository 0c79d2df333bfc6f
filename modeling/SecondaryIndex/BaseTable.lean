import SecondaryIndex.DataFile.Lifetime

namespace SecondaryIndex.BaseTable

/-- The live list after a compaction: what stays in its order, then what is new. -/
def replaced (live removed added : List DataFile) : List DataFile :=
  added.foldl (fun next f => if f ∈ next then next else next ++ [f])
    (live.filter (· ∉ removed))

/-- A file that left the table is marked, and the reference of the table is dropped. -/
def retire : List DataFile → Act Unit
  | [] => return
  | f :: rest => do
    f.markCompacted
    f.release
    retire rest

/-- Replaces live files by others. The new list is in force before the old files are released. -/
def replace (removed added : List DataFile) : Act Unit := do
  let live := (← get).live
  modify fun e => { e with live := replaced live removed added }
  retire (removed.filter (· ∈ live))

def add (f : DataFile) : Act Unit := replace [] [f]

/-- References the live files that share a token with the range, none without a range. -/
def pin (range : Option KeyRange) : Act (List DataFile) := do
  match range with
  | none => return []
  | some r => return (← DataFile.retainAll ((← get).live.filter (·.meets r))).getD []

def shutdown : Act Unit := do DataFile.releaseAll (← get).live

end SecondaryIndex.BaseTable
