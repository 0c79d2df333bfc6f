import SecondaryIndex.Postings

namespace SecondaryIndex

/-- What a search brings: the tokens, and the fault that closing them will bring. -/
structure Found where
  tokens : List Token
  closeFault : Option Fault := none

inductive Store
  | memory (postings : Postings)
  /-- A store outside, known by its answers. -/
  | external (answer : Condition → Except Fault (Option Found))

structure Reader where
  store : Store
  closeFault : Option Fault := none
  closes : Nat := 0

namespace Reader

def ofPostings (p : Postings) : Reader := { store := .memory p }

/-- Postings in memory are not read again once their reader is closed. -/
def search (r : Reader) (c : Condition) : Except Fault (Option Found) :=
  match r.store with
  | .external answer => answer c
  | .memory p => do
    if r.closes > 0 then throw .searchAfterClose
    let tokens ← p.search c
    return if tokens.isEmpty then none else some { tokens }

/-- The reader is closed even if closing it fails. -/
def close (r : Reader) : Reader × Except Fault Unit :=
  ({ r with closes := r.closes + 1 },
    match r.closeFault with
    | none => .ok ()
    | some f => .error f)

end Reader
end SecondaryIndex
