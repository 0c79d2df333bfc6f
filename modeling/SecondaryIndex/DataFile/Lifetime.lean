import SecondaryIndex.Act

namespace SecondaryIndex.DataFile

/-- A new file has one reference, of the one who made it. -/
def create (generation : Nat) (path : String) (minKey maxKey : Token) : Act DataFile := do
  let e ← get
  set { e with files := e.files.push { refs := 1 } }
  return ⟨e.files.size, generation, path, minKey, maxKey⟩

/-- Takes a reference, unless the last one is gone. -/
def retain (f : DataFile) : Act Bool := do
  if ((← get).file f).refs = 0 then return false
  modify (·.updateFile f fun s => { s with refs := s.refs + 1 })
  return true

def release (f : DataFile) : Act Unit := do
  if ((← get).file f).refs = 0 then throw (.unreferencedFile f.text)
  modify (·.updateFile f fun s => { s with refs := s.refs - 1 })

def markCompacted (f : DataFile) : Act Unit :=
  modify (·.updateFile f fun s => { s with compacted := true })

def releaseAll : List DataFile → Act Unit := Act.allQuietly release

/-- References all of the files or, if one of them is gone, none. -/
def retainAll : List DataFile → Act (Option (List DataFile))
  | [] => return some []
  | f :: rest => do
    if !(← f.retain) then return none
    match ← retainAll rest with
    | some held => return some (f :: held)
    | none =>
      Act.quietly f.release
      return none

theorem retain_apply (f : DataFile) (e : Engine) :
    f.retain e =
      if (e.file f).refs = 0 then (.ok false, e)
      else (.ok true, e.updateFile f fun s => { s with refs := s.refs + 1 }) := by
  simp only [retain, Act.bind_apply, Act.get_apply]
  split <;> rfl

theorem release_apply (f : DataFile) (e : Engine) :
    f.release e =
      if (e.file f).refs = 0 then (.error (.unreferencedFile f.text), e)
      else (.ok (), e.updateFile f fun s => { s with refs := s.refs - 1 }) := by
  simp only [release, Act.bind_apply, Act.get_apply]
  split <;> rfl

end SecondaryIndex.DataFile
