import SecondaryIndex.DataFile.Lifetime

namespace SecondaryIndex.Segment

/-- A segment needs a file that is still there, and takes a reference on it. -/
def create (file : Option DataFile) (reader : Option Reader) (minKey maxKey : Token)
    (minTerm maxTerm : Bytes) : Act Segment := do
  match file, reader with
  | some file, some reader =>
    if !(← file.retain) then throw (.fileGone file.text)
    let e ← get
    set { e with segments := e.segments.push { reader, refs := 1 } }
    return ⟨e.segments.size, file, minKey, maxKey, minTerm, maxTerm⟩
  | _, _ => throw .incompleteSegment

/-- A segment over postings has the bounds of their tokens and terms. -/
def ofPostings (file : Option DataFile) (p : Postings) : Act Segment := do
  match p.minToken, p.maxToken, p.minTerm, p.maxTerm with
  | some minKey, some maxKey, some minTerm, some maxTerm =>
    create file (some (.ofPostings p)) minKey maxKey minTerm maxTerm
  | _, _, _, _ => throw .emptySegment

/-- Takes a reference, unless the last one is gone. -/
def retain (s : Segment) : Act Bool := do
  if (← get).refs s = 0 then return false
  modify (·.updateSegment s fun state => { state with refs := state.refs + 1 })
  return true

def closeReader (s : Segment) : Act Unit := do
  match (← get).segment? s with
  | none => return
  | some state =>
    let (reader, result) := state.reader.close
    modify (·.updateSegment s fun state => { state with reader })
    Act.settle result

/-- A failure to close the reader or to release the file is not the caller's concern. -/
def release (s : Segment) : Act Unit := do
  let refs := (← get).refs s
  if refs = 0 then throw (.unreferencedSegment s.text)
  modify (·.updateSegment s fun state => { state with refs := state.refs - 1 })
  if refs = 1 then
    Act.quietly s.closeReader
    Act.quietly s.file.release

def releaseAll : List Segment → Act Unit := Act.allQuietly release

theorem retain_apply (s : Segment) (e : Engine) :
    s.retain e =
      if e.refs s = 0 then (.ok false, e)
      else (.ok true, e.updateSegment s fun state => { state with refs := state.refs + 1 }) := by
  simp only [retain, Act.bind_apply, Act.get_apply]
  split <;> rfl

/-- The engine after the last reference is gone. -/
def closed (s : Segment) (e : Engine) : Engine := (s.file.release (s.closeReader e).2).2

theorem release_apply (s : Segment) (e : Engine) :
    s.release e =
      if e.refs s = 0 then (.error (.unreferencedSegment s.text), e)
      else
        let after := e.updateSegment s fun state => { state with refs := state.refs - 1 }
        (.ok (), if e.refs s = 1 then s.closed after else after) := by
  simp only [release, Act.bind_apply, Act.get_apply]
  split
  · rfl
  · simp only [Act.bind_apply, Act.modify_apply]
    split <;> rfl

end SecondaryIndex.Segment
