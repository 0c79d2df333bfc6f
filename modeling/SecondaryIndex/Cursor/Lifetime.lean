import SecondaryIndex.Segment.Lifetime

namespace SecondaryIndex.Cursor

/-- A cursor is known by its place, behind all that were opened before it. -/
def openAs (c : Cursor) : Act CursorId := do
  let e ← get
  set { e with cursors := e.cursors.push c }
  return e.cursors.size

def state (id : CursorId) : Act Cursor := Act.pull (Pull.node id)

def countClose (id : CursorId) : Act Unit :=
  Act.pull (Pull.update id fun c => { c with closes := c.closes + 1 })

/-- Closes a cursor that merges others at most `depth` levels deep. -/
def closeWithin : Nat → CursorId → Act Unit
  | 0, _ => return
  | depth + 1, id => do
    let c ← state id
    countClose id
    match c.source with
    | .tokens _ none _ => return
    | .tokens _ (some f) _ => throw f
    | .union children | .intersection children =>
      if c.closes = 0 then Act.all (closeWithin depth) children
    | .matches merged segments =>
      if c.closes = 0 then
        let result ← Act.attempt (closeWithin depth merged)
        Segment.releaseAll segments
        Act.settle result

def close (id : CursorId) : Act Unit := closeWithin (id + 1) id

def closeAll : List CursorId → Act Unit := Act.all close

def closeQuietly : List CursorId → Act Unit := Act.allQuietly close

end SecondaryIndex.Cursor
