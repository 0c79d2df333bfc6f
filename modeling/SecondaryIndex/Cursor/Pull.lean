import SecondaryIndex.Cursor

namespace SecondaryIndex.Pull

/-- A step over the array of cursors. What it changed stays changed if it fails. -/
abbrev Step := ExceptT Fault (StateM (Array Cursor))

def node (id : CursorId) : Step Cursor := return (← get).getD id .empty

def update (id : CursorId) (f : Cursor → Cursor) : Step Unit := modify fun cs => cs.modify id f

/-- How to advance a cursor past its token ahead. -/
structure Advance where
  compute : CursorId → Step (Option Token)
  seek : CursorId → Token → Step Unit

def look (a : Advance) (id : CursorId) : Step (Option Token) := do
  let c ← node id
  if c.ahead.isSome || c.exhausted then return c.ahead
  let t ← a.compute id
  update id fun c => { c with ahead := t, exhausted := t.isNone }
  return t

def peek (a : Advance) (id : CursorId) : Step Token := do
  match ← look a id with
  | some t => return t
  | none => throw .exhausted

def next (a : Advance) (id : CursorId) : Step Token := do
  let t ← peek a id
  update id fun c => { c with ahead := none }
  return t

/-- Drops the tokens below `target`. Beyond the upper end of the cursor nothing is left. -/
def skipTo (a : Advance) (id : CursorId) (target : Token) : Step Unit := do
  let c ← node id
  if c.exhausted then return
  if c.extent.high < target then
    update id fun c => { c with ahead := none, exhausted := true }
  else if c.ahead.any (target ≤ ·) then return
  else
    update id fun c => { c with ahead := none }
    a.seek id target

def skipAll (a : Advance) (target : Token) : List CursorId → Step Unit
  | [] => return
  | id :: rest => do
    skipTo a id target
    skipAll a target rest

/-- The least token ahead of any cursor. -/
def least (a : Advance) : Option Token → List CursorId → Step (Option Token)
  | best, [] => return best
  | best, id :: rest => do
    match best, ← look a id with
    | some t, some u => least a (some (if u < t then u else t)) rest
    | none, head => least a head rest
    | best, none => least a best rest

def takeFrom (a : Advance) (t : Token) : List CursorId → Step Unit
  | [] => return
  | id :: rest => do
    if (← look a id) = some t then discard (next a id)
    takeFrom a t rest

def computeUnion (a : Advance) (children : List CursorId) : Step (Option Token) := do
  match ← least a none children with
  | none => return none
  | some t =>
    takeFrom a t children
    return some t

/-- The greatest of `t` and the tokens ahead; none if a cursor has no token left. -/
def greatest (a : Advance) (t : Token) : List CursorId → Step (Option Token)
  | [] => return some t
  | id :: rest => do
    match ← look a id with
    | none => return none
    | some u => greatest a (if t < u then u else t) rest

/-- Moves one cursor after the other to `t`. The first token beyond `t` ends the round. -/
def align (a : Advance) (t : Token) : List CursorId → Step (Option Token)
  | [] => return some t
  | id :: rest => do
    skipTo a id t
    match ← look a id with
    | none => return none
    | some u => if t < u then return some u else align a t rest

/-- Repeats the round until all cursors agree. Each further round passes a token that is pending
somewhere, so as many rounds as there are pending tokens, and one more, suffice. -/
def agree (a : Advance) (children : List CursorId) : Nat → Token → Step (Option Token)
  | 0, _ => throw .endless
  | fuel + 1, t => do
    match ← align a t children with
    | none => return none
    | some u => if u = t then return some t else agree a children fuel u

def takeAll (a : Advance) : List CursorId → Step Unit
  | [] => return
  | id :: rest => do
    discard (next a id)
    takeAll a rest

def pending (cs : Array Cursor) : Nat := cs.toList.foldr (·.pending + ·) 0

def computeIntersection (a : Advance) (low : Token) (children : List CursorId) :
    Step (Option Token) := do
  if children.isEmpty then return none
  match ← greatest a low children with
  | none => return none
  | some t =>
    match ← agree a children (pending (← get) + 1) t with
    | none => return none
    | some t =>
      takeAll a children
      return some t

/-- The first token of the source, taken out of it. Closed matches give nothing more. -/
def compute (a : Advance) (id : CursorId) : Step (Option Token) := do
  let c ← node id
  match c.source with
  | .tokens [] _ _ => return none
  | .tokens (t :: rest) closeFault origin =>
    update id fun c => { c with source := .tokens rest closeFault origin }
    return some t
  | .union children => computeUnion a children
  | .intersection children => computeIntersection a c.extent.low children
  | .matches merged _ =>
    if c.closes > 0 then return none
    match ← look a merged with
    | none => return none
    | some _ => some <$> next a merged

def seek (a : Advance) (id : CursorId) (target : Token) : Step Unit := do
  let c ← node id
  match c.source with
  | .tokens rest closeFault origin =>
    update id fun c => { c with source := .tokens (rest.dropWhile (· < target)) closeFault origin }
  | .union children | .intersection children => skipAll a target children
  | .matches merged _ => if c.closes = 0 then skipTo a merged target

/-- Ways to advance cursors that merge others at most `depth` levels deep. -/
def advance : Nat → Advance
  | 0 => ⟨fun _ => return none, fun _ _ => return⟩
  | depth + 1 =>
    let below := advance depth
    ⟨compute below, seek below⟩

end Pull

namespace Cursor

-- A cursor merges only cursors opened before it, so its number bounds the depth.
def hasNext (id : CursorId) : Pull.Step Bool :=
  return (← Pull.look (Pull.advance (id + 1)) id).isSome

def peek (id : CursorId) : Pull.Step Token := Pull.peek (Pull.advance (id + 1)) id

def next (id : CursorId) : Pull.Step Token := Pull.next (Pull.advance (id + 1)) id

def skipTo (id : CursorId) (target : Token) : Pull.Step Unit :=
  Pull.skipTo (Pull.advance (id + 1)) id target

end Cursor
end SecondaryIndex
