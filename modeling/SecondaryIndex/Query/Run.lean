import SecondaryIndex.Options
import SecondaryIndex.Query

namespace SecondaryIndex.Query

structure Request where
  query : Query
  range : Option KeyRange
  options : Options := {}
  /-- Whether a row passes what the indexes cannot decide. -/
  passes : Token → Except Fault Bool := fun _ => .ok true
  /-- Takes the rows handed out so far, the newest last, and tells whether to go on. -/
  consume : List Token → Except Fault Bool := fun _ => .ok true
  /-- The readings of the clock. -/
  clock : Nat → Duration

structure Progress where
  engine : Engine
  rows : List Token := []
  scanned : Nat := 0
  readings : Nat := 0

/-- A step of a run that may fail; the rows handed out before it failed stay so. -/
abbrev Step := ExceptT Fault (StateM Progress)

/-- What became of a run: the rows that were handed out, and the fault that ended it if any. -/
structure Outcome where
  rows : List Token
  fault : Option Fault
  deriving DecidableEq

namespace Request

def act {α : Type} (step : Act α) : Step α := fun p =>
  let (r, engine) := step p.engine
  (r, { p with engine })

def interval (r : Request) : Nat :=
  if r.options.checkpointInterval = 0 then 1 else r.options.checkpointInterval.toNat

def readClock (r : Request) : Step Duration := do
  let p ← get
  set { p with readings := p.readings + 1 }
  return r.clock p.readings

def checkpoint (r : Request) (session : SessionId) : Step Unit := do
  let now ← r.readClock
  act (Session.checkpoint session now)

/-- Counts a row as scanned and reads the clock at the end of an interval. -/
def scan (r : Request) (session : SessionId) : Step Unit := do
  modify fun p => { p with scanned := p.scanned + 1 }
  if (← get).scanned % r.interval = 0 then r.checkpoint session

def wantsMore (r : Request) (count : Nat) : Bool :=
  r.options.resultLimit = 0 || count < r.options.resultLimit.toNat

def emit (r : Request) (t : Token) : Step Bool := do
  modify fun p => { p with rows := p.rows ++ [t] }
  let rows := (← get).rows
  match r.consume rows with
  | .error f => throw f
  | .ok false => return false
  | .ok true => return r.wantsMore rows.length

def offer (r : Request) (session : SessionId) (range : KeyRange) (t : Token) : Step Bool := do
  if range.right < t then return false
  r.scan session
  if t < range.left then return true
  match r.passes t with
  | .error f => throw f
  | .ok false => return true
  | .ok true => r.emit t

/-- Takes rows from the cursor while they are wanted. Each takes up a pending token, so as many
turns as there are pending tokens, and one more to see the end, suffice. -/
def drain (r : Request) (session : SessionId) (range : KeyRange) (cursor : CursorId) :
    Nat → Step Unit
  | 0 => return
  | fuel + 1 => do
    if !(← act (Act.pull (Cursor.hasNext cursor))) then return
    let t ← act (Act.pull (Cursor.next cursor))
    if ← r.offer session range t then r.drain session range cursor fuel

/-- An absent or empty range has no rows. -/
def deliver (r : Request) (session : SessionId) (cursor : Option CursorId) : Step Unit := do
  match cursor, r.range with
  | some cursor, some range =>
    if range.isEmpty then return
    act (Act.pull (Cursor.skipTo cursor range.left))
    r.drain session range cursor (Pull.pending (← get).engine.cursors + 1)
  | _, _ => return

def inSession (r : Request) (session : SessionId) : Step Unit := do
  let cursor ← act (r.query.build session)
  r.checkpoint session
  r.deliver session cursor

/-- Finishes the session after some work, also if the work fails. -/
def thenFinish (session : SessionId) (work : Step Unit) : Step Unit := fun p =>
  let (result, p) := work p
  let (_, engine) := Session.finish session p.engine
  (result, { p with engine })

def inOwnSession (r : Request) : Step Unit := do
  if r.query.isAbsent then throw .missingRoot
  let now ← r.readClock
  let session ← act (Session.openAt now r.range r.options.timeQuota)
  thenFinish session (r.inSession session)

def run (r : Request) (e : Engine) : Outcome × Engine :=
  let (result, p) := r.inOwnSession { engine := e }
  let fault := match result with
    | .ok () => none
    | .error f => some f
  (⟨p.rows, fault⟩, p.engine)

end Request
end SecondaryIndex.Query
