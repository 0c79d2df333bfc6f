import SecondaryIndex.Fault
import SecondaryIndex.Segment

namespace SecondaryIndex

abbrev CursorId := Nat

/-- What is known of a cursor before it is read: no token is below `low` or above `high`, and there
are at most `count` of them. -/
structure Extent where
  low : Token := 0
  high : Token := 0
  count : UInt64 := 0
  deriving DecidableEq

namespace Extent

def ofTokens (ts : List Token) : Extent := ⟨ts.headD 0, ts.getLastD 0, UInt64.ofNat ts.length⟩

/-- Covers both. The count wraps around at 2^64. -/
def join (a b : Extent) : Extent :=
  ⟨if b.low < a.low then b.low else a.low, if a.high < b.high then b.high else a.high,
    a.count + b.count⟩

/-- Covers what is common to both. -/
def meet (a b : Extent) : Extent :=
  ⟨if a.low < b.low then b.low else a.low, if b.high < a.high then b.high else a.high,
    if b.count < a.count then b.count else a.count⟩

end Extent

/-- Where a cursor takes its tokens from. -/
inductive Source
  /-- The tokens not yet taken, the fault that closing brings, and the segment that was searched. -/
  | tokens (rest : List Token) (closeFault : Option Fault) (origin : Option Nat)
  | union (children : List CursorId)
  | intersection (children : List CursorId)
  /-- The matches of one condition, with the segments that stay referenced until it is closed. -/
  | matches (merged : CursorId) (segments : List Segment)

structure Cursor where
  extent : Extent
  source : Source
  /-- A token that was taken from the source and not yet handed out. -/
  ahead : Option Token := none
  exhausted : Bool := false
  /-- How often the cursor has been closed. -/
  closes : Nat := 0

namespace Cursor

def ofTokens (ts : List Token) (closeFault : Option Fault) (origin : Option Nat) : Cursor :=
  { extent := .ofTokens ts, source := .tokens ts closeFault origin }

def empty : Cursor := ofTokens [] none none

/-- How many tokens the cursor holds itself, apart from those of the cursors that it merges. -/
def pending (c : Cursor) : Nat :=
  c.ahead.toList.length +
    match c.source with
    | .tokens rest _ _ => rest.length
    | _ => 0

end Cursor
end SecondaryIndex
