import SecondaryIndex.Fault

namespace SecondaryIndex

structure Interval (α β : Type) where
  low : α
  high : α
  data : β

inductive IntervalTree.Node (α β : Type)
  | leaf
  | node (low centre high : α) (byLow byHigh : List (Interval α β)) (left right : Node α β)

structure IntervalTree (α β : Type) where
  less : α → α → Except Fault Bool
  count : Nat
  root : IntervalTree.Node α β

namespace IntervalTree

variable {α β : Type}

def insertBy {γ : Type} (before : γ → γ → Bool) (a : γ) : List γ → List γ
  | [] => [a]
  | b :: rest => if before b a then b :: insertBy before a rest else a :: b :: rest

/-- Sorts by a strict order and keeps equal elements in their places. -/
def sortBy {γ : Type} (before : γ → γ → Bool) (l : List γ) : List γ :=
  l.foldr (insertBy before) []

theorem insertBy_perm {γ : Type} (before : γ → γ → Bool) (a : γ) (l : List γ) :
    (insertBy before a l).Perm (a :: l) := by
  induction l with
  | nil => rfl
  | cons b rest ih =>
    rw [insertBy]
    split
    · exact (ih.cons b).trans (.swap a b rest)
    · rfl

theorem sortBy_perm {γ : Type} (before : γ → γ → Bool) (l : List γ) :
    (sortBy before l).Perm l := by
  induction l with
  | nil => rfl
  | cons a rest ih => exact (insertBy_perm before a _).trans (ih.cons a)

/-- The test where it succeeds. The ends of a built tree have all been compared once. -/
def holds (less : α → α → Except Fault Bool) (a b : α) : Bool :=
  match less a b with
  | .ok r => r
  | .error _ => false

/-- No interval may end before it begins. -/
def check (less : α → α → Except Fault Bool) : List (Interval α β) → Except Fault Unit
  | [] => .ok ()
  | i :: rest => do
    if ← less i.high i.low then throw .invertedInterval
    check less rest

def ends (intervals : List (Interval α β)) : List α := intervals.flatMap fun i => [i.low, i.high]

/-- Splits at the middle end. As the interval with that end stays at the node, as many levels as
there are intervals suffice. -/
def grow (lt : α → α → Bool) : Nat → List (Interval α β) → Node α β
  | 0, _ => .leaf
  | fuel + 1, intervals =>
    let points := sortBy lt (ends intervals)
    match points.head?, points[points.length / 2]?, points.getLast? with
    | some low, some centre, some high =>
      let left := intervals.filter fun i => lt i.high centre
      let right := intervals.filter fun i => !lt i.high centre && lt centre i.low
      let here := intervals.filter fun i => !lt i.high centre && !lt centre i.low
      .node low centre high (sortBy (fun a b => lt a.low b.low) here)
        (sortBy (fun a b => lt b.high a.high) here) (grow lt fuel left) (grow lt fuel right)
    | _, _, _ => .leaf

def build (less : α → α → Except Fault Bool) (intervals : List (Interval α β)) :
    Except Fault (IntervalTree α β) := do
  check less intervals
  return ⟨less, intervals.length, grow (holds less) intervals.length intervals⟩

def empty (less : α → α → Except Fault Bool) : IntervalTree α β := ⟨less, 0, .leaf⟩

def isEmpty (t : IntervalTree α β) : Bool := t.count = 0

/-- Intervals at a node that overlap the asked one: if that ends before the centre, those that begin
in time; if it begins after the centre, those that last; otherwise all. -/
def overlapping (lt : α → α → Bool) (low high centre : α) (byLow byHigh : List (Interval α β)) :
    List (Interval α β) :=
  if lt high centre then byLow.takeWhile fun i => !lt high i.low
  else if lt centre low then byHigh.takeWhile fun i => !lt i.high low
  else byLow

def Node.search (lt : α → α → Bool) (low high : α) : Node α β → List β
  | .leaf => []
  | .node least centre greatest byLow byHigh left right =>
    if lt high least || lt greatest low then []
    else
      (overlapping lt low high centre byLow byHigh).map Interval.data ++
        (if lt low centre then left.search lt low high else []) ++
        (if lt centre high then right.search lt low high else [])

/-- What the intervals carry that overlap the one from `low` to `high`. -/
def search (t : IntervalTree α β) (low high : α) : Except Fault (List β) := do
  if ← t.less high low then return []
  return t.root.search (holds t.less) low high

end IntervalTree
end SecondaryIndex
