import SecondaryIndex.Merge
import SecondaryIndex.Proofs.Ensures

namespace SecondaryIndex.Merge

def extentOf (cs : Array Cursor) (id : CursorId) : Extent := (cs.getD id .empty).extent

def admits (cs : Array Cursor) (id : CursorId) : Bool := (extentOf cs id).count ≠ 0

/-- A merge with one more input, unless that has no tokens. -/
def takeIn (cs : Array Cursor) (m : Merge) (id : CursorId) : Merge :=
  if admits cs id then m.push id (extentOf cs id) else m

theorem extentOf_congr {cs cs' : Array Cursor} {id : Nat} (h : cs'[id]? = cs[id]?) :
    extentOf cs' id = extentOf cs id := by
  rw [extentOf, extentOf, Array.getD_eq_getD_getElem?, Array.getD_eq_getD_getElem?, h]

theorem extentOf_push (cs : Array Cursor) (c : Cursor) :
    extentOf (cs.push c) cs.size = c.extent := by
  rw [extentOf, Array.getD_eq_getD_getElem?, Array.getElem?_push_size, Option.getD_some]

theorem admits_congr {cs cs' : Array Cursor} {id : Nat} (h : cs'[id]? = cs[id]?) :
    admits cs' id = admits cs id := by rw [admits, admits, extentOf_congr h]

variable {e : Engine}

theorem ensures_add {m : Merge} {input : Option CursorId} {Q : Except Fault Merge → Engine → Prop} :
    Ensures (m.add input) e Q ↔ Q (.ok (input.elim m (m.takeIn e.cursors))) e := by
  cases input with
  | none => rfl
  | some id =>
    have htake : m.takeIn e.cursors id =
        if (extentOf e.cursors id).count = 0 then m else m.push id (extentOf e.cursors id) := by
      by_cases h : (extentOf e.cursors id).count = 0 <;> simp [takeIn, admits, h]
    rw [Option.elim_some, htake]
    rfl

theorem ensures_addAll {m : Merge} {inputs : List (Option CursorId)}
    {Q : Except Fault Merge → Engine → Prop} :
    Ensures (m.addAll inputs) e Q ↔
      Q (.ok ((inputs.filterMap id).foldl (takeIn e.cursors) m)) e := by
  induction inputs generalizing m with
  | nil => rfl
  | cons input rest ih =>
    rw [addAll, ensures_bind, ensures_add]
    simp only [ih]
    cases input <;> rfl

theorem takeIn_connective (cs : Array Cursor) (m : Merge) (id : CursorId) :
    (m.takeIn cs id).connective = m.connective := by
  unfold takeIn
  split <;> rfl

theorem takeIn_inputs (cs : Array Cursor) (m : Merge) (id : CursorId) :
    (m.takeIn cs id).inputs = m.inputs ++ [id].filter (admits cs) := by
  unfold takeIn
  split
  next h => simp [h, push]
  next h => simp [h]

theorem foldl_takeIn_connective (cs : Array Cursor) (m : Merge) (ids : List CursorId) :
    (ids.foldl (takeIn cs) m).connective = m.connective := by
  induction ids generalizing m with
  | nil => rfl
  | cons id rest ih => rw [List.foldl_cons, ih, takeIn_connective]

theorem foldl_takeIn_inputs (cs : Array Cursor) (m : Merge) (ids : List CursorId) :
    (ids.foldl (takeIn cs) m).inputs = m.inputs ++ ids.filter (admits cs) := by
  induction ids generalizing m with
  | nil => simp
  | cons id rest ih =>
    rw [List.foldl_cons, ih, takeIn_inputs, List.append_assoc, ← List.filter_append,
      List.singleton_append]

end SecondaryIndex.Merge
