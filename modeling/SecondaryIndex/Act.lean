import SecondaryIndex.Cursor.Pull
import SecondaryIndex.Engine

namespace SecondaryIndex

abbrev Act := ExceptT Fault (StateM Engine)

namespace Act

variable {α : Type}

def settle : Except Fault α → Act α
  | .ok a => return a
  | .error f => throw f

/-- Hands a fault over as a value. -/
def attempt (act : Act α) : Act (Except Fault α) := fun e =>
  let (r, e) := act e
  (.ok r, e)

/-- Drops a fault. -/
def quietly (act : Act Unit) : Act Unit := fun e => (.ok (), (act e).2)

/-- After a fault, undoes what was done before and fails all the same. -/
def orUndo (act : Act α) (undo : Act Unit) : Act α := do
  match ← attempt act with
  | .ok a => return a
  | .error f =>
    quietly undo
    throw f

/-- Does each step, whatever becomes of the others; the first fault is reported at the end. -/
def all (step : α → Act Unit) : List α → Act Unit
  | [] => return
  | a :: rest => do
    let first ← attempt (step a)
    let others ← attempt (all step rest)
    settle first
    settle others

/-- Does each step and drops all faults. -/
def allQuietly (step : α → Act Unit) : List α → Act Unit
  | [] => return
  | a :: rest => do
    quietly (step a)
    allQuietly step rest

def pull (step : Pull.Step α) : Act α := fun e =>
  let (r, cursors) := step e.cursors
  (r, { e with cursors })

variable {β : Type}

@[simp] theorem pure_apply (a : α) (e : Engine) : (pure a : Act α) e = (.ok a, e) := rfl

@[simp] theorem throw_apply (f : Fault) (e : Engine) : (throw f : Act α) e = (.error f, e) := rfl

theorem bind_apply (act : Act α) (next : α → Act β) (e : Engine) :
    (act >>= next) e =
      match act e with
      | (.ok a, e) => next a e
      | (.error f, e) => (.error f, e) := by
  change (match act e with | (r, e) => ExceptT.bindCont next r e) = _
  split
  next r e' h =>
    rw [h]
    cases r <;> rfl

@[simp] theorem get_apply (e : Engine) : (get : Act Engine) e = (.ok e, e) := rfl

@[simp] theorem set_apply (e e' : Engine) : (set e' : Act PUnit) e = (.ok ⟨⟩, e') := rfl

@[simp] theorem modify_apply (change : Engine → Engine) (e : Engine) :
    (modify change : Act PUnit) e = (.ok ⟨⟩, change e) := rfl

@[simp] theorem settle_apply (r : Except Fault α) (e : Engine) : settle r e = (r, e) := by
  cases r <;> rfl

@[simp] theorem attempt_apply (act : Act α) (e : Engine) :
    attempt act e = (.ok (act e).1, (act e).2) := rfl

@[simp] theorem quietly_apply (act : Act Unit) (e : Engine) :
    quietly act e = (.ok (), (act e).2) := rfl

@[simp] theorem pull_apply (step : Pull.Step α) (e : Engine) :
    pull step e = ((step e.cursors).1, { e with cursors := (step e.cursors).2 }) := rfl

theorem allQuietly_fst (step : α → Act Unit) (as : List α) (e : Engine) :
    (allQuietly step as e).1 = .ok () := by
  induction as generalizing e with
  | nil => rfl
  | cons a rest ih => exact ih _

end Act
end SecondaryIndex
