import SecondaryIndex.Cursor.Pull
import SecondaryIndex.Proofs.Loan

namespace SecondaryIndex.Pull

/-- A property of steps that holds of all of them if it holds of those that touch one cursor. -/
structure Law (P : ∀ {α : Type}, Step α → Prop) : Prop where
  pure : ∀ {α : Type} (a : α), P (pure a : Step α)
  throw : ∀ {α : Type} (f : Fault), P (throw f : Step α)
  bind : ∀ {α β : Type} {step : Step α} {next : α → Step β},
    P step → (∀ a, P (next a)) → P (step >>= next)
  pending_bind : ∀ {α : Type} {next : Nat → Step α},
    (∀ n, P (next n)) → P (get >>= fun cs => next (pending cs))
  /-- Looking at all of a cursor but its source. -/
  node_bind : ∀ {α : Type} {id : CursorId} {next : Cursor → Step α}, (∀ c, P (next c)) →
    (∀ c source, next { c with source } = next c) → P (node id >>= next)
  /-- Changing the position of a cursor, but not its source. -/
  position : ∀ {id : CursorId} {f : Cursor → Cursor},
    (∀ c source, f { c with source } = { f c with source }) → (∀ c, (f c).still = c.still) →
      P (update id f)
  compute : ∀ {a : Advance} (id : CursorId), (∀ ids, P (computeUnion a ids)) →
    (∀ low ids, P (computeIntersection a low ids)) → (∀ id, P (look a id)) → (∀ id, P (next a id)) →
      P (compute a id)
  seek : ∀ {a : Advance} (id : CursorId) (target : Token), (∀ ids, P (skipAll a target ids)) →
    (∀ id, P (skipTo a id target)) → P (seek a id target)

/-- Ways to advance a cursor that have the property. -/
structure Advance.Has (P : ∀ {α : Type}, Step α → Prop) (a : Advance) : Prop where
  compute : ∀ id, P (a.compute id)
  seek : ∀ id t, P (a.seek id t)

namespace Law

variable {P : ∀ {α : Type}, Step α → Prop} {α β : Type} {a : Advance}

theorem map (law : Law P) {step : Step α} {g : α → β} (h : P step) : P (g <$> step) := by
  rw [← bind_pure_comp]
  exact law.bind h fun _ => law.pure _

theorem look (law : Law P) (h : a.Has P) (id : CursorId) : P (look a id) := by
  rw [Pull.look]
  refine law.node_bind (fun c => ?_) fun _ _ => rfl
  split
  · exact law.pure _
  · refine law.bind (h.compute id) fun t => law.bind ?_ fun _ => law.pure _
    exact law.position (fun _ _ => rfl) fun _ => rfl

theorem peek (law : Law P) (h : a.Has P) (id : CursorId) : P (peek a id) := by
  rw [Pull.peek]
  refine law.bind (law.look h id) fun t => ?_
  cases t with
  | none => exact law.throw _
  | some t => exact law.pure _

theorem next (law : Law P) (h : a.Has P) (id : CursorId) : P (next a id) := by
  rw [Pull.next]
  refine law.bind (law.peek h id) fun _ => law.bind ?_ fun _ => law.pure _
  exact law.position (fun _ _ => rfl) fun _ => rfl

theorem skipTo (law : Law P) (h : a.Has P) (id : CursorId) (target : Token) :
    P (skipTo a id target) := by
  rw [Pull.skipTo]
  refine law.node_bind (fun c => ?_) fun _ _ => rfl
  split_ifs
  · exact law.pure _
  · exact law.position (fun _ _ => rfl) fun _ => rfl
  · exact law.pure _
  · refine law.bind ?_ fun _ => h.seek id target
    exact law.position (fun _ _ => rfl) fun _ => rfl

theorem skipAll (law : Law P) (h : a.Has P) (target : Token) (ids : List CursorId) :
    P (skipAll a target ids) := by
  induction ids with
  | nil => exact law.pure _
  | cons id rest ih =>
    rw [Pull.skipAll]
    exact law.bind (law.skipTo h id target) fun _ => ih

theorem least (law : Law P) (h : a.Has P) (best : Option Token) (ids : List CursorId) :
    P (least a best ids) := by
  induction ids generalizing best with
  | nil => exact law.pure _
  | cons id rest ih =>
    rw [Pull.least]
    refine law.bind (law.look h id) fun head => ?_
    -- Whatever is the least so far, the rest of the list is looked at.
    cases best <;> cases head <;> exact ih _

theorem takeFrom (law : Law P) (h : a.Has P) (t : Token) (ids : List CursorId) :
    P (takeFrom a t ids) := by
  induction ids with
  | nil => exact law.pure _
  | cons id rest ih =>
    rw [Pull.takeFrom]
    refine law.bind (law.look h id) fun head => ?_
    split
    · exact law.bind (law.map (law.next h id)) fun _ => ih
    · exact ih

theorem computeUnion (law : Law P) (h : a.Has P) (ids : List CursorId) :
    P (computeUnion a ids) := by
  rw [Pull.computeUnion]
  refine law.bind (law.least h none ids) fun t => ?_
  cases t with
  | none => exact law.pure _
  | some t => exact law.bind (law.takeFrom h t ids) fun _ => law.pure _

theorem greatest (law : Law P) (h : a.Has P) (t : Token) (ids : List CursorId) :
    P (greatest a t ids) := by
  induction ids generalizing t with
  | nil => exact law.pure _
  | cons id rest ih =>
    rw [Pull.greatest]
    refine law.bind (law.look h id) fun head => ?_
    cases head with
    | none => exact law.pure _
    | some u => exact ih _

theorem align (law : Law P) (h : a.Has P) (t : Token) (ids : List CursorId) :
    P (align a t ids) := by
  induction ids with
  | nil => exact law.pure _
  | cons id rest ih =>
    rw [Pull.align]
    refine law.bind (law.skipTo h id t) fun _ => law.bind (law.look h id) fun head => ?_
    cases head with
    | none => exact law.pure _
    | some u =>
      dsimp only
      split
      · exact law.pure _
      · exact ih

theorem agree (law : Law P) (h : a.Has P) (ids : List CursorId) (fuel : Nat) (t : Token) :
    P (agree a ids fuel t) := by
  induction fuel generalizing t with
  | zero => exact law.throw _
  | succ fuel ih =>
    rw [Pull.agree]
    refine law.bind (law.align h t ids) fun head => ?_
    cases head with
    | none => exact law.pure _
    | some u =>
      dsimp only
      split
      · exact law.pure _
      · exact ih _

theorem takeAll (law : Law P) (h : a.Has P) (ids : List CursorId) : P (takeAll a ids) := by
  induction ids with
  | nil => exact law.pure _
  | cons id rest ih =>
    rw [Pull.takeAll]
    exact law.bind (law.map (law.next h id)) fun _ => ih

theorem computeIntersection (law : Law P) (h : a.Has P) (low : Token) (ids : List CursorId) :
    P (computeIntersection a low ids) := by
  rw [Pull.computeIntersection]
  split
  · exact law.pure _
  refine law.bind (law.greatest h low ids) fun t => ?_
  cases t with
  | none => exact law.pure _
  | some t =>
    refine law.pending_bind fun n => law.bind (law.agree h ids (n + 1) t) fun u => ?_
    cases u with
    | none => exact law.pure _
    | some u => exact law.bind (law.takeAll h ids) fun _ => law.pure _

theorem advance (law : Law P) (depth : Nat) : (advance depth).Has P := by
  induction depth with
  | zero => exact ⟨fun _ => law.pure _, fun _ _ => law.pure _⟩
  | succ depth ih =>
    constructor
    · exact fun id => law.compute id (law.computeUnion ih) (law.computeIntersection ih)
        (law.look ih) (law.next ih)
    · exact fun id t => law.seek id t (law.skipAll ih t) fun id => law.skipTo ih id t

theorem cursor_hasNext (law : Law P) (id : CursorId) : P (Cursor.hasNext id) :=
  law.bind (law.look (law.advance (id + 1)) id) fun _ => law.pure _

theorem cursor_next (law : Law P) (id : CursorId) : P (Cursor.next id) :=
  law.next (law.advance (id + 1)) id

theorem cursor_skipTo (law : Law P) (id : CursorId) (target : Token) :
    P (Cursor.skipTo id target) := law.skipTo (law.advance (id + 1)) id target

end Law
end SecondaryIndex.Pull
