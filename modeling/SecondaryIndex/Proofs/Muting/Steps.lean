import SecondaryIndex.Proofs.Loan.Running
import SecondaryIndex.Proofs.Muting

namespace SecondaryIndex.Query.Request

def muting (m : Muting Engine) : Muting Progress where
  mute p := { p with engine := m.mute p.engine }
  Holds p := m.Holds p.engine

/-- Over a muted engine the step does the same, unless it fails as `Z` tells. -/
def Alike (m : Muting Engine) (Z : Fault → Progress → Prop) {α : Type} (step : Step α) : Prop :=
  ∀ p, (muting m).Alike Z step step p

variable {m : Muting Engine} {Y : Fault → Engine → Prop} {Z : Fault → Progress → Prop}
  {α β : Type}

namespace Alike

variable {step : Step α} {next : α → Step β}

theorem pure (a : α) : Alike m Z (pure a : Step α) := fun _ => .pure a

theorem throw (f : Fault) : Alike m Z (throw f : Step α) := fun _ => .throw f

theorem bind (h : Alike m Z step) (hnext : ∀ a, Alike m Z (next a)) : Alike m Z (step >>= next) :=
  fun _ => (h _).bind fun a p₁ => hnext a p₁

theorem ite {c : Prop} [Decidable c] {step' : Step α} (h : Alike m Z step)
    (h' : Alike m Z step') : Alike m Z (if c then step else step') := fun p => (h p).ite (h' p)

theorem get_bind {next : Progress → Step α} (h : ∀ p, Alike m Z (next p))
    (hmuted : ∀ p : Progress, next { p with engine := m.mute p.engine } = next p) :
    Alike m Z (get >>= next) := by
  refine fun p => .get_bind ?_
  change (muting m).Alike Z (next p) (next { p with engine := m.mute p.engine }) p
  rw [hmuted]
  exact h p p

theorem modify {change : Progress → Progress} (hengine : ∀ p, (change p).engine = p.engine)
    (hmuted : ∀ p : Progress, change { p with engine := m.mute p.engine } =
      { change p with engine := m.mute (change p).engine }) :
    Alike m Z (modify change : Step PUnit) := by
  refine fun p => .modify (fun hp => ?_) (hmuted p)
  change m.Holds (change p).engine
  rw [hengine]
  exact hp

end Alike

theorem alike_act {act : Act α} {p : Progress} (h : m.Alike Y act act p.engine)
    (hout : ∀ f e, Y f e → Z f { p with engine := e }) :
    (muting m).Alike Z (Request.act act) (Request.act act) p := by
  intro hp
  rw [Loan.ensures_act]
  refine (h hp).mono ?_
  rintro r e₁ (⟨f, hf, hr⟩ | ⟨he₁, hsame⟩)
  · exact .inl ⟨f, hout f e₁ hf, hr⟩
  · refine .inr ⟨he₁, Loan.ensures_act.2 (hsame.mono ?_)⟩
    rintro _ _ ⟨rfl, rfl⟩
    exact ⟨rfl, rfl⟩

theorem alike_quietAct {act : Act α} (h : ∀ e, m.Alike (fun _ _ => False) act act e) :
    Alike m Z (Request.act act) := fun _ => alike_act (h _) fun _ _ hf => hf.elim

/-- What a run does in its session, once its query is built, is alike. -/
structure Attends (m : Muting Engine) (Z : Fault → Progress → Prop) (id : SessionId) : Prop where
  checkpoint : ∀ now, Alike m Z (act (Session.checkpoint id now))
  hasNext : ∀ x, Alike m Z (act (Act.pull (Cursor.hasNext x)))
  next : ∀ x, Alike m Z (act (Act.pull (Cursor.next x)))
  skipTo : ∀ x t, Alike m Z (act (Act.pull (Cursor.skipTo x t)))
  pending : ∀ e, Pull.pending (m.mute e).cursors = Pull.pending e.cursors

theorem alike_readClock (r : Request) : Alike m Z r.readClock := fun _ hp => .inr ⟨hp, rfl, rfl⟩

theorem alike_emit (r : Request) (t : Token) : Alike m Z (r.emit t) := by
  rw [emit]
  refine .bind (.modify (fun _ => rfl) fun _ => rfl) fun _ => .get_bind (fun p => ?_) fun _ => rfl
  dsimp only
  cases r.consume p.rows with
  | error f => exact .throw f
  | ok more => cases more <;> exact .pure _

namespace Attends

variable {id : SessionId} (h : Attends m Z id) (r : Request)
include h

theorem alike_checkpoint : Alike m Z (r.checkpoint id) := by
  rw [Request.checkpoint]
  exact .bind (alike_readClock r) h.checkpoint

theorem alike_scan : Alike m Z (r.scan id) := by
  rw [scan]
  refine .bind (.modify (fun _ => rfl) fun _ => rfl) fun _ => .get_bind (fun p => ?_) fun _ => rfl
  exact .ite (h.alike_checkpoint r) (.pure _)

theorem alike_offer (range : KeyRange) (t : Token) : Alike m Z (r.offer id range t) := by
  rw [offer]
  refine .ite (.pure _) (.bind (h.alike_scan r) fun _ => .ite (.pure _) ?_)
  cases r.passes t with
  | error f => exact .throw f
  | ok passes =>
    cases passes with
    | false => exact .pure _
    | true => exact alike_emit r t

theorem alike_drain (range : KeyRange) (cursor : CursorId) (fuel : Nat) :
    Alike m Z (r.drain id range cursor fuel) := by
  induction fuel with
  | zero => exact .pure _
  | succ fuel ih =>
    rw [drain]
    refine .bind (h.hasNext cursor) fun more => .ite (.pure _) (.bind (h.next cursor) fun t => ?_)
    exact .bind (h.alike_offer r range t) fun more => .ite ih (.pure _)

theorem alike_deliver (cursor : Option CursorId) : Alike m Z (r.deliver id cursor) := by
  unfold deliver
  split
  next cursor range _ =>
    refine .ite (.pure _) (.bind (h.skipTo cursor _) fun _ => .get_bind ?_ ?_)
    · exact fun _ => h.alike_drain r range cursor _
    · intro p
      dsimp only
      rw [h.pending]
  next => exact .pure _

end Attends
end SecondaryIndex.Query.Request
