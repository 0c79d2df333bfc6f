import SecondaryIndex.Act

namespace SecondaryIndex

variable {σ α β : Type}

def Ensures (step : ExceptT Fault (StateM σ) α) (s : σ) (Q : Except Fault α → σ → Prop) : Prop :=
  Q (step s).1 (step s).2

variable {step : ExceptT Fault (StateM σ) α} {next : α → ExceptT Fault (StateM σ) β} {s : σ}
  {R : Except Fault α → σ → Prop} {Q : Except Fault β → σ → Prop}

def Ensures.decidable (h : ∀ r s', Decidable (R r s')) : Decidable (Ensures step s R) := h _ _

theorem Ensures.mono {R' : Except Fault α → σ → Prop} (h : Ensures step s R)
    (imp : ∀ r s', R r s' → R' r s') : Ensures step s R' := imp _ _ h

theorem ensures_congr {R' : Except Fault α → σ → Prop} (h : ∀ r s', R r s' ↔ R' r s') :
    Ensures step s R ↔ Ensures step s R' := h _ _

theorem Ensures.eq {r : Except Fault α} {s' : σ}
    (h : Ensures step s fun r' s'' => r' = r ∧ s'' = s') : step s = (r, s') := Prod.ext h.1 h.2

theorem ensures_bind : Ensures (step >>= next) s Q ↔ Ensures step s fun
    | .ok a, s' => Ensures (next a) s' Q
    | .error f, s' => Q (.error f) s' := by
  have happly : (step >>= next) s =
      match step s with
      | (.ok a, s) => next a s
      | (.error f, s) => (.error f, s) := by
    change (match step s with | (r, s) => ExceptT.bindCont next r s) = _
    split
    next r s' h =>
      rw [h]
      cases r <;> rfl
  simp only [Ensures, happly]
  rcases step s with ⟨_ | a, s'⟩ <;> rfl

theorem Ensures.bind (h : Ensures step s R)
    (ok : ∀ a s', R (.ok a) s' → Ensures (next a) s' Q)
    (error : ∀ f s', R (.error f) s' → Q (.error f) s') : Ensures (step >>= next) s Q := by
  rw [ensures_bind]
  refine h.mono fun r s' hr => ?_
  cases r with
  | ok a => exact ok a s' hr
  | error f => exact error f s' hr

theorem Ensures.bind_ok {a : α} {P : σ → Prop}
    (h : Ensures step s fun r s' => r = .ok a ∧ P s')
    (ok : ∀ s', P s' → Ensures (next a) s' Q) : Ensures (step >>= next) s Q := by
  refine h.bind ?_ fun _ _ hr => by cases hr.1
  rintro _ s' ⟨⟨⟩, hs'⟩
  exact ok s' hs'

@[simp] theorem ensures_pure {a : α} :
    Ensures (pure a : ExceptT Fault (StateM σ) α) s R ↔ R (.ok a) s := Iff.rfl

@[simp] theorem ensures_throw {f : Fault} :
    Ensures (throw f : ExceptT Fault (StateM σ) α) s R ↔ R (.error f) s := Iff.rfl

@[simp] theorem ensures_throw_bind {f : Fault} :
    Ensures ((throw f : ExceptT Fault (StateM σ) α) >>= next) s Q ↔ Q (.error f) s := by
  rw [ensures_bind, ensures_throw]

@[simp] theorem ensures_modify {change : σ → σ} {R : Except Fault PUnit → σ → Prop} :
    Ensures (modify change : ExceptT Fault (StateM σ) PUnit) s R ↔ R (.ok ⟨⟩) (change s) := Iff.rfl

@[simp] theorem ensures_get_bind {next : σ → ExceptT Fault (StateM σ) β} :
    Ensures (get >>= next) s Q ↔ Ensures (next s) s Q := by
  rw [ensures_bind]
  rfl

@[simp] theorem ensures_set_bind {next : PUnit → ExceptT Fault (StateM σ) β} {s' : σ} :
    Ensures (set s' >>= next) s Q ↔ Ensures (next ⟨⟩) s' Q := by
  rw [ensures_bind]
  rfl

@[simp] theorem ensures_modify_bind {next : PUnit → ExceptT Fault (StateM σ) β} {change : σ → σ} :
    Ensures (modify change >>= next) s Q ↔ Ensures (next ⟨⟩) (change s) Q := by
  rw [ensures_bind]
  rfl

theorem ensures_map {g : α → β} :
    Ensures (g <$> step) s Q ↔ Ensures step s fun
      | .ok a, s' => Q (.ok (g a)) s'
      | .error f, s' => Q (.error f) s' := by
  rw [← bind_pure_comp, ensures_bind]
  refine ⟨fun h => h.mono fun r s' h => ?_, fun h => h.mono fun r s' h => ?_⟩ <;>
  · cases r <;> exact h

/-- Relations that every state of a run is in with its predecessor, such as a frame. -/
theorem Ensures.and {R' : Except Fault α → σ → Prop} (h : Ensures step s R)
    (h' : Ensures step s R') : Ensures step s fun r s' => R r s' ∧ R' r s' := ⟨h, h'⟩

namespace Act

variable {act : Act α} {next : α → Act β} {e : Engine} {R : Except Fault α → Engine → Prop}
  {Q : Except Fault β → Engine → Prop}

@[simp] theorem ensures_settle {r : Except Fault α} : Ensures (settle r) e R ↔ R r e := by
  rw [Ensures, settle_apply]

@[simp] theorem ensures_settle_bind {r : Except Fault α} :
    Ensures (settle r >>= next) e Q ↔
      match r with
      | .ok a => Ensures (next a) e Q
      | .error f => Q (.error f) e := by
  rw [ensures_bind, ensures_settle]
  cases r <;> rfl

theorem ensures_attempt {R : Except Fault (Except Fault α) → Engine → Prop} :
    Ensures (attempt act) e R ↔ Ensures act e fun r e' => R (.ok r) e' := Iff.rfl

theorem ensures_quietly {act : Act Unit} {R : Except Fault Unit → Engine → Prop} :
    Ensures (quietly act) e R ↔ Ensures act e fun _ e' => R (.ok ()) e' := Iff.rfl

theorem ensures_pull {step : Pull.Step α} {R : Except Fault α → Engine → Prop} :
    Ensures (pull step) e R ↔ Ensures step e.cursors fun r cursors => R r { e with cursors } :=
  Iff.rfl

end Act

variable {act : Act α} {e : Engine} {R : Except Fault α → Engine → Prop}

theorem Ensures.attempt_bind {next : Except Fault α → Act β} {Q : Except Fault β → Engine → Prop}
    (h : Ensures act e R) (all : ∀ r e', R r e' → Ensures (next r) e' Q) :
    Ensures (Act.attempt act >>= next) e Q := by
  rw [ensures_bind, Act.ensures_attempt]
  exact h.mono all

theorem Ensures.quietly_bind {act : Act Unit} {R : Except Fault Unit → Engine → Prop}
    {next : Unit → Act β} {Q : Except Fault β → Engine → Prop} (h : Ensures act e R)
    (all : ∀ r e', R r e' → Ensures (next ()) e' Q) : Ensures (Act.quietly act >>= next) e Q := by
  rw [ensures_bind, Act.ensures_quietly]
  exact h.mono all

theorem Ensures.orUndo {undo : Act Unit} {Q : Except Fault α → Engine → Prop}
    (h : Ensures act e R) (ok : ∀ a e', R (.ok a) e' → Q (.ok a) e')
    (error : ∀ f e', R (.error f) e' → Ensures undo e' fun _ e'' => Q (.error f) e'') :
    Ensures (Act.orUndo act undo) e Q := by
  refine h.attempt_bind fun r e' hr => ?_
  cases r with
  | ok a => exact ok a e' hr
  | error f => exact (error f e' hr).quietly_bind fun _ _ h => h

theorem Ensures.orUndo_of {undo : Act Unit} (h : Ensures act e R)
    (error : ∀ f e' e'', R (.error f) e' → R (.error f) e'') : Ensures (Act.orUndo act undo) e R :=
  h.orUndo (fun _ _ h => h) fun f e' hf => error f e' _ hf

namespace Act

theorem ensures_all {step : α → Act Unit} {I : List α → Engine → Prop} {as : List α}
    (start : I as e)
    (each : ∀ a rest e, I (a :: rest) e → Ensures (step a) e fun _ e' => I rest e') :
    Ensures (all step as) e fun _ e' => I [] e' := by
  induction as generalizing e with
  | nil => exact start
  | cons a rest ih =>
    refine (each a rest e start).attempt_bind fun first e' h => ?_
    refine (ih h).attempt_bind fun others e'' h' => ?_
    rw [ensures_settle_bind]
    cases first with
    | ok _ => exact ensures_settle.2 h'
    | error f => exact h'

theorem ensures_allQuietly {step : α → Act Unit} {I : List α → Engine → Prop} {as : List α}
    (start : I as e)
    (each : ∀ a rest e, I (a :: rest) e → Ensures (step a) e fun _ e' => I rest e') :
    Ensures (allQuietly step as) e fun _ e' => I [] e' := by
  induction as generalizing e with
  | nil => exact start
  | cons a rest ih => exact (each a rest e start).quietly_bind fun _ e' h => ih h

end Act

/-- An act after which an invariant holds if it held before. -/
def Keeps {α : Type} (I : Engine → Prop) (act : Act α) : Prop :=
  ∀ e, I e → Ensures act e fun _ e' => I e'

namespace Keeps

variable {I : Engine → Prop} {act act' : Act α} {next : α → Act β}

theorem pure (a : α) : Keeps I (pure a : Act α) := fun _ h => h

theorem throw (f : Fault) : Keeps I (throw f : Act α) := fun _ h => h

theorem get : Keeps I (get : Act Engine) := fun _ h => h

theorem settle (r : Except Fault α) : Keeps I (Act.settle r) := by
  intro e he
  rw [Act.ensures_settle]
  exact he

theorem bind (h : Keeps I act) (hnext : ∀ a, Keeps I (next a)) : Keeps I (act >>= next) :=
  fun e he => (h e he).bind (fun a e' he' => hnext a e' he') fun _ _ he' => he'

theorem ite {c : Prop} [Decidable c] (h : Keeps I act) (h' : Keeps I act') :
    Keeps I (if c then act else act') := by
  split
  · exact h
  · exact h'

theorem map {g : α → β} (h : Keeps I act) : Keeps I (g <$> act) := by
  rw [← bind_pure_comp]
  exact h.bind fun _ => .pure _

theorem attempt (h : Keeps I act) : Keeps I (Act.attempt act) := h

theorem quietly {act : Act Unit} (h : Keeps I act) : Keeps I (Act.quietly act) := h

theorem orUndo {undo : Act Unit} (h : Keeps I act) (hundo : Keeps I undo) :
    Keeps I (Act.orUndo act undo) := by
  refine h.attempt.bind fun r => ?_
  cases r with
  | ok a => exact .pure a
  | error f => exact hundo.quietly.bind fun _ => .throw f

theorem all {step : α → Act Unit} (h : ∀ a, Keeps I (step a)) (as : List α) :
    Keeps I (Act.all step as) := fun _ he =>
  Act.ensures_all (I := fun _ e' => I e') he fun a _ e' he' => h a e' he'

end Keeps
end SecondaryIndex
