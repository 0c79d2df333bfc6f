import SecondaryIndex.Proofs.Ensures

namespace SecondaryIndex

structure Muting (σ : Type) where
  mute : σ → σ
  /-- What is assumed of the states that are muted. -/
  Holds : σ → Prop

namespace Muting

variable {σ α β : Type} {m : Muting σ} {Y : Fault → σ → Prop} {s : σ}
  {step step' : ExceptT Fault (StateM σ) α} {next next' : α → ExceptT Fault (StateM σ) β}

/-- Unless `step` fails as `Y` tells, the other does the same from the muted state. -/
def Alike (m : Muting σ) (Y : Fault → σ → Prop) (step step' : ExceptT Fault (StateM σ) α)
    (s : σ) : Prop :=
  m.Holds s → Ensures step s fun r s₁ => (∃ f, Y f s₁ ∧ r = .error f) ∨
    m.Holds s₁ ∧ Ensures step' (m.mute s) fun r' s' => r' = r ∧ s' = m.mute s₁

namespace Alike

theorem pure (a : α) : m.Alike Y (pure a) (pure a) s := fun hs => .inr ⟨hs, rfl, rfl⟩

theorem throw (f : Fault) :
    m.Alike Y (throw f : ExceptT Fault (StateM σ) α) (throw f) s := fun hs => .inr ⟨hs, rfl, rfl⟩

/-- What follows is alike from the states that the first step leaves behind. -/
theorem bind_of {R : σ → Prop} (h : m.Alike Y step step' s)
    (hstep : Ensures step s fun _ s₁ => R s₁)
    (hnext : ∀ a s₁, R s₁ → m.Alike Y (next a) (next' a) s₁) :
    m.Alike Y (step >>= next) (step' >>= next') s := by
  intro hs
  refine ((h hs).and hstep).bind ?_ ?_
  · rintro a s₁ ⟨⟨_, -, ⟨⟩⟩ | ⟨hs₁, hsame⟩, hR⟩
    refine (hnext a s₁ hR hs₁).mono ?_
    rintro r s₂ (hout | ⟨hs₂, hrest⟩)
    · exact .inl hout
    · refine .inr ⟨hs₂, hsame.bind_ok ?_⟩
      rintro _ rfl
      exact hrest
  · rintro f s₁ ⟨hout | ⟨hs₁, hsame⟩, -⟩
    · obtain ⟨g, hg, ⟨⟩⟩ := hout
      exact .inl ⟨f, hg, rfl⟩
    · refine .inr ⟨hs₁, hsame.bind ?_ ?_⟩
      · rintro _ _ ⟨⟨⟩, -⟩
      · rintro _ _ ⟨⟨⟩, rfl⟩
        exact ⟨rfl, rfl⟩

theorem bind (h : m.Alike Y step step' s) (hnext : ∀ a s₁, m.Alike Y (next a) (next' a) s₁) :
    m.Alike Y (step >>= next) (step' >>= next') s :=
  h.bind_of (R := fun _ => True) trivial fun a s₁ _ => hnext a s₁

theorem map {g : α → β} (h : m.Alike Y step step' s) : m.Alike Y (g <$> step) (g <$> step') s := by
  rw [← bind_pure_comp, ← bind_pure_comp]
  exact h.bind fun _ _ => pure _

theorem ite {c : Prop} [Decidable c] {other other' : ExceptT Fault (StateM σ) α}
    (h : m.Alike Y step step' s) (h' : m.Alike Y other other' s) :
    m.Alike Y (if c then step else other) (if c then step' else other') s := by
  split
  · exact h
  · exact h'

theorem get_bind {next next' : σ → ExceptT Fault (StateM σ) β}
    (h : m.Alike Y (next s) (next' (m.mute s)) s) :
    m.Alike Y (get >>= next) (get >>= next') s := by
  intro hs
  simp only [ensures_get_bind]
  exact h hs

theorem modify {change change' : σ → σ} (h : m.Holds s → m.Holds (change s))
    (hmute : change' (m.mute s) = m.mute (change s)) :
    m.Alike Y (modify change : ExceptT Fault (StateM σ) PUnit) (modify change') s :=
  fun hs => .inr ⟨h hs, rfl, hmute⟩

end Alike
end Muting
end SecondaryIndex
