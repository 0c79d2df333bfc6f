import SecondaryIndex.Proofs.Ensures
import SecondaryIndex.Proofs.Pulling

namespace SecondaryIndex.Pull

open Loan

variable {α β : Type}

def Still (step : Step α) : Prop := ∀ cs, Ensures step cs fun _ cs' => Stills cs cs'

theorem still_pure (a : α) : Still (pure a : Step α) := fun cs => .refl cs

theorem Still.bind {step : Step α} {next : α → Step β} (h : Still step)
    (hnext : ∀ a, Still (next a)) : Still (step >>= next) := by
  intro cs
  refine (h cs).bind (fun a cs' hs => ?_) fun _ _ hs => hs
  exact (hnext a cs').mono fun _ _ hs' => hs.trans hs'

theorem Still.map {step : Step α} {g : α → β} (h : Still step) : Still (g <$> step) := by
  rw [← bind_pure_comp]
  exact h.bind fun _ => still_pure _

theorem ensures_node_bind {id : CursorId} {next : Cursor → Step β} {cs : Array Cursor}
    {Q : Except Fault β → Array Cursor → Prop} :
    Ensures (node id >>= next) cs Q ↔ Ensures (next (cs.getD id .empty)) cs Q := by
  rw [ensures_bind]
  rfl

theorem stills_update {id : CursorId} {f : Cursor → Cursor} {cs : Array Cursor}
    (h : ∀ c, cs[id]? = some c → (f c).still = c.still) :
    Ensures (update id f) cs fun _ cs' => Stills cs cs' := by
  intro i
  change (cs.modify id f)[i]?.map Cursor.still = _
  rw [Array.getElem?_modify]
  split
  next hi =>
    subst hi
    cases hc : cs[id]? with
    | none => rfl
    | some c => exact congrArg some (h c hc)
  next => rfl

theorem stills_rest {id : CursorId} {cs : Array Cursor} {rest rest' : List Token}
    {closeFault : Option Fault} {origin : Option Nat}
    (h : (cs.getD id .empty).source = .tokens rest closeFault origin) :
    Ensures (update id fun c => { c with source := .tokens rest' closeFault origin }) cs
      fun _ cs' => Stills cs cs' := by
  refine stills_update fun c hc => ?_
  rw [Array.getD_eq_getD_getElem?, hc, Option.getD_some] at h
  simp [Cursor.still, h, Source.blank]

theorem still_law : Law @Still where
  pure := still_pure
  throw f cs := .refl cs
  bind := Still.bind
  pending_bind h cs := by
    rw [ensures_get_bind]
    exact h _ cs
  node_bind h _ cs := by
    rw [ensures_node_bind]
    exact h _ cs
  position _ hstill cs := stills_update fun c _ => hstill c
  compute {a} id hunion hintersection hlook hnext := by
    intro cs
    rw [compute, ensures_node_bind]
    generalize hc : cs.getD id .empty = c
    rcases c with ⟨extent, source, _, _, closes⟩
    cases source with
    | tokens rest closeFault origin =>
      cases rest with
      | nil => exact still_pure _ cs
      | cons t rest =>
        refine (stills_rest (by rw [hc])).bind ?_ fun _ _ h => h
        exact fun _ cs' h => h
    | union children => exact hunion children cs
    | intersection children => exact hintersection _ children cs
    | «matches» merged segments =>
      dsimp only
      split
      · exact still_pure _ cs
      · refine Still.bind (hlook merged) (fun t => ?_) cs
        cases t with
        | none => exact still_pure _
        | some t => exact (hnext merged).map
  seek {a} id target hskipAll hskipTo := by
    intro cs
    rw [seek, ensures_node_bind]
    generalize hc : cs.getD id .empty = c
    rcases c with ⟨extent, source, _, _, closes⟩
    cases source with
    | tokens rest closeFault origin => exact stills_rest (by rw [hc])
    | union children => exact hskipAll children cs
    | intersection children => exact hskipAll children cs
    | «matches» merged segments =>
      dsimp only
      split
      · exact hskipTo merged cs
      · exact still_pure _ cs

end SecondaryIndex.Pull
