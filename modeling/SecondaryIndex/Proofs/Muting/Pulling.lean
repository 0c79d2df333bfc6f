import SecondaryIndex.Proofs.Loan.Still
import SecondaryIndex.Proofs.Muting
import SecondaryIndex.Proofs.Stream.Closing

namespace SecondaryIndex

def Source.muted : Source → Source
  | .tokens rest _ origin => .tokens rest none origin
  | s => s

def Cursor.muted (c : Cursor) : Cursor := { c with source := c.source.muted }

/-- Closing the cursor brings no fault but those in `X`. -/
def Cursor.ClosesIn (X : Fault → Prop) (c : Cursor) : Prop :=
  ∀ f, c.source.closeFault = some f → X f

theorem map_modify {α : Type} {xs : Array α} {i : Nat} {g f f' : α → α}
    (h : ∀ a, xs[i]? = some a → f' (g a) = g (f a)) :
    (xs.map g).modify i f' = (xs.modify i f).map g := by
  refine Array.ext_getElem? fun j => ?_
  rw [Array.getElem?_map, Array.getElem?_modify, Array.getElem?_modify, Array.getElem?_map]
  split
  next hij =>
    subst hij
    cases hx : xs[i]? with
    | none => rfl
    | some a => exact congrArg some (h a hx)
  next => rfl

namespace Pull

variable {α β : Type} {X : Fault → Prop} {Y : Fault → Array Cursor → Prop} {cs : Array Cursor}
  {id : CursorId}

def muting (X : Fault → Prop) : Muting (Array Cursor) where
  mute cs := cs.map Cursor.muted
  Holds cs := ∀ (i : Nat) c, cs[i]? = some c → c.ClosesIn X

theorem getD_muted (cs : Array Cursor) (id : CursorId) :
    (cs.map Cursor.muted).getD id .empty = (cs.getD id .empty).muted := by
  rw [Array.getD_eq_getD_getElem?, Array.getD_eq_getD_getElem?, Array.getElem?_map]
  cases cs[id]? <;> rfl

theorem pending_muted (cs : Array Cursor) : pending (cs.map Cursor.muted) = pending cs := by
  have hpending : ∀ c : Cursor, c.muted.pending = c.pending := by
    rintro ⟨extent, _ | _ | _ | _, ahead, exhausted, closes⟩ <;> rfl
  simp only [pending, Array.toList_map, List.foldr_map, hpending]

theorem alike_node_bind {next next' : Cursor → Step β}
    (h : (muting X).Alike Y (next (cs.getD id .empty)) (next' (cs.getD id .empty).muted) cs) :
    (muting X).Alike Y (node id >>= next) (node id >>= next') cs := by
  intro hcs
  simp only [ensures_node_bind]
  rw [← getD_muted] at h
  exact h hcs

theorem alike_update {f f' : Cursor → Cursor} (h : ∀ c, cs[id]? = some c →
    f' c.muted = (f c).muted ∧ (f c).source.closeFault = c.source.closeFault) :
    (muting X).Alike Y (update id f) (update id f') cs := by
  refine .modify (fun hcs i c hc => ?_) (map_modify fun c hc => (h c hc).1)
  rw [Array.getElem?_modify] at hc
  split at hc
  next hi =>
    obtain ⟨d, hd, rfl⟩ := Option.map_eq_some_iff.1 hc
    rw [Cursor.ClosesIn, (h d (hi ▸ hd)).2]
    exact hcs i d hd
  next => exact hcs i c hc

theorem alike_rest {c : Cursor} {rest rest' : List Token} {closeFault : Option Fault}
    {origin : Option Nat} (hc : cs.getD id .empty = c)
    (hsource : c.source = .tokens rest closeFault origin) : (muting X).Alike Y
      (update id fun c => { c with source := .tokens rest' closeFault origin })
      (update id fun c => { c with source := .tokens rest' none origin }) cs := by
  refine alike_update fun d hd => ⟨rfl, ?_⟩
  rw [Array.getD_eq_getD_getElem?, hd, Option.getD_some] at hc
  rw [hc, hsource]
  rfl

def Deaf (X : Fault → Prop) (step : Step α) : Prop := ∀ Y cs, (muting X).Alike Y step step cs

theorem deaf_law : Law (Deaf X) where
  pure a _ _ := .pure a
  throw f _ _ := .throw f
  bind h hnext Y cs := (h Y cs).bind fun a cs' => hnext a Y cs'
  pending_bind {_ next} h Y cs := by
    refine .get_bind ?_
    change (muting X).Alike Y (next (pending cs)) (next (pending (cs.map Cursor.muted))) cs
    rw [pending_muted]
    exact h _ Y cs
  node_bind {_ id next} h hsource Y cs := by
    refine alike_node_bind ?_
    have hmuted : next (cs.getD id .empty).muted = next (cs.getD id .empty) := hsource _ _
    rw [hmuted]
    exact h _ Y cs
  position {id f} hsource _ Y cs := by
    refine alike_update fun c _ => ?_
    have hsame : (f c).source = c.source := (congrArg Cursor.source (hsource c c.source)).trans rfl
    refine ⟨(hsource c c.source.muted).trans ?_, congrArg Source.closeFault hsame⟩
    rw [Cursor.muted, hsame]
  compute {a} id hunion hintersection hlook hnext Y cs := by
    -- Only a list of tokens is changed by muting. The other sources lead to cursors below.
    rw [compute]
    refine alike_node_bind ?_
    generalize hc : cs.getD id .empty = c
    rcases c with ⟨extent, source, ahead, exhausted, closes⟩
    cases source with
    | tokens rest closeFault origin =>
      cases rest with
      | nil => exact .pure _
      | cons t rest => exact (alike_rest hc rfl).bind fun _ _ => .pure _
    | union children => exact hunion children Y cs
    | intersection children => exact hintersection _ children Y cs
    | «matches» merged segments =>
      refine .ite (.pure _) ((hlook merged Y cs).bind fun t cs' => ?_)
      cases t with
      | none => exact .pure _
      | some t => exact (hnext merged Y cs').map
  seek {a} id target hskipAll hskipTo Y cs := by
    rw [seek]
    refine alike_node_bind ?_
    generalize hc : cs.getD id .empty = c
    rcases c with ⟨extent, source, ahead, exhausted, closes⟩
    cases source with
    | tokens rest closeFault origin => exact alike_rest hc rfl
    | union children => exact hskipAll children Y cs
    | intersection children => exact hskipAll children Y cs
    | «matches» merged segments => exact .ite (hskipTo merged Y cs) (.pure _)

end Pull
end SecondaryIndex
