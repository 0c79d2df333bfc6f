import SecondaryIndex.Segment.Lifetime

namespace SecondaryIndex

section

variable {α : Type} {xs : Array α} {i : Nat} {f g : α → α}

theorem modify_congr (h : ∀ a, xs[i]? = some a → f a = g a) : xs.modify i f = xs.modify i g := by
  refine Array.ext_getElem? fun j => ?_
  rw [Array.getElem?_modify, Array.getElem?_modify]
  split
  next hij => exact Option.map_congr fun a ha => h a (hij ▸ ha)
  next => rfl

theorem modify_eq_self (h : ∀ a, xs[i]? = some a → f a = a) : xs.modify i f = xs := by
  refine Array.ext_getElem? fun j => ?_
  rw [Array.getElem?_modify]
  split
  next hij => exact (Option.map_congr fun a ha => h a (hij ▸ ha)).trans Option.map_id'
  next => rfl

theorem modify_of_none (h : xs[i]? = none) : xs.modify i f = xs := by
  refine modify_eq_self fun a ha => ?_
  rw [h] at ha
  cases ha

end

theorem DataFile.release_snd (f : DataFile) (e : Engine) :
    (f.release e).2 = e.updateFile f fun state => { state with refs := state.refs - 1 } := by
  rw [release_apply]
  split
  next hzero =>
    have hsame : e.files.modify f.id (fun state => { state with refs := state.refs - 1 }) =
        e.files := modify_eq_self fun state hstate => by
      rw [Engine.file, Array.getD_eq_getD_getElem?, hstate, Option.getD_some] at hzero
      rw [hzero, Nat.zero_sub, ← hzero]
    rw [Engine.updateFile, hsame]
  next => rfl

theorem DataFile.file_release (f g : DataFile) (e : Engine) :
    (f.release e).2.file g =
      { e.file g with refs := (e.file g).refs - if f.id = g.id then 1 else 0 } := by
  rw [release_snd, Engine.file_updateFile]
  by_cases hid : f.id = g.id
  · rw [if_pos hid]
    split
    · rfl
    next hout =>
      -- A file that is not there has no reference.
      have hsize : e.files.size ≤ g.id := by omega
      rw [Engine.file, Array.getD_eq_getD_getElem?, Array.getElem?_eq_none hsize]
      rfl
  · rw [if_neg hid, if_neg fun h => hid h.1]
    rfl

namespace Engine

theorem refs_updateSegment (e : Engine) (s t : Segment) (change : SegmentState → SegmentState) :
    (e.updateSegment s change).refs t =
      if s.id = t.id then ((e.segment? t).map fun state => (change state).refs).getD 0
      else e.refs t := by
  rw [refs, segment?_updateSegment]
  split
  · rw [Option.map_map]
    rfl
  · rfl

end Engine

namespace Segment

variable (s t : Segment) (e : Engine)

theorem closeReader_snd : (s.closeReader e).2 =
    e.updateSegment s fun state => { state with reader := state.reader.close.1 } := by
  simp only [closeReader, Act.bind_apply, Act.get_apply]
  cases hs : e.segment? s with
  | none =>
    have hsame : e.segments.modify s.id
        (fun state => { state with reader := state.reader.close.1 }) = e.segments :=
      modify_of_none hs
    rw [Engine.updateSegment, hsame]
    rfl
  | some state =>
    simp only [Act.bind_apply, Act.modify_apply, Act.settle_apply]
    rw [Engine.updateSegment, Engine.updateSegment, modify_congr fun state' hstate' => ?_]
    cases hs.symm.trans hstate'
    rfl

/-- The engine with one reference on `s` less, before anything is closed. -/
def dropped (s : Segment) (e : Engine) : Engine :=
  e.updateSegment s fun state => { state with refs := state.refs - 1 }

theorem refs_dropped : (s.dropped e).refs t = if s.id = t.id then e.refs t - 1 else e.refs t := by
  rw [dropped, Engine.refs_updateSegment]
  split
  · rw [Engine.refs]
    cases e.segment? t <;> rfl
  · rfl

theorem closed_eq : s.closed e =
    (e.updateSegment s fun state => { state with reader := state.reader.close.1 }).updateFile
      s.file fun state => { state with refs := state.refs - 1 } := by
  rw [closed, DataFile.release_snd, closeReader_snd]

theorem refs_closed : (s.closed e).refs t = e.refs t := by
  rw [closed_eq]
  refine (Engine.refs_updateSegment e s t _).trans ?_
  split <;> rfl

theorem segment?_closed : (s.closed e).segment? t =
    if s.id = t.id then
      (e.segment? t).map fun state => { state with reader := state.reader.close.1 }
    else e.segment? t := by
  rw [closed_eq]
  exact Engine.segment?_updateSegment e s t _

variable {s e}

theorem release_snd (h : 0 < e.refs s) :
    (s.release e).2 = if e.refs s = 1 then s.closed (s.dropped e) else s.dropped e := by
  rw [release_apply, if_neg (Nat.ne_of_gt h)]
  rfl

theorem cursors_release (s : Segment) (e : Engine) : (s.release e).2.cursors = e.cursors := by
  rw [release_apply]
  split
  · rfl
  · simp only
    split
    · rw [closed_eq]
      rfl
    · rfl

end Segment
end SecondaryIndex
