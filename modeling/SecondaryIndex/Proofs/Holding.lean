import SecondaryIndex.Proofs.Frame

namespace SecondaryIndex

/-- Whether an index is there and still has its segments. -/
def Engine.Lives (e : Engine) (id : IndexId) : Prop :=
  ∃ index, e.indexes[id]? = some index ∧ index.retired = false

/-- Every index that still has its segments is held. -/
def Engine.Holding (e : Engine) : Prop := ∀ id, e.Lives id → e.holds id = true

variable {e e' e'' : Engine}

theorem mem_values {published : Std.TreeMap String IndexId} {id : IndexId} :
    published.values.contains id = true ↔ ∃ column : String, published[column]? = some id := by
  have hvalues : published.values = published.toList.map Prod.snd := by
    have hfold : published.values = published.foldr (fun _ id ids => id :: ids) [] := rfl
    rw [hfold, Std.TreeMap.foldr_eq_foldr_toList]
    induction published.toList with
    | nil => rfl
    | cons p rest ih => rw [List.foldr_cons, ih, List.map_cons]
  rw [List.contains_iff_mem, hvalues, List.mem_map]
  constructor
  · rintro ⟨⟨column, id⟩, hmem, rfl⟩
    exact ⟨column, Std.TreeMap.mem_toList_iff_getElem?_eq_some.1 hmem⟩
  · rintro ⟨column, hcolumn⟩
    exact ⟨(column, id), Std.TreeMap.mem_toList_iff_getElem?_eq_some.2 hcolumn, rfl⟩

theorem Engine.holds_iff {id : IndexId} : e.holds id = true ↔
    (∃ column : String, e.published[column]? = some id) ∨ id ∈ e.handles ∨
      ∃ (k : Nat) (s : Session), e.sessions[k]? = some s ∧ ∃ g ∈ s.groups.keys,
        ∃ c ∈ g, c.index = some id := by
  rw [holds, Bool.or_eq_true, Bool.or_eq_true, mem_values, List.contains_iff_mem, inOpenGroup]
  refine or_congr_right (or_congr_right ?_)
  simp only [List.any_eq_true, decide_eq_true_eq]
  constructor
  · rintro ⟨s, hs, hopen⟩
    obtain ⟨k, hk⟩ := List.mem_iff_getElem?.1 hs
    exact ⟨k, s, by simpa using hk, hopen⟩
  · rintro ⟨k, s, hk, hopen⟩
    exact ⟨s, List.mem_iff_getElem?.2 ⟨k, by simpa using hk⟩, hopen⟩

/-- Whatever holds an index in `e` holds it in `e'`. -/
structure Engine.Fewer (e e' : Engine) : Prop where
  published : ∀ (column : String) i, e.published[column]? = some i →
    e'.published[column]? = some i
  handles : ∀ i ∈ e.handles, i ∈ e'.handles
  groups : ∀ (k : Nat) s, e.sessions[k]? = some s → ∀ g ∈ s.groups.keys,
    ∃ s', e'.sessions[k]? = some s' ∧ g ∈ s'.groups.keys

theorem Engine.Fewer.holds (h : Fewer e e') {id : IndexId} (hid : e.holds id = true) :
    e'.holds id = true := by
  rw [Engine.holds_iff] at hid ⊢
  refine hid.imp (fun ⟨column, hcolumn⟩ => ⟨column, h.published column id hcolumn⟩)
    (Or.imp (h.handles id) fun ⟨k, s, hk, g, hg, hopen⟩ => ?_)
  obtain ⟨s', hk', hg'⟩ := h.groups k s hk g hg
  exact ⟨k, s', hk', g, hg', hopen⟩

namespace Engine.Fewer

/-- The sessions are the same. -/
theorem of_sessions (hsessions : e'.sessions = e.sessions)
    (hpublished : ∀ (column : String) i, e.published[column]? = some i →
      e'.published[column]? = some i)
    (hhandles : ∀ i ∈ e.handles, i ∈ e'.handles) : e.Fewer e' :=
  ⟨hpublished, hhandles, fun _ s hk _ hg => ⟨s, hsessions ▸ hk, hg⟩⟩

/-- A session may lose groups. -/
theorem of_updateSession (e : Engine) (id : SessionId) {change : Session → Session}
    (hchange : ∀ s, ∀ g ∈ (change s).groups.keys, g ∈ s.groups.keys) :
    (e.updateSession id change).Fewer e := by
  refine ⟨fun _ _ hi => hi, fun _ hi => hi, fun k s' hk g hg => ?_⟩
  rw [updateSession, Array.getElem?_modify] at hk
  split at hk
  · obtain ⟨s, hs, rfl⟩ := Option.map_eq_some_iff.1 hk
    exact ⟨s, hs, hchange s g hg⟩
  · exact ⟨s', hk, hg⟩

end Engine.Fewer

/-- Whatever holds an index holds it still, and nothing else does. -/
structure SameHolders (e e' : Engine) : Prop where
  published : e'.published = e.published
  handles : e'.handles = e.handles
  sessions : e'.sessions = e.sessions

namespace SameHolders

theorem trans (h : SameHolders e e') (h' : SameHolders e' e'') : SameHolders e e'' :=
  ⟨h'.published.trans h.published, h'.handles.trans h.handles, h'.sessions.trans h.sessions⟩

theorem symm (h : SameHolders e e') : SameHolders e' e :=
  ⟨h.published.symm, h.handles.symm, h.sessions.symm⟩

theorem fewer (h : SameHolders e e') : e.Fewer e' :=
  .of_sessions h.sessions (fun _ _ hi => h.published ▸ hi) fun _ hi => h.handles ▸ hi

theorem holds_eq (h : SameHolders e e') (id : IndexId) : e'.holds id = e.holds id :=
  Bool.eq_iff_iff.2 ⟨h.symm.fewer.holds, h.fewer.holds⟩

end SameHolders

theorem Frame.sameHolders (hf : Frame e e') : SameHolders e e' :=
  ⟨hf.published, hf.handles, hf.sessions⟩

theorem Engine.Holding.mono (h : e.Holding) (hindexes : e'.indexes = e.indexes)
    (hfewer : e.Fewer e') : e'.Holding := by
  intro id hlives
  rw [Engine.Lives, hindexes] at hlives
  exact hfewer.holds (h id hlives)

theorem Engine.lives_updateIndex {id i : IndexId} {change : ColumnIndex → ColumnIndex}
    (hchange : ∀ index, (change index).retired = index.retired) :
    (e.updateIndex id change).Lives i ↔ e.Lives i := by
  rw [Lives, updateIndex, Array.getElem?_modify, Lives]
  split
  · cases e.indexes[i]? <;> simp [hchange]
  · exact Iff.rfl

namespace Catalog

theorem retire_idle {id : IndexId} (h : ¬ e.Lives id) :
    Ensures (retire id) e fun r e' => r = .ok () ∧ e' = e := by
  rw [retire, ensures_get_bind]
  cases hi : e.indexes[id]? with
  | none => exact ⟨rfl, rfl⟩
  | some index =>
    have hretired : index.retired = true := by
      cases hr : index.retired with
      | false => exact absurd ⟨index, hi, hr⟩ h
      | true => rfl
    simp only [if_pos hretired, ensures_pure, and_self]

theorem ensures_retire {id : IndexId} {index : ColumnIndex} {Q : Except Fault Unit → Engine → Prop}
    (hi : e.indexes[id]? = some index) (hlive : index.retired = false) :
    Ensures (retire id) e Q ↔ Ensures (Segment.releaseAll index.snapshot.segments)
      (e.updateIndex id fun index => { index with retired := true }) Q := by
  rw [retire, ensures_get_bind, hi]
  simp only [hlive, Bool.false_eq_true, if_false, ensures_modify_bind]

theorem lives_retired {id i : IndexId} :
    (e.updateIndex id fun index => { index with retired := true }).Lives i ↔
      e.Lives i ∧ i ≠ id := by
  rw [Engine.Lives, Engine.updateIndex, Engine.Lives, Array.getElem?_modify]
  split
  next heq =>
    refine ⟨fun ⟨_, hindex, hlive⟩ => ?_, fun h => absurd heq.symm h.2⟩
    obtain ⟨_, -, rfl⟩ := Option.map_eq_some_iff.1 hindex
    cases hlive
  next hne => exact (and_iff_left (Ne.symm hne)).symm

theorem ensures_retire_lives (id : IndexId) (e : Engine) :
    Ensures (retire id) e fun r e' => r = .ok () ∧ SameHolders e e' ∧
      ∀ i, e'.Lives i ↔ e.Lives i ∧ i ≠ id := by
  by_cases hlive : e.Lives id
  · obtain ⟨index, hindex, hretired⟩ := hlive
    rw [ensures_retire hindex hretired]
    refine Ensures.and (R := fun r _ => r = .ok ()) (Act.allQuietly_fst _ _ _) ?_
    refine ((Segment.framed_releaseAll index.snapshot.segments).frame _).mono fun _ e' hf => ?_
    refine ⟨⟨hf.published, hf.handles, hf.sessions⟩, fun i => ?_⟩
    rw [Engine.Lives, hf.indexes]
    exact lives_retired
  · refine (retire_idle hlive).mono ?_
    rintro r _ ⟨hr, rfl⟩
    refine ⟨hr, ⟨rfl, rfl, rfl⟩, fun i => (and_iff_left_of_imp ?_).symm⟩
    rintro hi rfl
    exact hlive hi

theorem ensures_retireAll (ids : List IndexId) (e : Engine) :
    Ensures (retireAll ids) e fun r e' => r = .ok () ∧ SameHolders e e' ∧
      ∀ i, e'.Lives i ↔ e.Lives i ∧ i ∉ ids := by
  induction ids generalizing e with
  | nil => exact ⟨rfl, ⟨rfl, rfl, rfl⟩, fun i => (and_iff_left List.not_mem_nil).symm⟩
  | cons id rest ih =>
    rw [retireAll]
    refine (ensures_retire_lives id e).bind_ok ?_
    rintro e₁ ⟨hsame, hlives⟩
    refine (ih e₁).mono ?_
    rintro r e₂ ⟨hr, hsame', hlives'⟩
    refine ⟨hr, hsame.trans hsame', fun i => ?_⟩
    rw [hlives', hlives, List.mem_cons, not_or, and_assoc]

/-- Reclaiming lets go of just those indexes that nothing holds. -/
theorem ensures_reclaim (e : Engine) :
    Ensures reclaim e fun r e' => r = .ok () ∧ SameHolders e e' ∧
      ∀ i, e'.Lives i ↔ e.Lives i ∧ e.holds i = true := by
  rw [reclaim, ensures_get_bind]
  refine (ensures_retireAll _ e).mono ?_
  rintro r e' ⟨hr, hsame, hlives⟩
  refine ⟨hr, hsame, fun i => (hlives i).trans (and_congr_right fun ⟨index, hindex, _⟩ => ?_)⟩
  have hlt : i < e.indexes.size := (Array.getElem?_eq_some_iff.1 hindex).1
  simp [List.mem_filter, hlt]

theorem reclaim_holding (e : Engine) : Ensures reclaim e fun _ e' => e'.Holding := by
  refine (ensures_reclaim e).mono ?_
  rintro _ e' ⟨-, hsame, hlives⟩ i hi
  rw [hsame.holds_eq]
  exact ((hlives i).1 hi).2

theorem retireAll_idle {ids : List IndexId} (h : ∀ id ∈ ids, ¬ e.Lives id) :
    Ensures (retireAll ids) e fun r e' => r = .ok () ∧ e' = e := by
  induction ids with
  | nil => exact ⟨rfl, rfl⟩
  | cons id rest ih =>
    rw [List.forall_mem_cons] at h
    refine (retire_idle h.1).bind_ok ?_
    rintro _ rfl
    exact ih h.2

/-- As long as all indexes with segments are held, there is nothing to reclaim. -/
theorem reclaim_idle (h : e.Holding) : Ensures reclaim e fun r e' => r = .ok () ∧ e' = e := by
  rw [reclaim, ensures_get_bind]
  refine retireAll_idle fun id hid hlives => ?_
  rw [List.mem_filter, h id hlives] at hid
  exact absurd hid.2 (by decide)

end Catalog
end SecondaryIndex
