import SecondaryIndex.Proofs.Account.Steps
import SecondaryIndex.Proofs.Candidates
import SecondaryIndex.Proofs.Holding.Kept
import SecondaryIndex.Proofs.Selecting

namespace SecondaryIndex

open Loan

def ColumnIndex.view (index : ColumnIndex) : List Segment :=
  if index.retired then [] else index.snapshot.segments

def Session.pins (s : Session) : List DataFile := if s.finished then [] else s.scope

namespace Engine

def views (e : Engine) : List Segment := e.indexes.toList.flatMap ColumnIndex.view

def scopes (e : Engine) : List DataFile := e.sessions.toList.flatMap Session.pins

end Engine

/-- What has been made so far, and what of it is still with the one who made it: files that the base
table has not got, and segments that no catalog has got. -/
structure Ledger where
  files : List DataFile := []
  segments : List Segment := []
  fresh : List DataFile := []
  loose : List Segment := []

namespace Ledger

/-- The account is balanced, and nobody holds anything twice. `extra` are files with a further
reference. -/
structure Covers (l : Ledger) (extra : List DataFile) (e : Engine) : Prop where
  balanced : Balanced e l.files l.segments (e.views ++ l.loose)
    (extra ++ (e.live ++ l.fresh ++ e.scopes))
  handed : (e.views ++ l.loose).Nodup
  single : (e.live ++ l.fresh).Nodup
  distinct : ∀ (k : Nat) s, e.sessions[k]? = some s → s.scope.Nodup
  stored : ∀ (i : IndexId) index, e.indexes[i]? = some index →
    index.snapshot.Built ∧ ∀ s ∈ index.snapshot.segments, s ∈ l.segments
  current : ∀ (column : String) i, e.published[column]? = some i → e.Lives i

namespace Covers

variable {l : Ledger} {extra : List DataFile} {e e' : Engine}

theorem indexed (h : l.Covers extra e) : e.Indexed := fun i index hi => (h.stored i index hi).1

theorem relieved {loose : List Segment} {extra' : List DataFile} (h : l.Covers extra e)
    (hf : Frame e e') (hloose : loose.Sublist l.loose)
    (hb : Balanced e' l.files l.segments (e.views ++ loose)
      (extra' ++ (e.live ++ l.fresh ++ e.scopes))) :
    ({ l with loose } : Ledger).Covers extra' e' where
  balanced := by
    rw [Engine.views, hf.indexes, hf.live, Engine.scopes, hf.sessions]
    exact hb
  handed := by
    rw [Engine.views, hf.indexes]
    exact h.handed.sublist (hloose.append_left _)
  single := hf.live ▸ h.single
  distinct := hf.sessions ▸ h.distinct
  stored := hf.indexes ▸ h.stored
  current column i hi := by
    rw [Engine.Lives, hf.indexes]
    exact h.current column i (hf.published ▸ hi)

/-- A step within the frame only has to keep the account balanced. -/
theorem framed {extra' : List DataFile} (h : l.Covers extra e) (hf : Frame e e')
    (hb : Balanced e' l.files l.segments (e.views ++ l.loose)
      (extra' ++ (e.live ++ l.fresh ++ e.scopes))) : l.Covers extra' e' :=
  h.relieved hf (.refl _) hb

theorem views_updateIndex {i : IndexId} {index : ColumnIndex} (hi : e.indexes[i]? = some index)
    (change : ColumnIndex → ColumnIndex) : ∃ rest, e.views.Perm (index.view ++ rest) ∧
      (e.updateIndex i change).views.Perm ((change index).view ++ rest) := by
  have hi' : e.indexes.toList[i]? = some index := by rwa [Array.getElem?_toList]
  obtain ⟨rest, h, h'⟩ := drop_modify_flatMap (g := ColumnIndex.view) change (Nat.zero_le i) hi'
    fun _ => rfl
  refine ⟨rest, h, ?_⟩
  rw [Engine.views, Engine.updateIndex, Array.toList_modify]
  exact h'

theorem lives_updateIndex {i j : IndexId} {change : ColumnIndex → ColumnIndex} (h : e.Lives j)
    (hchange : i = j → ∀ index, index.retired = false → (change index).retired = false) :
    (e.updateIndex i change).Lives j := by
  obtain ⟨index, hj, hlive⟩ := h
  rw [Engine.Lives, Engine.updateIndex]
  simp only [Array.getElem?_modify]
  split
  next hij => exact ⟨change index, by rw [hj]; rfl, hchange hij index hlive⟩
  next => exact ⟨index, hj, hlive⟩

theorem reindexed {i : IndexId} {index : ColumnIndex} {change : ColumnIndex → ColumnIndex}
    {loose : List Segment} (h : l.Covers extra e) (hi : e.indexes[i]? = some index)
    (hf : Frame (e.updateIndex i change) e')
    (hlives : ∀ column : String, e.published[column]? = some i →
      ∀ x, x.retired = false → (change x).retired = false)
    (hstored : (change index).snapshot.Built ∧
      ∀ s ∈ (change index).snapshot.segments, s ∈ l.segments)
    (hhanded : ((e.updateIndex i change).views ++ loose).Nodup)
    (hb : Balanced e' l.files l.segments ((e.updateIndex i change).views ++ loose)
      (extra ++ (e.live ++ l.fresh ++ e.scopes))) :
    ({ l with loose } : Ledger).Covers extra e' where
  balanced := by
    rw [Engine.views, hf.indexes, hf.live, Engine.scopes, hf.sessions]
    exact hb
  handed := by
    rw [Engine.views, hf.indexes]
    exact hhanded
  single := by
    rw [hf.live]
    exact h.single
  distinct := by
    rw [hf.sessions]
    exact h.distinct
  stored j index' hj := by
    rw [hf.indexes, Engine.updateIndex, Array.getElem?_modify] at hj
    split at hj
    next hij =>
      rw [← hij, hi] at hj
      cases hj
      exact hstored
    next => exact h.stored j index' hj
  current column j hj := by
    rw [hf.published] at hj
    rw [Engine.Lives, hf.indexes]
    exact lives_updateIndex (h.current column j hj) fun hij => hlives column (hij ▸ hj)

theorem retire {i : IndexId} (h : l.Covers extra e)
    (hi : ∀ column : String, e.published[column]? ≠ some i) :
    Ensures (Catalog.retire i) e fun r e' => r = .ok () ∧ e'.published = e.published ∧
      e'.sessions = e.sessions ∧ l.Covers extra e' := by
  by_cases hlives : e.Lives i
  swap
  · refine (Catalog.retire_idle hlives).mono ?_
    rintro r _ ⟨hr, he⟩
    rw [he]
    exact ⟨hr, rfl, rfl, h⟩
  obtain ⟨index, hindex, hlive⟩ := hlives
  obtain ⟨rest, hviews, hviews'⟩ :=
    views_updateIndex hindex fun index => { index with retired := true }
  rw [ColumnIndex.view, hlive, if_neg Bool.false_ne_true] at hviews
  rw [ColumnIndex.view, if_pos rfl, List.nil_append] at hviews'
  rw [Catalog.ensures_retire hindex hlive]
  have hbalanced : Balanced (e.updateIndex i fun index => { index with retired := true }) l.files
      l.segments (index.snapshot.segments ++
        ((e.updateIndex i fun index => { index with retired := true }).views ++ l.loose))
      (extra ++ (e.live ++ l.fresh ++ e.scopes)) := by
    refine (h.balanced.perm ?_ (.refl _)).congr rfl rfl rfl
    rw [← List.append_assoc]
    exact (hviews.trans (hviews'.symm.append_left _)).append_right _
  refine Ensures.and (R := fun r _ => r = .ok ()) (Act.allQuietly_fst _ _ _) ?_
  refine (Ensures.and ((Segment.framed_releaseAll _).frame _) hbalanced.releaseAll).mono ?_
  rintro _ e₂ ⟨hf, -, hb⟩
  refine ⟨hf.published, hf.sessions, h.reindexed hindex hf (fun column hcolumn => ?_)
    (h.stored i index hindex) ?_ hb⟩
  · exact absurd hcolumn (hi column)
  · have hnodup := (hviews.append_right l.loose).nodup_iff.1 h.handed
    rw [List.append_assoc] at hnodup
    exact (hviews'.append_right l.loose).nodup_iff.2 hnodup.of_append_right

theorem retireAll {ids : List IndexId} (h : l.Covers extra e)
    (hids : ∀ i ∈ ids, ∀ column : String, e.published[column]? ≠ some i) :
    Ensures (Catalog.retireAll ids) e fun r e' => r = .ok () ∧ e'.sessions = e.sessions ∧
      l.Covers extra e' := by
  induction ids generalizing e with
  | nil => exact ⟨rfl, rfl, h⟩
  | cons i rest ih =>
    rw [Catalog.retireAll]
    refine (h.retire (hids i (by simp))).bind_ok ?_
    rintro e₁ ⟨hp, hs, h₁⟩
    refine (ih h₁ fun j hj => hp ▸ hids j (List.mem_cons_of_mem i hj)).mono ?_
    rintro _ _ ⟨hr, hs', h₂⟩
    exact ⟨hr, hs'.trans hs, h₂⟩

theorem reclaim (h : l.Covers extra e) :
    Ensures Catalog.reclaim e fun r e' => r = .ok () ∧ e'.sessions = e.sessions ∧
      l.Covers extra e' := by
  rw [Catalog.reclaim, ensures_get_bind]
  refine h.retireAll fun i hi column hcolumn => ?_
  have hheld : e.holds i = true := Engine.holds_iff.2 (.inl ⟨column, hcolumn⟩)
  rw [List.mem_filter, hheld] at hi
  exact absurd hi.2 (by decide)

theorem unpublished (h : l.Covers extra e) {published : Std.TreeMap String IndexId}
    (hp : ∀ (column : String) i, published[column]? = some i → ∃ other : String,
      e.published[other]? = some i) : l.Covers extra { e with published } where
  __ := h
  balanced := h.balanced.congr rfl rfl rfl
  current column i hi := by
    obtain ⟨other, hother⟩ := hp column i hi
    exact h.current other i hother

theorem register (h : l.Covers extra e) (column : String) (type : Option ValueType) :
    Ensures (Catalog.register column type) e fun _ e' => l.Covers extra e' := by
  rw [Catalog.register]
  split
  · exact h
  rw [ensures_get_bind]
  split
  · exact h
  · exact h
  · exact { h with balanced := h.balanced.congr rfl rfl rfl }

theorem createIndex (h : l.Covers extra e) (column : String) :
    Ensures (Catalog.createIndex column) e fun _ e' => l.Covers extra e' := by
  rw [Catalog.createIndex, ensures_get_bind]
  split
  · exact h
  · exact h
  next type _ _ =>
    rw [ensures_set_bind, ensures_pure]
    generalize he' : ({ e with
      indexes := e.indexes.push (.create column type)
      published := e.published.insert column e.indexes.size } : Engine) = e'
    have hviews : e'.views = e.views := by
      rw [Engine.views, ← he', Array.toList_push, List.flatMap_append]
      exact List.append_nil _
    have hold : ∀ i, e.Lives i → e'.Lives i := by
      rintro i ⟨index, hi, hlive⟩
      have hlt := (Array.getElem?_eq_some_iff.1 hi).1
      refine ⟨index, ?_, hlive⟩
      rw [← he', Array.getElem?_push, if_neg (Nat.ne_of_lt hlt), hi]
    refine ⟨?_, hviews ▸ h.handed, ?_, ?_, ?_, ?_⟩
    · rw [hviews, ← he']
      exact h.balanced.congr rfl rfl rfl
    · rw [← he']
      exact h.single
    · rw [← he']
      exact h.distinct
    · rw [← he']
      intro i index hi
      rw [Array.getElem?_push] at hi
      split at hi
      · cases hi
        refine ⟨Snapshot.built_empty type, ?_⟩
        rintro _ ⟨⟩
      · exact h.stored i index hi
    · intro other i hi
      rw [← he', Std.TreeMap.getElem?_insert] at hi
      split at hi
      · cases hi
        rw [← he']
        exact ⟨_, Array.getElem?_push_size, rfl⟩
      · exact hold i (h.current other i hi)

theorem dropIndex (h : l.Covers extra e) (column : String) :
    Ensures (Catalog.dropIndex column) e fun _ e' => l.Covers extra e' := by
  rw [Catalog.dropIndex, ensures_get_bind]
  split
  · exact h
  rw [ensures_modify_bind]
  refine (reclaim (h.unpublished fun other i hi => ⟨other, ?_⟩)).bind (fun _ _ h => h.2.2)
    fun _ _ h => h.2.2
  rw [Std.TreeMap.getElem?_erase] at hi
  split at hi
  · cases hi
  · exact hi

theorem rehandled (h : l.Covers extra e) (handles : List IndexId) :
    l.Covers extra { e with handles } :=
  { h with balanced := h.balanced.congr rfl rfl rfl }

theorem share (h : l.Covers extra e) (id : IndexId) :
    Ensures (Catalog.share id) e fun _ e' => l.Covers extra e' := by
  rw [Catalog.share, ensures_modify]
  split
  · exact h.rehandled _
  · exact h

theorem letGo (h : l.Covers extra e) (id : IndexId) :
    Ensures (Catalog.letGo id) e fun _ e' => l.Covers extra e' := by
  rw [Catalog.letGo, ensures_modify_bind]
  exact (h.rehandled _).reclaim.mono fun _ _ h => h.2.2

theorem shutdownCatalog (h : l.Covers extra e) :
    Ensures Catalog.shutdown e fun _ e' => l.Covers extra e' := by
  rw [Catalog.shutdown, ensures_modify_bind]
  refine (reclaim (h.unpublished fun other i hi => ?_)).mono fun _ _ h => h.2.2
  rw [Std.TreeMap.getElem?_emptyc] at hi
  cases hi

theorem of_columnIndexOn? {column : String} {i : IndexId} {index : ColumnIndex}
    (h : e.columnIndexOn? column = some (i, index)) :
    e.published[column]? = some i ∧ e.indexes[i]? = some index := by
  simp only [Engine.columnIndexOn?, Option.bind_eq_bind, Option.bind_eq_some_iff, Option.pure_def,
    Option.some.injEq] at h
  obtain ⟨j, hj, index', hindex, hpair⟩ := h
  cases hpair
  exact ⟨hj, hindex⟩

theorem enter (h : l.Covers extra e) (token : Token) (column : String) (value : Bytes) :
    Ensures (Catalog.enter token column value) e fun _ e' => l.Covers extra e' := by
  rw [Catalog.enter, ensures_get_bind]
  split
  · exact h
  next i index hcolumn =>
    obtain ⟨-, hi⟩ := of_columnIndexOn? hcolumn
    rw [Act.ensures_settle_bind]
    split
    swap
    · exact h
    next memtable _ =>
    rw [ensures_modify_bind, ensures_pure]
    obtain ⟨rest, hviews, hviews'⟩ := views_updateIndex hi fun index => { index with memtable }
    have hperm : e.views.Perm (e.updateIndex i fun index => { index with memtable }).views :=
      hviews.trans hviews'.symm
    refine h.reindexed hi (.refl _) (fun _ _ _ hx => hx) (h.stored i index hi) ?_ ?_
    · exact (hperm.append_right _).nodup_iff.1 h.handed
    · exact (h.balanced.perm (hperm.append_right _) (.refl _)).congr rfl rfl rfl

theorem perm_append_filter {α : Type} [DecidableEq α] {l taken : List α} (hl : l.Nodup)
    (htaken : taken.Nodup) (hsub : ∀ a ∈ taken, a ∈ l) :
    l.Perm (taken ++ l.filter (· ∉ taken)) := by
  have hfilter : (l.filter (· ∈ taken)).Perm taken := by
    refine (List.perm_ext_iff_of_nodup (hl.filter _) htaken).2 fun a => ?_
    rw [List.mem_filter, decide_eq_true_eq]
    exact ⟨And.right, fun ha => ⟨hsub a ha, ha⟩⟩
  refine (List.filter_append_perm (· ∈ taken) l).symm.trans (hfilter.append ?_)
  refine .of_eq (List.filter_congr fun a _ => ?_)
  rw [decide_not]

section

variable {segments loose : List Segment}

theorem refuse (h : l.Covers extra e) (hperm : l.loose.Perm (segments ++ loose))
    (hsub : loose.Sublist l.loose) :
    Ensures (Segment.releaseAll segments) e fun _ e' =>
      ({ l with loose } : Ledger).Covers extra e' := by
  have hheld : (e.views ++ l.loose).Perm (segments ++ (e.views ++ loose)) :=
    (hperm.append_left e.views).trans (List.perm_append_comm_assoc _ _ _)
  refine (Ensures.and ((Segment.framed_releaseAll segments).frame e)
    (h.balanced.perm hheld (.refl _)).releaseAll).mono ?_
  rintro _ e' ⟨hf, -, hb⟩
  exact h.relieved hf hsub hb

/-- An index takes on a new snapshot, and what is excluded from it is released. -/
theorem renew {i : IndexId} {index : ColumnIndex} {excludes : DataFile → Bool} {next : Snapshot}
    (h : l.Covers extra e) (hperm : l.loose.Perm (segments ++ loose))
    (hi : e.indexes[i]? = some index) (hlive : index.retired = false)
    (hbuilt : next.Built) (hsegments : next.segments =
      (Snapshot.select excludes (index.snapshot.segments ++ segments)).kept) :
    Ensures (Segment.releaseAll
        (Snapshot.select excludes (index.snapshot.segments ++ segments)).excluded) e fun r e' =>
      r = .ok () ∧ ({ l with loose } : Ledger).Covers extra
        (e'.updateIndex i fun index => { index with snapshot := next }) := by
  have hkept := Snapshot.perm_select excludes (index.snapshot.segments ++ segments)
  generalize Snapshot.select excludes (index.snapshot.segments ++ segments) = sel
    at hsegments hkept
  obtain ⟨rest, hviews, hviews'⟩ := views_updateIndex hi fun index =>
    { index with snapshot := next }
  rw [ColumnIndex.view, hlive, if_neg Bool.false_ne_true] at hviews
  rw [ColumnIndex.view, hlive, if_neg Bool.false_ne_true, hsegments] at hviews'
  -- Old and new segments stand in the next snapshot, or are excluded and so released.
  have hheld : (e.views ++ l.loose).Perm (sel.excluded ++
      ((e.updateIndex i fun index => { index with snapshot := next }).views ++ loose)) := by
    refine List.perm_iff_count.2 fun s => ?_
    have h₁ := hviews.count_eq s
    have h₂ := hviews'.count_eq s
    have h₃ := hkept.count_eq s
    have h₄ := hperm.count_eq s
    simp only [List.count_append] at h₁ h₂ h₃ h₄ ⊢
    omega
  refine Ensures.and (R := fun r _ => r = .ok ()) (Act.allQuietly_fst _ _ _) ?_
  refine (Ensures.and ((Segment.framed_releaseAll sel.excluded).frame e)
    (h.balanced.perm hheld (.refl _)).releaseAll).mono ?_
  rintro _ e₁ ⟨hf, -, hb⟩
  refine h.reindexed hi (hf.updateIndex i _) (fun _ _ _ hx => hx) ⟨hbuilt, fun s hs => ?_⟩ ?_
    (hb.congr rfl rfl rfl)
  · refine hb.holders s (List.mem_append_left _ (hviews'.mem_iff.2 ?_))
    rw [hsegments] at hs
    exact List.mem_append_left _ hs
  · exact (hheld.nodup_iff.1 h.handed).of_append_right

end

/-- Segments are the catalog's once they are handed over, whatever becomes of them. -/
theorem attach (h : l.Covers extra e) (column : String) (dropped : List DataFile)
    {segments : List Segment} (hnodup : segments.Nodup) (hloose : ∀ s ∈ segments, s ∈ l.loose) :
    Ensures (Catalog.attach column dropped segments) e fun _ e' =>
      ({ l with loose := l.loose.filter (· ∉ segments) } : Ledger).Covers extra e' := by
  have hperm := perm_append_filter h.handed.of_append_right hnodup hloose
  have hrefuse := h.refuse hperm List.filter_sublist
  rw [Catalog.attach, ensures_get_bind]
  split
  · exact hrefuse.bind (fun _ _ h => h) fun _ _ h => h
  next i index hcolumn =>
  obtain ⟨hpublished, hi⟩ := of_columnIndexOn? hcolumn
  obtain ⟨index', hi', hlive⟩ := h.current column i hpublished
  cases hi.symm.trans hi'
  rw [ensures_bind, Act.ensures_attempt, Snapshot.update, ensures_get_bind, Act.ensures_settle_bind]
  simp only
  split
  next snapshot hbuild =>
    obtain ⟨hsegments, -, hbuilt, -, -⟩ := Snapshot.built_of_build hbuild
    exact (h.renew hperm hi hlive hbuilt hsegments).bind_ok fun _ h => h
  next f _ => exact hrefuse.bind (fun _ _ h => h) fun _ _ h => h

end Covers
end Ledger
end SecondaryIndex
