import SecondaryIndex.Proofs.Columns
import SecondaryIndex.Proofs.Pruning
import SecondaryIndex.Proofs.Soundness

namespace SecondaryIndex

/-- Whether some postings have a row under a term that meets the condition. -/
def Postings.Has (p : Postings) (c : Condition) (t : Token) : Prop :=
  ∃ entry ∈ p.entries, c.meets entry.term = true ∧ t ∈ entry.tokens

namespace Segment

/-- A segment in memory was opened over filled postings, whose rows are those of its data file. As
long as it is referenced, its reader is open. -/
structure InMemory (e : Engine) (type : ValueType) (s : Segment) (p : Postings) : Prop where
  opened : s.OpenedOver e type p
  unclosed : e.refs s ≠ 0 → ∀ state, e.segment? s = some state → state.reader.closes = 0
  within : ∀ t ∈ p.tokens, s.file.minKey ≤ t ∧ t ≤ s.file.maxKey

/-- Whether the entries of a segment have a row for the condition. -/
def Has (e : Engine) (s : Segment) (c : Condition) (t : Token) : Prop :=
  ∃ state p, e.segment? s = some state ∧ state.reader.store = .memory p ∧ p.Has c t

variable {e : Engine} {type : ValueType} {s : Segment} {p : Postings} {c : Condition} {t : Token}

theorem InMemory.of_state {state : SegmentState} (pairs : List (Bytes × Token))
    (hp : ({ type } : Postings).addAll pairs = .ok p) (hspans : s.Spans p)
    (hstate : e.segment? s = some state) (hstore : state.reader.store = .memory p)
    (hopen : state.refs ≠ 0 → state.reader.closes = 0)
    (hwithin : ∀ t ∈ p.tokens, s.file.minKey ≤ t ∧ t ≤ s.file.maxKey) : s.InMemory e type p where
  opened := ⟨⟨pairs, hp⟩, hspans, state, hstate, hstore⟩
  unclosed hrefs state' hstate' := by
    rw [hstate] at hstate'
    cases hstate'
    rw [Engine.refs, hstate] at hrefs
    exact hopen hrefs
  within := hwithin

theorem OpenedOver.has_iff (h : s.OpenedOver e type p) : s.Has e c t ↔ p.Has c t := by
  obtain ⟨-, -, state, hstate, hstore⟩ := h
  constructor
  · intro ⟨state', p', hstate', hstore', hp'⟩
    rw [hstate] at hstate'
    cases hstate'
    rw [hstore] at hstore'
    cases hstore'
    exact hp'
  · exact fun hp => ⟨state, p, hstate, hstore, hp⟩

theorem OpenedOver.sorted (h : s.OpenedOver e type p) : p.Sorted ∧ p.type = type := by
  obtain ⟨⟨pairs, hp⟩, -⟩ := h
  exact Postings.sorted_addAll (Postings.sorted_empty type) hp

theorem search_memory {r : Reader} {ts : List Token} (hstore : r.store = .memory p)
    (hopen : r.closes = 0) (hp : p.search c = .ok ts) :
    (∃ found, r.search c = .ok found ∧ ∀ f ∈ found, f.closeFault = none) ∧ r.found c = ts := by
  have hsearch : r.search c = .ok (if ts.isEmpty then none else some { tokens := ts }) := by
    unfold Reader.search
    rw [hstore, hopen]
    dsimp only
    rw [hp]
    rfl
  constructor
  · refine ⟨_, hsearch, fun f hf => ?_⟩
    split at hf
    · cases hf
    · cases hf
      rfl
  · unfold Reader.found
    rw [hsearch]
    cases ts <;> rfl

theorem InMemory.search (h : s.InMemory e type p) (hsound : Postings.Sound type p.entries)
    (htype : c.type = type) (hc : c.WellFormed) (hrefs : e.refs s ≠ 0) {state : SegmentState}
    (hstate : e.segment? s = some state) :
    (∃ found, state.reader.search c = .ok found ∧ ∀ f ∈ found, f.closeFault = none) ∧
      ∀ t, t ∈ state.reader.found c ↔ s.Has e c t := by
  obtain ⟨hsorted, hptype⟩ := h.opened.sorted
  obtain ⟨ts, hts, -, hmem⟩ :=
    Postings.search_eq hsorted (hptype ▸ hsound) (htype.trans hptype.symm) hc
  obtain ⟨-, -, state', hstate', hstore⟩ := h.opened
  rw [hstate] at hstate'
  cases hstate'
  obtain ⟨hsearch, hfound⟩ := search_memory hstore (h.unclosed hrefs state hstate) hts
  refine ⟨hsearch, fun t => ?_⟩
  rw [hfound, hmem, h.opened.has_iff]
  rfl

theorem InMemory.answers (h : s.InMemory e type p) (hsound : Postings.Sound type p.entries)
    (htype : c.type = type) (hc : c.WellFormed) (hsmall : (e.stored c s).length < 2 ^ 64) :
    s.Answers e c where
  searched hrefs _ hstate := (h.search hsound htype hc hrefs hstate).1
  small := hsmall

theorem InMemory.mem_stored (h : s.InMemory e type p) (hsound : Postings.Sound type p.entries)
    (htype : c.type = type) (hc : c.WellFormed) :
    t ∈ e.stored c s ↔ e.refs s ≠ 0 ∧ s.Has e c t := by
  unfold Engine.stored
  by_cases hrefs : e.refs s = 0
  · rw [if_pos hrefs]
    exact ⟨fun ht => (List.not_mem_nil ht).elim, fun ht => absurd hrefs ht.1⟩
  · obtain ⟨-, -, state, hstate, -⟩ := h.opened
    rw [if_neg hrefs, hstate, Option.map_some, Option.getD_some,
      (h.search hsound htype hc hrefs hstate).2]
    exact ⟨fun ht => ⟨hrefs, ht⟩, fun ht => ht.2⟩

end Segment

/-- The memtable of a column holds well-formed values, and its segments are in memory. -/
structure ColumnIndex.Stocked (e : Engine) (index : ColumnIndex) : Prop where
  memtable : Postings.Sound index.type index.memtable.entries
  segments : ∀ s ∈ index.snapshot.segments, ∃ p, s.InMemory e index.type p

def Engine.Stocked (e : Engine) (column : String) : Prop :=
  ∀ i index, e.columnIndexOn? column = some (i, index) → index.Stocked e

theorem Engine.stocked_of_text {e : Engine} (h : ∀ index ∈ e.indexes.toList, index.type = .text ∧
    ∀ s ∈ index.snapshot.segments, ∃ p, s.InMemory e .text p) (column : String) :
    e.Stocked column := by
  intro i index hi
  have hindex := Array.mem_toList_iff.2 (Array.mem_of_getElem? (Engine.columnIndexOn_some hi))
  obtain ⟨htype, hsegments⟩ := h index hindex
  rw [← htype] at hsegments
  refine ⟨?_, hsegments⟩
  rw [htype]
  exact fun _ _ => nofun

theorem Condition.wellFormed_of_text {c : Condition} (h : c.type = .text) : c.WellFormed := by
  refine ⟨fun b _ => ?_, fun b _ => ?_, fun v _ => ?_⟩
  · rw [h]
    exact nofun
  · rw [h]
    exact nofun
  · rw [h]
    rfl

/-- What the indexes of reachable engines have, so that searches find what they should. -/
structure Engine.Searchable (e : Engine) : Prop where
  typed : e.Typed
  orderly : e.Each ColumnIndex.Orderly
  sorted : e.Each fun index => index.memtable.Sorted

theorem Reachable.searchable {e : Engine} (h : Reachable e) : e.Searchable :=
  ⟨h.typed, h.orderly, h.sorted⟩

theorem Engine.Searchable.indexed {e : Engine} (h : e.Searchable) : e.Indexed :=
  fun i index hi => (h.orderly i index hi).built

/-- Whether an entry of the column of a condition meets it, in the memtable or in a counted
segment. -/
def Engine.Matches (e : Engine) (counted : Segment → Prop) (c : Condition) (t : Token) : Prop :=
  ∃ i index, e.columnIndexOn? c.column = some (i, index) ∧
    (index.memtable.Has c t ∨ ∃ s ∈ index.snapshot.segments, counted s ∧ s.Has e c t)

/-- Whether some condition of a query matches a row. -/
def Query.Matches (e : Engine) (counted : Segment → Prop) (q : Query) (t : Token) : Prop :=
  ∃ group ∈ q.groups, ∃ c ∈ group, e.Matches counted c t

/-- A segment of a live data file that has not been released. -/
def Engine.Serving (e : Engine) (s : Segment) : Prop := s.file ∈ e.live ∧ e.refs s ≠ 0

theorem Snapshot.eq_empty_of_nil {v : Snapshot} (hbuilt : v.Built) (h : v.segments = []) :
    v = .empty v.type := by
  have hnil := build_nil v.type
  rw [← h, hbuilt] at hnil
  exact Except.ok.inj hnil

/-- The candidates of a snapshot are segments in scope, and no segment in scope with an entry that
meets the condition is missing. -/
theorem Snapshot.candidates_complete {v : Snapshot} (hbuilt : v.Built)
    (hrising : v.segments.Pairwise (·.generation < ·.generation)) (scope : List DataFile)
    {c : Condition} (htype : c.type = v.type) (hc : c.WellFormed) :
    ∃ found, v.candidates scope c = .ok found ∧ ∀ s ∈ v.segments, s.file ∈ scope →
      ∀ p, s.Spans p → Postings.Rising v.type p.entries → ∀ t, p.Has c t → s ∈ found := by
  -- Without segments there are no bounds to search by, and nothing to be found.
  by_cases hsome : v.segments = []
  · refine ⟨[], ?_, fun s hs => ?_⟩
    · rw [eq_empty_of_nil hbuilt hsome]
      rfl
    · rw [hsome] at hs
      exact (List.not_mem_nil hs).elim
  · obtain ⟨least, greatest, found, -, hcover, hfound, hexact⟩ :=
      candidates_exact hbuilt hrising hsome scope htype hc
    refine ⟨found, hfound, fun s hs hscope p hspans hterms t ⟨entry, hentry, hmeets, _⟩ => ?_⟩
    have hsound := sound_of_spans hbuilt hs hspans hterms
    exact (hexact s).2 ⟨hs, hscope,
      overlaps_of_meets hbuilt hcover hs hspans hterms hsound htype hc hentry hmeets⟩

namespace Condition

variable {e : Engine} {scope : List DataFile} {group : Group} {c d : Condition} {t : Token}
  {index : ColumnIndex}

/-- A condition that is up to an index, made of a column of the catalog. -/
structure Posed (e : Engine) (c : Condition) : Prop where
  eligible : c.eligible = true
  wellFormed : c.WellFormed
  current : c.Current e

structure Answerable (e : Engine) (c : Condition) : Prop extends c.Posed e where
  stocked : e.Stocked c.column

/-- A condition and the index that it carries, which stands on its column. -/
structure Carries (e : Engine) (c : Condition) (index : ColumnIndex) : Prop where
  answerable : c.Answerable e
  carried : ∃ i, c.index = some i ∧ e.indexes[i]? = some index ∧
    e.columnIndexOn? c.column = some (i, index)
  type : c.type = index.type
  orderly : index.Orderly
  sorted : index.memtable.Sorted
  stocked : index.Stocked e

theorem Answerable.carries (h : c.Answerable e) (he : e.Searchable) :
    ∃ index, c.Carries e index := by
  obtain ⟨i, index, hi, hindex, htype, hon⟩ := h.current.index he.typed h.eligible
  exact ⟨index, h, ⟨i, hi, hindex, hon⟩, htype, he.orderly i index hindex,
    he.sorted i index hindex, h.stocked i index hon⟩

theorem Current.eq_of_same (hc : c.Current e) (hd : d.Current e) (h : c.same d) : c = d := by
  obtain ⟨hcolumn, hpredicate⟩ := same_iff.1 h
  obtain ⟨column, hon, hc⟩ := hc
  obtain ⟨column', hon', hd⟩ := hd
  rw [hcolumn, hon'] at hon
  cases hon
  rw [hpredicate, hd] at hc
  exact (Except.ok.inj hc).symm

theorem consistent_of_current (h : ∀ c ∈ group, c.Current e) : group.Consistent := by
  intro c hc d hd hcolumn
  obtain ⟨column, hon, hc⟩ := h c hc
  obtain ⟨column', hon', hd⟩ := h d hd
  rw [hcolumn, hon'] at hon
  cases hon
  unfold on at hc hd
  cases htype : column.type with
  | none =>
    rw [htype] at hc
    cases hc
  | some type =>
    rw [htype] at hc hd
    rw [← Except.ok.inj hc, ← Except.ok.inj hd]
    exact ⟨rfl, rfl⟩

namespace Carries

theorem viewed (h : c.Carries e index) : e.viewed c = index.snapshot.segments := by
  obtain ⟨i, hi, hindex, -⟩ := h.carried
  exact Engine.viewed_eq hi hindex

theorem searched (h : c.Carries e index) : (∃ ts, index.memtable.search c = .ok ts) ∧
    ∀ t, t ∈ e.entered c ↔ index.memtable.Has c t := by
  obtain ⟨i, hi, hindex, -⟩ := h.carried
  obtain ⟨ts, hts, -, hmem⟩ := Postings.search_eq h.sorted
    (h.orderly.memtable_type ▸ h.stocked.memtable) (h.type.trans h.orderly.memtable_type.symm)
    h.answerable.wellFormed
  refine ⟨⟨ts, hts⟩, fun t => ?_⟩
  rw [Engine.entered, hi, Option.bind_some, hindex, Option.map_some, Option.getD_some,
    Postings.found, hts]
  exact hmem t

section

variable {s : Segment} (h : c.Carries e index) (hs : s ∈ index.snapshot.segments)
include h hs

theorem exists_inMemory : ∃ p, s.InMemory e index.type p ∧ Postings.Rising index.type p.entries ∧
    Postings.Sound index.type p.entries := by
  obtain ⟨p, hp⟩ := h.stocked.segments s hs
  obtain ⟨hsorted, hptype⟩ := hp.opened.sorted
  have hrising : Postings.Rising index.type p.entries := hptype ▸ hsorted.rising
  refine ⟨p, hp, hrising, ?_⟩
  rw [← h.orderly.snapshot_type] at hrising ⊢
  exact Snapshot.sound_of_spans h.orderly.built hs hp.opened.2.1 hrising

theorem answers (hsmall : (e.stored c s).length < 2 ^ 64) : s.Answers e c := by
  obtain ⟨p, hp, -, hsound⟩ := h.exists_inMemory hs
  exact hp.answers hsound h.type h.answerable.wellFormed hsmall

theorem mem_stored : t ∈ e.stored c s ↔ e.refs s ≠ 0 ∧ s.Has e c t := by
  obtain ⟨p, hp, -, hsound⟩ := h.exists_inMemory hs
  exact hp.mem_stored hsound h.type h.answerable.wellFormed

theorem within (hhas : s.Has e c t) : s.file.minKey ≤ t ∧ t ≤ s.file.maxKey := by
  obtain ⟨p, hp, -⟩ := h.exists_inMemory hs
  obtain ⟨entry, hentry, -, ht⟩ := hp.opened.has_iff.1 hhas
  exact hp.within t (List.mem_flatMap.2 ⟨entry, hentry, ht⟩)

end

/-- Searching the files that a range touches finds only what a scan finds. -/
theorem matches_of_hits (h : c.Carries e index) {range : Option KeyRange}
    (hhits : e.Hits (BaseTable.touched e.live range) c t) : e.Matches e.Serving c t := by
  obtain ⟨i, -, -, hon⟩ := h.carried
  refine ⟨i, index, hon, hhits.imp (h.searched.2 t).1 ?_⟩
  rw [h.viewed]
  intro ⟨s, hs, hscope, ht⟩
  obtain ⟨hrefs, hhas⟩ := (h.mem_stored hs).1 ht
  -- Without a range no file is in scope at all.
  have hlive : s.file ∈ e.live := by
    cases range with
    | none => cases hscope
    | some range => exact List.mem_of_mem_filter hscope
  exact ⟨s, hs, ⟨hlive, hrefs⟩, hhas⟩

/-- A row in range that a scan finds is in the files that the range touches. -/
theorem hits_of_matches (h : c.Carries e index) {range : KeyRange} (ht : range.contains t = true)
    (hmatches : e.Matches e.Serving c t) :
    e.Hits (BaseTable.touched e.live (some range)) c t := by
  obtain ⟨i, -, -, hon⟩ := h.carried
  obtain ⟨i', index', hon', hmatches⟩ := hmatches
  rw [hon] at hon'
  cases hon'
  refine hmatches.imp (h.searched.2 t).2 ?_
  rw [h.viewed]
  intro ⟨s, hs, ⟨hlive, hrefs⟩, hhas⟩
  -- The row itself is what the range and the file have in common.
  have hwithin := h.within hs hhas
  have hmeets : s.file.meets range = true :=
    (KeyRange.meets_iff (Int.le_trans hwithin.1 hwithin.2)).2 ⟨t, ht, hwithin⟩
  exact ⟨s, hs, List.mem_filter.2 ⟨hlive, hmeets⟩, (h.mem_stored hs).2 ⟨hrefs, hhas⟩⟩

end Carries
end Condition

namespace Candidate

variable {e : Engine} {scope : List DataFile} {group : Group} {c : Condition} {t : Token}
  {index : ColumnIndex}

theorem snapshotFor_eq (h : c.Carries e index) (hgroup : group.Consistent) (hc : c ∈ group) :
    snapshotFor e group c = some index.snapshot := by
  obtain ⟨i, hi, hindex, -⟩ := h.carried
  rw [snapshotFor_eq_indexOn, hgroup.aligned.indexOn_eq hc h.answerable.eligible, hi,
    Option.bind_some, hindex, Option.map_some]

theorem direct_complete (h : c.Carries e index) (hgroup : group.Consistent) (hc : c ∈ group)
    (scope : List DataFile) : ∃ d, direct e scope group c = .ok d ∧ d.condition = c ∧
      ∀ t, e.Hits scope c t → d.Holds e t := by
  obtain ⟨found, hfound, hcomplete⟩ := Snapshot.candidates_complete h.orderly.built h.orderly.sorted
    scope (h.type.trans h.orderly.snapshot_type.symm) h.answerable.wellFormed
  refine ⟨⟨c, found⟩, ?_, rfl, fun t hhits => hhits.imp_right ?_⟩
  · unfold direct
    rw [snapshotFor_eq h hgroup hc]
    dsimp only
    rw [hfound]
    rfl
  · rw [h.viewed]
    intro ⟨s, hs, hscope, ht⟩
    obtain ⟨p, hp, hrising, -⟩ := h.exists_inMemory hs
    rw [← h.orderly.snapshot_type] at hrising
    have hhas := hp.opened.has_iff.1 ((h.mem_stored hs).1 ht).2
    exact ⟨s, hcomplete s hs hscope p hp.opened.2.1 hrising t hhas, ht⟩

theorem allBeside_ok {P : Condition → Candidate → Prop} {primary : Option Candidate}
    {cs : List Condition}
    (h : ∀ c ∈ cs, ∃ d, beside e scope group primary c = .ok d ∧ P c d) :
    ∃ ds, allBeside e scope group primary cs = .ok ds ∧ List.Forall₂ P cs ds := by
  induction cs with
  | nil => exact ⟨[], rfl, .nil⟩
  | cons c rest ih =>
    obtain ⟨⟨d, hd, hP⟩, hrest⟩ := List.forall_mem_cons.1 h
    obtain ⟨ds, hds, hPs⟩ := ih hrest
    refine ⟨d :: ds, bind_eq_ok.2 ⟨d, hd, ?_⟩, .cons hP hPs⟩
    rw [hds]
    rfl

/-- In a disjunction every candidate is one by itself: none of them narrows another. -/
theorem ofGroup_or {P : Condition → Candidate → Prop}
    (h : ∀ c ∈ group.eligible, ∃ d, direct e scope group c = .ok d ∧ P c d) :
    ∃ ds, ofGroup e scope .or group = .ok ds ∧ List.Forall₂ P group.eligible ds :=
  allBeside_ok h

end Candidate

theorem Group.exists_disjoined {e : Engine} {group : Group} (hanswer : ∀ c ∈ group, c.Answerable e)
    (he : e.Searchable) (scope : List DataFile) :
    ∃ cands, Candidate.ofGroup e scope .or group = .ok cands ∧
      List.Forall₂ (fun c d => d.condition = c ∧ ∀ t, e.Hits scope c t → d.Holds e t)
        group.eligible cands := by
  have hgroup := Condition.consistent_of_current fun c hc => (hanswer c hc).current
  apply Candidate.ofGroup_or
  intro c hc
  have hc' := ((Group.stand_eligible group).mem c hc).1
  obtain ⟨index, hcarries⟩ := (hanswer c hc').carries he
  exact Candidate.direct_complete hcarries hgroup hc' scope

end SecondaryIndex
