import Mathlib.Data.List.Basic
import Mathlib.Order.Nat
import SecondaryIndex.Session

namespace SecondaryIndex

theorem bind_eq_ok {α β : Type} {x : Except Fault α} {f : α → Except Fault β} {b : β} :
    (x >>= f) = .ok b ↔ ∃ a, x = .ok a ∧ f a = .ok b := by
  cases x with
  | error e => exact ⟨nofun, nofun⟩
  | ok a => exact ⟨fun h => ⟨a, rfl, h⟩, fun ⟨_, h, h'⟩ => by cases h; exact h'⟩

theorem bind_eq_error {α β : Type} {x : Except Fault α} {f : α → Except Fault β} {e : Fault} :
    (x >>= f) = .error e ↔ x = .error e ∨ ∃ a, x = .ok a ∧ f a = .error e := by
  cases x with
  | error e' =>
    change Except.error e' = _ ↔ _
    simp
  | ok a =>
    change f a = _ ↔ _
    simp

namespace IntervalTree

variable {α β : Type}

theorem mem_overlapping {lt : α → α → Bool} {low high centre : α}
    {byLow byHigh : List (Interval α β)} {i : Interval α β}
    (h : i ∈ overlapping lt low high centre byLow byHigh) : i ∈ byLow ∨ i ∈ byHigh := by
  rw [overlapping] at h
  split_ifs at h
  · exact .inl ((List.takeWhile_sublist _).subset h)
  · exact .inr ((List.takeWhile_sublist _).subset h)
  · exact .inl h

theorem mem_of_mem_search {lt : α → α → Bool} {fuel : Nat} {intervals : List (Interval α β)}
    {low high : α} {d : β} (h : d ∈ (grow lt fuel intervals).search lt low high) :
    ∃ i ∈ intervals, i.data = d := by
  induction fuel generalizing intervals with
  | zero => cases h
  | succ fuel ih =>
    rw [grow] at h
    split at h
    swap
    · cases h
    rw [Node.search] at h
    split at h
    · cases h
    simp only [List.mem_append] at h
    rcases h with (h | h) | h
    · obtain ⟨i, hi, rfl⟩ := List.mem_map.1 h
      rcases mem_overlapping hi with hi | hi
      · exact ⟨i, List.mem_of_mem_filter ((sortBy_perm _ _).mem_iff.1 hi), rfl⟩
      · exact ⟨i, List.mem_of_mem_filter ((sortBy_perm _ _).mem_iff.1 hi), rfl⟩
    · split at h
      · obtain ⟨i, hi, hd⟩ := ih h
        exact ⟨i, List.mem_of_mem_filter hi, hd⟩
      · cases h
    · split at h
      · obtain ⟨i, hi, hd⟩ := ih h
        exact ⟨i, List.mem_of_mem_filter hi, hd⟩
      · cases h

theorem mem_of_search {less : α → α → Except Fault Bool} {intervals : List (Interval α β)}
    {t : IntervalTree α β} (ht : build less intervals = .ok t) {low high : α} {ds : List β}
    (h : t.search low high = .ok ds) {d : β} (hd : d ∈ ds) : ∃ i ∈ intervals, i.data = d := by
  obtain ⟨_, -, ht⟩ := bind_eq_ok.1 ht
  cases ht
  obtain ⟨inverted, -, h⟩ := bind_eq_ok.1 h
  split at h
  · cases h
    cases hd
  · cases h
    exact mem_of_mem_search hd

end IntervalTree

namespace SegmentSet

theorem mem_ofList {a : Segment} {segments : List Segment} (h : a ∈ ofList segments) :
    a ∈ segments := by
  have hfold : ∀ (rest set : List Segment), a ∈ rest.foldl (fun set s => insert s set) set →
      a ∈ rest ∨ a ∈ set := by
    intro rest
    induction rest with
    | nil => exact fun _ h => .inr h
    | cons s rest ih =>
      intro set h
      rcases ih _ h with h | h
      · exact .inl (List.mem_cons_of_mem s h)
      · rcases mem_insert h with rfl | h
        · exact .inl (by simp)
        · exact .inr h
  exact (hfold segments [] h).resolve_right nofun

theorem pairwise_ofList (segments : List Segment) :
    (ofList segments).Pairwise (·.generation < ·.generation) := by
  have hfold : ∀ (rest set : List Segment), set.Pairwise (·.generation < ·.generation) →
      (rest.foldl (fun set s => insert s set) set).Pairwise (·.generation < ·.generation) := by
    intro rest
    induction rest with
    | nil => exact fun _ h => h
    | cons s rest ih => exact fun set h => ih _ (pairwise_insert h)
  exact hfold segments [] .nil

theorem nodup_of_pairwise {segments : List Segment}
    (h : segments.Pairwise (·.generation < ·.generation)) : segments.Nodup :=
  h.imp fun hlt heq => by
    rw [heq] at hlt
    exact lt_irrefl _ hlt

end SegmentSet

namespace TermRanges

theorem widen_some (type : ValueType) (low high : Bytes) (s : Segment) :
    widen type (some (low, high)) s = do
      let below ← type.compare s.minTerm low
      let above ← type.compare s.maxTerm high
      return some (if below.isLT then s.minTerm else low,
        if above.isGT then s.maxTerm else high) := by
  dsimp only [widen]
  generalize type.compare s.minTerm low = below
  generalize type.compare s.maxTerm high = above
  cases below with
  | error f => rfl
  | ok below =>
    cases above with
    | error f => cases below <;> rfl
    | ok above => cases below <;> cases above <;> rfl

theorem mem_of_search {narrowsStart : Bool} {type : ValueType} {segments found : List Segment}
    {r : TermRanges} {c : Condition} (hr : buildWith narrowsStart id type segments = .ok r)
    (h : r.search c = .ok found) :
    found.Pairwise (·.generation < ·.generation) ∧ ∀ s ∈ found, s ∈ segments := by
  obtain ⟨bounds, -, hr⟩ := bind_eq_ok.1 hr
  obtain ⟨tree, htree, hr⟩ := bind_eq_ok.1 hr
  cases hr
  rw [search] at h
  split at h
  · cases h
    exact ⟨.nil, nofun⟩
  split at h
  · cases h
    exact ⟨.nil, nofun⟩
  obtain ⟨ds, hds, h⟩ := bind_eq_ok.1 h
  cases h
  refine ⟨SegmentSet.pairwise_ofList ds, fun s hs => ?_⟩
  obtain ⟨i, hi, rfl⟩ := IntervalTree.mem_of_search htree hds (SegmentSet.mem_ofList hs)
  obtain ⟨t, ht, rfl⟩ := List.mem_map.1 hi
  exact ht

end TermRanges

namespace Snapshot

/-- A snapshot whose term ranges and key ranges were made from its own segments. -/
def Built (v : Snapshot) : Prop := build v.type v.segments TermRanges.build = .ok v

theorem built_of_build {type : ValueType} {segments : List Segment} {v : Snapshot}
    (h : build type segments TermRanges.build = .ok v) :
    v.segments = segments ∧ v.type = type ∧ v.Built ∧
      TermRanges.build type segments = .ok v.terms ∧ keyRanges segments = .ok v.keys := by
  have hv := h
  obtain ⟨terms, hterms, h⟩ := bind_eq_ok.1 h
  obtain ⟨keys, hkeys, h⟩ := bind_eq_ok.1 h
  by_cases hcount : keys.count ≠ terms.count
  · rw [if_pos hcount] at h
    cases h
  · rw [if_neg hcount] at h
    cases h
    exact ⟨rfl, rfl, hv, hterms, hkeys⟩

theorem built_empty (type : ValueType) : (empty type).Built := rfl

theorem mem_candidates {v : Snapshot} (hv : v.Built) {scope : List DataFile} {c : Condition}
    {found : List Segment} (h : v.candidates scope c = .ok found) :
    found.Pairwise (·.generation < ·.generation) ∧
      ∀ s ∈ found, s ∈ v.segments ∧ s.file ∈ scope := by
  obtain ⟨-, -, -, hterms, -⟩ := built_of_build hv
  obtain ⟨all, hall, h⟩ := bind_eq_ok.1 h
  cases h
  obtain ⟨hpair, hmem⟩ := TermRanges.mem_of_search hterms hall
  refine ⟨hpair.filter _, fun s hs => ?_⟩
  rw [List.mem_filter, decide_eq_true_eq] at hs
  exact ⟨hmem s hs.1, hs.2⟩

theorem mem_of_mem_overlapping {v : Snapshot} (hv : v.Built) {low high : Token} {s : Segment}
    (h : s ∈ v.overlapping low high) : s ∈ v.segments := by
  obtain ⟨-, -, -, -, hkeys⟩ := built_of_build hv
  rw [overlapping] at h
  cases hsearch : v.keys.search low high with
  | error f =>
    rw [hsearch] at h
    cases h
  | ok ds =>
    rw [hsearch] at h
    obtain ⟨i, hi, rfl⟩ := IntervalTree.mem_of_search hkeys hsearch h
    obtain ⟨t, ht, rfl⟩ := List.mem_map.1 hi
    exact ht

end Snapshot

/-- The segments of every index stand in a snapshot that was made from them. -/
def Engine.Indexed (e : Engine) : Prop :=
  ∀ (i : IndexId) index, e.indexes[i]? = some index → index.snapshot.Built

namespace Candidate

/-- The segments of a candidate are from the snapshot of its column, in scope, and all different. -/
structure Drawn (e : Engine) (scope : List DataFile) (group : Group) (c : Candidate) : Prop where
  sorted : c.segments.Pairwise (·.generation < ·.generation)
  drawn : ∀ s ∈ c.segments, s.file ∈ scope ∧
    ∃ v, snapshotFor e group c.condition = some v ∧ s ∈ v.segments

variable {e : Engine} {scope : List DataFile} {group : Group} {c : Condition} {d : Candidate}

theorem built_of_snapshotFor (he : e.Indexed) {v : Snapshot} (h : snapshotFor e group c = some v) :
    ∃ (i : IndexId) (index : ColumnIndex), e.indexes[i]? = some index ∧ index.snapshot = v ∧
      v.Built := by
  rw [snapshotFor] at h
  simp only [Option.bind_eq_bind, Option.bind_eq_some_iff, Option.pure_def, Option.some.injEq] at h
  obtain ⟨first, -, i, -, index, hindex, rfl⟩ := h
  exact ⟨i, index, hindex, rfl, he i index hindex⟩

theorem drawn_direct (he : e.Indexed) (h : direct e scope group c = .ok d) :
    d.condition = c ∧ Drawn e scope group d := by
  rw [direct] at h
  cases hv : snapshotFor e group c with
  | none =>
    rw [hv] at h
    cases h
    exact ⟨rfl, .nil, nofun⟩
  | some v =>
    rw [hv] at h
    obtain ⟨found, hfound, h⟩ := bind_eq_ok.1 h
    cases h
    obtain ⟨-, -, -, -, hbuilt⟩ := built_of_snapshotFor he hv
    obtain ⟨hpair, hmem⟩ := Snapshot.mem_candidates hbuilt hfound
    exact ⟨rfl, hpair, fun s hs => ⟨(hmem s hs).2, v, hv, (hmem s hs).1⟩⟩

theorem drawn_narrowed (he : e.Indexed) (primary : List Segment) :
    Drawn e scope group (narrowed e scope group primary c) := by
  rw [narrowed]
  cases hv : snapshotFor e group c with
  | none => exact ⟨.nil, nofun⟩
  | some v =>
    obtain ⟨-, -, -, -, hbuilt⟩ := built_of_snapshotFor he hv
    refine ⟨SegmentSet.pairwise_ofList _, fun s hs => ?_⟩
    obtain ⟨p, -, hp⟩ := List.mem_flatMap.1 (SegmentSet.mem_ofList hs)
    rw [List.mem_filter, decide_eq_true_eq] at hp
    exact ⟨hp.2, v, hv, Snapshot.mem_of_mem_overlapping hbuilt hp.1⟩

/-- Conditions that ask the same read the same snapshot. -/
theorem snapshotFor_congr {a b : Condition} (h : a.same b) :
    snapshotFor e group a = snapshotFor e group b := by
  have hcolumn : a.column = b.column := by
    rw [Condition.same, decide_eq_true_eq] at h
    exact h.1
  rw [snapshotFor, snapshotFor, hcolumn]

theorem drawn_primaryOf (he : e.Indexed) {best : Option Candidate}
    (hbest : ∀ p ∈ best, Drawn e scope group p) {cs : List Condition} {r : Option Candidate}
    (h : primaryOf e scope group best cs = .ok r) : ∀ p ∈ r, Drawn e scope group p := by
  induction cs generalizing best with
  | nil =>
    cases h
    exact hbest
  | cons c rest ih =>
    obtain ⟨d, hd, h⟩ := bind_eq_ok.1 h
    refine ih ?_ h
    rintro _ ⟨⟩
    cases best with
    | none => exact (drawn_direct he hd).2
    | some b =>
      rw [better]
      split
      · exact (drawn_direct he hd).2
      · exact hbest b rfl

theorem drawn_beside (he : e.Indexed) {primary : Option Candidate}
    (hprimary : ∀ p ∈ primary, Drawn e scope group p)
    (h : beside e scope group primary c = .ok d) : d.condition = c ∧ Drawn e scope group d := by
  cases primary with
  | none => exact drawn_direct he h
  | some p =>
    rw [beside] at h
    split at h
    · exact drawn_direct he h
    split at h
    next hsame =>
      cases h
      obtain ⟨hsorted, hdrawn⟩ := hprimary p rfl
      exact ⟨rfl, hsorted, snapshotFor_congr hsame ▸ hdrawn⟩
    · cases h
      refine ⟨?_, drawn_narrowed he p.segments⟩
      rw [narrowed]
      split <;> rfl

theorem drawn_allBeside (he : e.Indexed) {primary : Option Candidate}
    (hprimary : ∀ p ∈ primary, Drawn e scope group p) {cs : List Condition} {ds : List Candidate}
    (h : allBeside e scope group primary cs = .ok ds) :
    ds.map Candidate.condition = cs ∧ ∀ d ∈ ds, Drawn e scope group d := by
  induction cs generalizing ds with
  | nil =>
    cases h
    exact ⟨rfl, nofun⟩
  | cons c rest ih =>
    obtain ⟨d, hd, h⟩ := bind_eq_ok.1 h
    obtain ⟨more, hmore, h⟩ := bind_eq_ok.1 h
    cases h
    obtain ⟨rfl, hdrawn⟩ := drawn_beside he hprimary hd
    obtain ⟨hconditions, hrest⟩ := ih hmore
    exact ⟨by rw [List.map_cons, hconditions], List.forall_mem_cons.2 ⟨hdrawn, hrest⟩⟩

theorem drawn_ofGroup (he : e.Indexed) {connective : Connective} {ds : List Candidate}
    (h : ofGroup e scope connective group = .ok ds) :
    ds.map Candidate.condition = group.eligible ∧ ∀ d ∈ ds, Drawn e scope group d := by
  cases connective with
  | and =>
    obtain ⟨primary, hprimary, h⟩ := bind_eq_ok.1 h
    exact drawn_allBeside he (drawn_primaryOf he (by simp) hprimary) h
  | or => exact drawn_allBeside he (by simp) h

end Candidate

end SecondaryIndex
