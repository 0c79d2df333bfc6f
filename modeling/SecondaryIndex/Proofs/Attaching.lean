import SecondaryIndex.Proofs.Operation
import SecondaryIndex.Proofs.Updating

namespace SecondaryIndex

def Engine.storedOn (e : Engine) (column : String) : List Segment :=
  match e.columnIndexOn? column with
  | none => []
  | some (_, index) => index.snapshot.segments

namespace Segment

variable {segments : List Segment} {s : Segment} {e e' : Engine}

namespace Released

theorem refs (h : Released segments e e') (hlone : ∀ t ∈ segments, t.id = s.id → t = s) :
    e'.refs s = e.refs s - segments.count s := by
  unfold Engine.refs
  rw [h.segment s hlone]
  cases e.segment? s with
  | none => simp
  | some state => rfl

theorem updateIndex (h : Released segments e e') (id : IndexId)
    (change : ColumnIndex → ColumnIndex) :
    Released segments (e.updateIndex id change) (e'.updateIndex id change) :=
  ⟨h.frame.updateIndex id change, h.cursors, h.segment, h.file⟩

end Released
end Segment

namespace Catalog

/-- The next snapshot of a column is published. The entries left out of it are released. -/
structure Attached (column : String) (dropped : List DataFile) (segments : List Segment)
    (id : IndexId) (index : ColumnIndex) (v : Snapshot) (leftOut : List Segment)
    (e e' : Engine) : Prop where
  found : e.columnIndexOn? column = some (id, index)
  built : Snapshot.build index.type v.segments TermRanges.build = .ok v
  rising : v.segments.Pairwise (·.generation < ·.generation)
  /-- Of each generation the first entry stays whose file is neither dropped nor compacted. -/
  first : ∀ g, v.segments.find? (fun s => s.generation = g) =
    (index.snapshot.segments ++ segments).find? fun s =>
      s.generation = g ∧ s.file ∉ dropped ∧ (e.file s.file).compacted = false
  divided : (v.segments ++ leftOut).Perm (index.snapshot.segments ++ segments)
  released : Segment.Released leftOut
    (e.updateIndex id fun index => { index with snapshot := v }) e'

/-- No snapshot changes, and each segment that came is released. -/
structure Declined (column : String) (dropped : List DataFile) (segments : List Segment)
    (refusal : Refusal) (e e' : Engine) : Prop where
  cause : match e.columnIndexOn? column with
    | none => refusal = .nowhereToAttach column
    | some (_, index) => ∃ fault, refusal = .unfitSegments fault ∧
      Snapshot.build index.type
        (Snapshot.select (fun f => f ∈ dropped || (e.file f).compacted)
          (index.snapshot.segments ++ segments)).kept TermRanges.build = .error fault
  published : e'.published = e.published
  indexes : e'.indexes = e.indexes
  /-- What is stored for the column keeps its own references. -/
  stored : ∀ s ∈ e.storedOn column, e'.refs s = e.refs s - segments.count s
  released : Segment.Released segments e e'

variable {column : String} {dropped : List DataFile} {segments : List Segment} {e : Engine}

theorem stays_leaves (e : Engine) (dropped : List DataFile) (g : Nat) :
    Snapshot.stays (Snapshot.leaves e dropped) g = fun s =>
      decide (s.generation = g ∧ s.file ∉ dropped ∧ (e.file s.file).compacted = false) := by
  funext s
  simp [Snapshot.stays, Snapshot.leaves]

theorem declined {e' : Engine} {refusal : Refusal}
    (hnamed : Segment.Named (e.storedOn column ++ segments))
    (cause : match e.columnIndexOn? column with
      | none => refusal = .nowhereToAttach column
      | some (_, index) => ∃ fault, refusal = .unfitSegments fault ∧
        Snapshot.build index.type (Snapshot.select (Snapshot.leaves e dropped)
          (index.snapshot.segments ++ segments)).kept TermRanges.build = .error fault)
    (h : Segment.Released segments e e') : Declined column dropped segments refusal e e' where
  cause := cause
  published := h.frame.published
  indexes := h.frame.indexes
  stored s hs := h.refs fun t ht =>
    hnamed t (List.mem_append_right _ ht) s (List.mem_append_left _ hs)
  released := h

theorem ensures_releaseAll_bind {α : Type} {next : Unit → Act α}
    {Q : Except Fault α → Engine → Prop} (hnamed : Segment.Named segments)
    (h : ∀ e', Segment.Released segments e e' → Ensures (next ()) e' Q) :
    Ensures (Segment.releaseAll segments >>= next) e Q := by
  have hquiet : (Segment.releaseAll segments e).1 = .ok () := Act.allQuietly_fst _ _ e
  rw [ensures_bind, Ensures, hquiet]
  exact h _ (Segment.releaseAll_released hnamed e)

theorem attached {id : IndexId} {index : ColumnIndex} {v : Snapshot} {e' : Engine}
    (hfound : e.columnIndexOn? column = some (id, index))
    (hbuild : Snapshot.build index.type (Snapshot.select (Snapshot.leaves e dropped)
      (index.snapshot.segments ++ segments)).kept TermRanges.build = .ok v)
    (h : Segment.Released (Snapshot.select (Snapshot.leaves e dropped)
      (index.snapshot.segments ++ segments)).excluded e e') :
    Attached column dropped segments id index v
      (Snapshot.select (Snapshot.leaves e dropped) (index.snapshot.segments ++ segments)).excluded
      e (e'.updateIndex id fun index => { index with snapshot := v }) := by
  obtain ⟨hv, -⟩ := Snapshot.built_of_build hbuild
  refine ⟨hfound, ?_, ?_, fun g => ?_, ?_, h.updateIndex id _⟩
  · rw [hv, hbuild]
  · exact hv ▸ Snapshot.pairwise_select _ _
  · rw [hv, Snapshot.find?_select, stays_leaves]
  · exact hv ▸ Snapshot.perm_select _ _

/-- Attaching is all or nothing, and owns what it is given in any case. -/
theorem attach_all_or_nothing (column : String) (dropped : List DataFile) (segments : List Segment)
    (e : Engine) (hnamed : Segment.Named (e.storedOn column ++ segments)) :
    Ensures (attach column dropped segments) e fun
      | .ok (.ok ()), e' => ∃ id index v leftOut,
        Attached column dropped segments id index v leftOut e e'
      | .ok (.error refusal), e' => Declined column dropped segments refusal e e'
      | .error _, _ => False := by
  have hnew : Segment.Named segments :=
    fun s hs t ht => hnamed s (List.mem_append_right _ hs) t (List.mem_append_right _ ht)
  rw [attach, ensures_get_bind]
  cases hfound : e.columnIndexOn? column with
  | none =>
    refine ensures_releaseAll_bind hnew fun e' h => declined hnamed ?_ h
    rw [hfound]
  | some p =>
    obtain ⟨id, index⟩ := p
    have hstored : e.storedOn column = index.snapshot.segments := by
      rw [Engine.storedOn, hfound]
    dsimp only
    rw [ensures_bind, Act.ensures_attempt, Snapshot.ensures_update_iff rfl]
    -- The next snapshot is built before anything is released, so that a failure owes the same list
    -- as a request for a column without an index.
    cases hbuild : Snapshot.build index.type (Snapshot.select (Snapshot.leaves e dropped)
        (index.snapshot.segments ++ segments)).kept TermRanges.build with
    | error fault =>
      refine ensures_releaseAll_bind hnew fun e' h => declined hnamed ?_ h
      rw [hfound]
      exact ⟨fault, rfl, hbuild⟩
    | ok v =>
      have hexcluded := Segment.releaseAll_released
        (Snapshot.named_excluded (Snapshot.leaves e dropped) (hstored ▸ hnamed)) e
      exact ⟨id, index, v, _, attached hfound hbuild hexcluded⟩

-- Two stored segments, one of them on a file that is to be dropped. Beside them one of the
-- generation of the first, whose reader cannot be closed; one of another generation; one whose
-- keys are the wrong way round, whose reader cannot be closed either; one on a file that was
-- compacted.
def storedSegment : Segment := ⟨0, ⟨0, 1, "a", 0, 9⟩, 0, 9, [97], [98]⟩

def supersededSegment : Segment := ⟨1, ⟨0, 1, "a", 0, 9⟩, 2, 3, [97], [97]⟩

def newSegment : Segment := ⟨2, ⟨1, 2, "b", 0, 9⟩, 0, 9, [97], [98]⟩

def twistedSegment : Segment := ⟨3, ⟨1, 2, "b", 0, 9⟩, 9, 0, [97], [98]⟩

def droppedFile : DataFile := ⟨2, 3, "d", 0, 9⟩

def droppedSegment : Segment := ⟨4, droppedFile, 0, 9, [97], [98]⟩

def compactedSegment : Segment := ⟨5, ⟨3, 4, "e", 0, 9⟩, 0, 9, [97], [98]⟩

def stuckReader : Reader where
  store := .external fun _ => .ok none
  closeFault := some (.device "closed")

def stocked : Engine :=
  Operation.effects
    [.createFile 1 "a" 0 9, .createFile 2 "b" 0 9, .createFile 3 "d" 0 9, .createFile 4 "e" 0 9,
      .createSegment (some ⟨0, 1, "a", 0, 9⟩) (some (.ofPostings { type := .text })) 0 9 [97] [98],
      .createSegment (some ⟨0, 1, "a", 0, 9⟩) (some stuckReader) 2 3 [97] [97],
      .createSegment (some ⟨1, 2, "b", 0, 9⟩) (some (.ofPostings { type := .text })) 0 9 [97] [98],
      .createSegment (some ⟨1, 2, "b", 0, 9⟩) (some stuckReader) 9 0 [97] [98],
      .createSegment (some droppedFile) (some (.ofPostings { type := .text })) 0 9 [97] [98],
      .createSegment (some ⟨3, 4, "e", 0, 9⟩) (some (.ofPostings { type := .text })) 0 9 [97] [98],
      .register "c" (some .text), .createIndex "c",
      .attach "c" [] [storedSegment, droppedSegment], .markCompacted ⟨3, 4, "e", 0, 9⟩] {}

theorem attach_stocked :
    (Segment.Named (stocked.storedOn "c" ++ [supersededSegment, newSegment, compactedSegment]) ∧
      Ensures (attach "c" [droppedFile] [supersededSegment, newSegment, compactedSegment]) stocked
        fun r e' => r.toOption.map Except.toOption = some (some ()) ∧
          e'.storedOn "c" = [storedSegment, newSegment] ∧
          [supersededSegment, droppedSegment, compactedSegment].map e'.refs = [0, 0, 0] ∧
          ∃ id index v leftOut, Attached "c" [droppedFile]
            [supersededSegment, newSegment, compactedSegment] id index v leftOut stocked e') ∧
    Segment.Named (stocked.storedOn "c" ++ [supersededSegment, twistedSegment]) ∧
      Ensures (attach "c" [] [supersededSegment, twistedSegment]) stocked fun r e' =>
        r.toOption.map Except.toOption = some none ∧
          e'.storedOn "c" = [storedSegment, droppedSegment] ∧
          e'.refs storedSegment = 1 ∧ e'.refs supersededSegment = 0 ∧
            e'.refs twistedSegment = 0 := by
  have hnew : Segment.Named
      (stocked.storedOn "c" ++ [supersededSegment, newSegment, compactedSegment]) := by
    decide +kernel
  have htwisted : Segment.Named (stocked.storedOn "c" ++ [supersededSegment, twistedSegment]) := by
    decide +kernel
  have hstands : ((attach "c" [droppedFile] [supersededSegment, newSegment, compactedSegment]
        stocked).1.toOption.map Except.toOption = some (some ())) ∧
      (attach "c" [droppedFile] [supersededSegment, newSegment, compactedSegment]
        stocked).2.storedOn "c" = [storedSegment, newSegment] ∧
      [supersededSegment, droppedSegment, compactedSegment].map (attach "c" [droppedFile]
        [supersededSegment, newSegment, compactedSegment] stocked).2.refs = [0, 0, 0] := by
    decide +kernel
  have hfails : ((attach "c" [] [supersededSegment, twistedSegment] stocked).1.toOption.map
        Except.toOption = some none) ∧
      (attach "c" [] [supersededSegment, twistedSegment] stocked).2.storedOn "c" =
        [storedSegment, droppedSegment] := by decide +kernel
  have hrefs : stocked.refs storedSegment = 1 ∧ stocked.refs supersededSegment = 1 ∧
      stocked.refs twistedSegment = 1 := by decide +kernel
  have hnewOutcome := attach_all_or_nothing "c" [droppedFile]
    [supersededSegment, newSegment, compactedSegment] stocked hnew
  have htwistedOutcome :=
    attach_all_or_nothing "c" [] [supersededSegment, twistedSegment] stocked htwisted
  unfold Ensures at hnewOutcome htwistedOutcome ⊢
  refine ⟨⟨hnew, hstands.1, hstands.2.1, hstands.2.2, ?_⟩, htwisted, hfails.1, hfails.2, ?_⟩
  · generalize attach "c" [droppedFile] [supersededSegment, newSegment, compactedSegment] stocked =
      result at hstands hnewOutcome ⊢
    obtain ⟨_ | ⟨_ | _⟩, e'⟩ := result
    · cases hstands.1
    · cases hstands.1
    · exact hnewOutcome
  · generalize attach "c" [] [supersededSegment, twistedSegment] stocked = result
      at hfails htwistedOutcome ⊢
    obtain ⟨_ | ⟨_ | _⟩, e'⟩ := result
    · cases hfails.1
    · have hlone : ∀ s ∈ [storedSegment, supersededSegment, twistedSegment],
          ∀ t ∈ [supersededSegment, twistedSegment], t.id = s.id → t = s := by decide
      have hreleased := htwistedOutcome.released
      refine ⟨?_, ?_, ?_⟩
      · exact (hreleased.refs (hlone _ (by decide))).trans (by rw [hrefs.1]; rfl)
      · exact (hreleased.refs (hlone _ (by decide))).trans (by rw [hrefs.2.1]; rfl)
      · exact (hreleased.refs (hlone _ (by decide))).trans (by rw [hrefs.2.2]; rfl)
    · cases hfails.1

end Catalog
end SecondaryIndex
