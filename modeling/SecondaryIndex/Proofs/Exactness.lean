import SecondaryIndex.Proofs.Completeness

namespace SecondaryIndex

namespace Query

variable {e : Engine} {scope : List DataFile} {q : Query} {id : SessionId} {t : Token}

def Disjunctive : Query → Prop := Every fun k _ _ _ => k = .or

instance (q : Query) : Decidable q.Disjunctive := decidableEvery q

namespace Disjunctive

theorem holds_iff (h : q.Disjunctive) {ask : Connective → Group → Condition → Prop} :
    q.Holds ask ↔ ∃ group ∈ q.groups, ∃ c ∈ group, ask .or group c := by
  induction q with
  | absent => simp [Holds, groups]
  | node k group left right ihl ihr =>
    obtain ⟨rfl, hl, hr⟩ := h
    rw [Holds, ihl hl, ihr hr, groups]
    cases group with
    | nil => simp [or_and_right, exists_or]
    | cons c rest => simp [or_and_right, exists_or]

theorem proper (h : q.Disjunctive) : q.Proper := by
  induction q with
  | absent => trivial
  | node k group left right ihl ihr =>
    obtain ⟨rfl, hl, hr⟩ := h
    exact ⟨nofun, ihl hl, ihr hr⟩

theorem shows (part : Query) (id : SessionId) (e : Engine) : part.Shows id .or e := by
  unfold Shows Ensures
  dsimp only
  split
  · exact nofun
  · trivial

theorem kept (h : q.Disjunctive) (id : SessionId) (e : Engine) : q.Kept id e := by
  induction q generalizing e with
  | absent => trivial
  | node k group left right ihl ihr =>
    obtain ⟨rfl, hl, hr⟩ := h
    unfold Kept Ensures
    dsimp only
    split
    · refine ⟨ihl hl _, shows left id _, ?_⟩
      split
      · exact ⟨ihr hr _, shows right id _⟩
      · trivial
    · trivial

theorem reached_iff (h : q.Disjunctive) : q.Reached e scope t ↔ q.Meets e scope t := by
  refine ⟨Reached.meets, fun hmeets => hmeets.imp h ?_⟩
  rintro _ _ _ _ rfl _ _ hhits
  exact ⟨hhits, nofun⟩

section

variable (hq : q.Disjunctive) (ha : q.Answerable e) (he : e.Searchable)
include hq ha he

theorem build (ho : e.Ordered) (hready : e.Ready id q.groups)
    (hsmall : q.matchCount e (e.session id).scope < 2 ^ 64) :
    Ensures (q.build id) e fun r e' => ∃ cursor ts, r = .ok cursor ∧
      Request.Brings e'.cursors ts cursor ∧ Rising ts ∧
      ∀ t, t ∈ ts ↔ q.Meets e (e.session id).scope t := by
  refine (brings_build ha he ho hq.proper hready hsmall).mono ?_
  intro r e' ⟨cursor, ts, hr, hbrings, hrising, hreached, hkept⟩
  refine ⟨cursor, ts, hr, hbrings, hrising, fun t => ?_⟩
  rw [← hq.reached_iff]
  exact ⟨hkept (hq.kept id e) t, hreached t⟩

/-- In the files that a range touches it finds, within the range, just what a scan finds. -/
theorem meets_iff_matches {range : KeyRange} (ht : range.contains t = true) :
    q.Meets e (BaseTable.touched e.live (some range)) t ↔ q.Matches e e.Serving t := by
  unfold Meets Query.Matches
  rw [hq.holds_iff]
  constructor
  · intro ⟨group, hgroup, c, hc, hhits⟩
    obtain ⟨index, hcarries⟩ := (ha group hgroup c hc).carries he
    exact ⟨group, hgroup, c, hc, hcarries.matches_of_hits hhits⟩
  · intro ⟨group, hgroup, c, hc, hmatches⟩
    obtain ⟨index, hcarries⟩ := (ha group hgroup c hc).carries he
    exact ⟨group, hgroup, c, hc, hcarries.hits_of_matches ht hmatches⟩

end
end Disjunctive
end Query

/-- Every live file is referenced. All segments are in memory, and those in view have the rows of
their data files. -/
structure Engine.Resident (e : Engine) : Prop where
  live : ∀ f ∈ e.live, (e.file f).refs ≠ 0
  memory : ∀ (i : Nat) state, e.segments[i]? = some state → ∃ p, state.reader.store = .memory p
  viewed : ∀ column i index, e.columnIndexOn? column = some (i, index) →
    ∀ s ∈ index.snapshot.segments, ∃ type p, s.InMemory e type p

theorem Engine.Resident.ordered {e : Engine} (h : e.Resident) : e.Ordered :=
  ordered_of_memory h.memory

namespace Query.Request

variable {r : Request} {e : Engine} {filter : Token → Bool}

/-- A disjunction of conditions on the columns of the catalog, with matches that can be counted, is
run in time for a consumer that never stops. -/
structure Disjoins (r : Request) (e : Engine) (filter : Token → Bool) : Prop where
  present : ¬ r.query.isAbsent
  disjunctive : r.query.Disjunctive
  posed : r.query.Posed e
  apart : r.query.groups.Pairwise fun g g' => Group.compare g g' ≠ .eq
  small : r.query.matchCount e (BaseTable.touched e.live r.range) < 2 ^ 64
  passes : r.passes = fun t => .ok (filter t)
  consume : ∀ rows, r.consume rows = .ok true
  time : r.InTime e

/-- A run hands out the first of all rows, in rising order, that lie in range, pass, and match some
condition in a memtable or in a counted segment. -/
def Exact (r : Request) (e : Engine) (counted : Segment → Prop) (filter : Token → Bool) : Prop :=
  ∃ rows, Rising rows ∧
    (∀ t, t ∈ rows ↔ asks r.range filter t = true ∧ r.query.Matches e counted t) ∧
    (r.run e).1 = ⟨r.limited rows, none⟩

theorem Exact.fault {counted : Segment → Prop} (h : r.Exact e counted filter) :
    (r.run e).1.fault = none := by
  obtain ⟨rows, -, -, hrun⟩ := h
  rw [hrun]

theorem Exact.of_isEmpty {counted : Segment → Prop} (h : r.Exact e counted filter)
    (hempty : ∀ range ∈ r.range, range.isEmpty) : (r.run e).1 = ⟨[], none⟩ := by
  obtain ⟨rows, -, hmem, hrun⟩ := h
  have hnil : rows = [] := by
    apply List.eq_nil_iff_forall_not_mem.2
    intro t ht
    have hasks := ((hmem t).1 ht).1
    rw [asks, Bool.and_eq_true, Option.any_eq_true] at hasks
    obtain ⟨⟨range, hrange, hcontains⟩, -⟩ := hasks
    exact KeyRange.isEmpty_iff.1 (hempty range hrange) t hcontains
  rw [hrun, hnil, limited_eq_self wantsMore_zero]

theorem answerable_opened (h : r.query.Answerable e) (files : Array FileState) :
    r.query.Answerable (r.opened e files) := by
  intro group hgroup c hc
  obtain ⟨⟨heligible, hwellFormed, hcurrent⟩, hstocked⟩ := h group hgroup c hc
  refine ⟨⟨heligible, hwellFormed, hcurrent⟩, fun i index hi => ?_⟩
  obtain ⟨hmemtable, hsegments⟩ := hstocked i index hi
  refine ⟨hmemtable, fun s hs => ?_⟩
  obtain ⟨p, hp⟩ := hsegments s hs
  exact ⟨p, hp.opened, hp.unclosed, hp.within⟩

theorem grows_build (q : Query) (id : SessionId) (e : Engine) :
    Ensures (q.build id) e fun _ e' => Loan.Grows id e e' :=
  (Loan.build q (Loan.Borrowed.start (fun _ => True) e) (Loan.allows_true e)).mono
    fun _ _ hbuilt => hbuilt.1.grows

theorem ready_opened (h : r.query.groups.Pairwise fun g g' => Group.compare g g' ≠ .eq)
    (files : Array FileState) : (r.opened e files).Ready e.sessions.size r.query.groups where
  running := by
    rw [session_opened]
    exact nofun
  new g _ := by
    rw [session_opened]
    exact nofun
  apart := h

theorem ensures_timed (files : Array FileState) : Ensures (r.query.build e.sessions.size)
    (r.opened e files) fun _ e' => r.Timed e.sessions.size e' := by
  refine (grows_build r.query e.sessions.size (r.opened e files)).mono ?_
  intro _ e' hgrows
  obtain ⟨groups, hsession⟩ := hgrows.session
  rw [session_opened] at hsession
  constructor
  · rw [hsession]
    rfl
  · rw [hsession]
    rfl

/-- A disjunction is answered as by a plain scan of what is in the memtables and in the segments of
live files that have not been released. -/
theorem exact_disjunction (h : Reachable e) (hresident : e.Resident) (hstocked : r.query.Stocked e)
    (hr : r.Disjoins e filter) : r.Exact e e.Serving filter ∧
      ((∀ range ∈ r.range, range.isEmpty) → (r.run e).1 = ⟨[], none⟩) := by
  have he := h.searchable
  have hanswerable := hr.posed.answerable hstocked
  have hbuild : ∀ files, Ensures (r.query.build e.sessions.size) (r.opened e files) fun result e' =>
      ∃ cursor ts, result = .ok cursor ∧ Brings e'.cursors ts cursor ∧
        (Rising ts ∧ ∀ t, t ∈ ts ↔ r.query.Meets e (BaseTable.touched e.live r.range) t) ∧
        r.Timed e.sessions.size e' := by
    intro files
    have hopened : (r.opened e files).Searchable := ⟨he.typed, he.orderly, he.sorted⟩
    have hbuilt := hr.disjunctive.build (answerable_opened hanswerable files) hopened
      hresident.ordered (ready_opened hr.apart files)
    rw [session_opened] at hbuilt
    refine ((hbuilt hr.small).and (ensures_timed files)).mono ?_
    intro result e' ⟨⟨cursor, ts, hresult, hbrings, hrising, hmem⟩, htimed⟩
    exact ⟨cursor, ts, hresult, hbrings, ⟨hrising, hmem⟩, htimed⟩
  obtain ⟨ts, ⟨hrising, hmem⟩, hrows⟩ :=
    run_rows hr.consume hr.passes hresident.live hr.present hbuild hr.time
  -- What is found in the pinned files is, within the range, what a scan of all files finds.
  have hexact : r.Exact e e.Serving filter := by
    refine ⟨ts.filter (asks r.range filter), hrising.filter _, fun t => ?_, hrows⟩
    rw [List.mem_filter, hmem, and_comm]
    apply and_congr_right
    intro hasks
    cases hrange : r.range with
    | none =>
      rw [hrange] at hasks
      cases hasks
    | some range =>
      rw [hrange, asks, Option.any_some, Bool.and_eq_true] at hasks
      exact hr.disjunctive.meets_iff_matches hanswerable he hasks.1
  exact ⟨hexact, hexact.of_isEmpty⟩

-- A column `a` with a segment over one row in a live file.
def rowFile : DataFile := ⟨0, 1, "f", 0, 10⟩

def rowPostings (type : ValueType) (term : Bytes) : Postings := { type, entries := [⟨term, [1]⟩] }

def rowSegment (term : Bytes) : Segment := ⟨0, rowFile, 1, 1, term, term⟩

/-- The segment is over postings of `stored`, and further operations follow. -/
def rowEngine (type stored : ValueType) (term : Bytes) (more : List Operation) : Engine :=
  Operation.effects ([.register "a" (some type), .createIndex "a", .createFile 1 "f" 0 10,
    .replaceFiles [] [rowFile],
    .createSegment (some rowFile) (some (.ofPostings (rowPostings stored term))) 1 1 term term,
    .attach "a" [] [rowSegment term]] ++ more) {}

section

variable {type stored : ValueType} {term : Bytes} {e : Engine} {state : SegmentState}

theorem inMemory_rowSegment (hsegments : e.segments = #[state])
    (hstore : state.reader.store = .memory (rowPostings stored term))
    (hopen : state.refs ≠ 0 → state.reader.closes = 0) :
    (rowSegment term).InMemory e stored (rowPostings stored term) := by
  have hstate : e.segment? (rowSegment term) = some state := by
    rw [Engine.segment?, hsegments]
    rfl
  refine .of_state [(term, 1)] rfl ⟨rfl, rfl, rfl, rfl⟩ hstate hstore hopen ?_
  intro t ht
  obtain rfl := List.mem_singleton.1 ht
  change (0 : Int) ≤ 1 ∧ (1 : Int) ≤ 10
  decide

theorem resident_rowEngine (hsegments : e.segments = #[state])
    (hstore : state.reader.store = .memory (rowPostings stored term))
    (hopen : state.refs ≠ 0 → state.reader.closes = 0) (hlive : ∀ f ∈ e.live, (e.file f).refs ≠ 0)
    (hviewed : ∀ index ∈ e.indexes.toList, ∀ s ∈ index.snapshot.segments, s = rowSegment term) :
    e.Resident where
  live := hlive
  memory i state' hi := by
    rw [hsegments] at hi
    obtain rfl : state = state' := by
      cases i with
      | zero => exact Option.some.inj hi
      | succ i => cases hi
    exact ⟨_, hstore⟩
  viewed column i index hi s hs := by
    have hindex := Array.mem_toList_iff.2 (Array.mem_of_getElem? (Engine.columnIndexOn_some hi))
    rw [hviewed index hindex s hs]
    exact ⟨stored, _, inMemory_rowSegment hsegments hstore hopen⟩

end

/-- A condition on the column of which the index is the first. -/
def onRow (type : ValueType) (p : Predicate) : Condition := ⟨"a", type, some 0, p⟩

theorem posed_onRow {type : ValueType} {e : Engine} {p : Predicate}
    (hcolumn : e.column? "a" = some ⟨"a", some type, some 0⟩) (hp : (onRow type p).eligible = true)
    (hc : (onRow type p).WellFormed) : (onRow type p).Posed e :=
  ⟨hp, hc, ⟨"a", some type, some 0⟩, hcolumn, rfl⟩

def oneOf (c : Condition) : Request where
  query := .node .or [c] .absent .absent
  range := some .full
  clock := fun _ => 0

theorem disjoins_oneOf {e : Engine} {c : Condition} (hc : c.Posed e)
    (hsmall : (oneOf c).query.matchCount e (BaseTable.touched e.live (some .full)) < 2 ^ 64) :
    (oneOf c).Disjoins e fun _ => true where
  present := nofun
  disjunctive := ⟨rfl, trivial, trivial⟩
  posed := by
    intro group hgroup d hd
    obtain rfl := List.mem_singleton.1 hgroup
    obtain rfl := List.mem_singleton.1 hd
    exact hc
  apart := List.pairwise_singleton _ _
  small := hsmall
  passes := rfl
  consume := fun _ => rfl
  time := fun _ _ _ => (by decide : (0 : Duration) - 0 < Duration.ofMilliseconds 5000)

/-- A row in the segment and two rows in the memtable. -/
def mixedRows : Engine :=
  rowEngine .text .text [120] [.enter 3 "a" [121], .enter 7 "a" [121]]

/-- One condition for the segment and one for the memtable, up to the token 5. -/
def bothKinds : Request where
  query := .node .or [onRow .text (.eq [120])]
    (.node .or [onRow .text (.eq [121])] .absent .absent) .absent
  range := some ⟨0, 5⟩
  clock := fun _ => 0

theorem exact_bothKinds : Reachable mixedRows ∧ mixedRows.Resident ∧
    bothKinds.query.Stocked mixedRows ∧ bothKinds.Disjoins mixedRows (fun _ => true) ∧
      bothKinds.Exact mixedRows mixedRows.Serving (fun _ => true) ∧
        (bothKinds.run mixedRows).1 = ⟨[1, 3], none⟩ := by
  have hreach : Reachable mixedRows := Reachable.start.steps _
  have hsegments : mixedRows.segments =
      #[{ reader := .ofPostings (rowPostings .text [120]), refs := 1 }] := rfl
  have hresident : mixedRows.Resident := by
    apply resident_rowEngine hsegments rfl (fun _ => rfl)
    · decide +kernel
    · decide +kernel
  have hindexes : ∀ index ∈ mixedRows.indexes.toList, index.type = .text ∧
      ∀ s ∈ index.snapshot.segments, s = rowSegment [120] := by decide +kernel
  have hstocked : bothKinds.query.Stocked mixedRows := by
    intro group _ c _
    refine Engine.stocked_of_text (fun index hindex => ?_) c.column
    obtain ⟨htype, hviewed⟩ := hindexes index hindex
    refine ⟨htype, fun s hs => ?_⟩
    rw [hviewed s hs]
    exact ⟨_, inMemory_rowSegment hsegments rfl fun _ => rfl⟩
  have hcolumn : mixedRows.column? "a" = some ⟨"a", some .text, some 0⟩ := rfl
  have hdisjoins : bothKinds.Disjoins mixedRows (fun _ => true) := by
    refine ⟨nofun, ⟨rfl, ⟨rfl, trivial, trivial⟩, trivial⟩, ?_, by decide +kernel,
      by decide +kernel, rfl, fun _ => rfl, fun _ _ _ => ?_⟩
    · intro group hgroup c hc
      have hgroups : bothKinds.query.groups =
          [[onRow .text (.eq [120])], [onRow .text (.eq [121])]] := rfl
      rw [hgroups] at hgroup
      rcases List.mem_pair.1 hgroup with rfl | rfl
      · obtain rfl := List.mem_singleton.1 hc
        exact posed_onRow hcolumn rfl (Condition.wellFormed_of_text rfl)
      · obtain rfl := List.mem_singleton.1 hc
        exact posed_onRow hcolumn rfl (Condition.wellFormed_of_text rfl)
    · exact (by decide : (0 : Duration) - 0 < Duration.ofMilliseconds 5000)
  have hexact := (exact_disjunction hreach hresident hstocked hdisjoins).1
  exact ⟨hreach, hresident, hstocked, hdisjoins, hexact, by decide +kernel⟩

-- Residence alone is not enough.
/-- A run of a disjunction in a resident engine that leaves out what a plain scan of all segments of
live files would find. -/
def Inexact (r : Request) (e : Engine) (filter : Token → Bool) : Prop :=
  Reachable e ∧ e.Resident ∧ r.Disjoins e filter ∧ ¬ r.Exact e (fun s => s.file ∈ e.live) filter

theorem Inexact.of_fault (hreach : Reachable e) (hresident : e.Resident) (hr : r.Disjoins e filter)
    (hfault : (r.run e).1.fault ≠ none) : r.Inexact e filter :=
  ⟨hreach, hresident, hr, fun hexact => hfault hexact.fault⟩

def releasedRow : Engine := rowEngine .text .text [120] [.releaseSegment (rowSegment [120])]

def isX : Condition := onRow .text (.eq [120])

/-- A released segment is passed over, although the snapshot of its column still has it. -/
theorem inexact_releasedRow : (oneOf isX).Inexact releasedRow fun _ => true := by
  have hsegments : releasedRow.segments =
      #[{ reader := { store := .memory (rowPostings .text [120]), closes := 1 }, refs := 0 }] := rfl
  have hresident : releasedRow.Resident := by
    apply resident_rowEngine hsegments rfl (fun hrefs => absurd rfl hrefs)
    · decide +kernel
    · decide +kernel
  have hdisjoins : (oneOf isX).Disjoins releasedRow fun _ => true :=
    disjoins_oneOf (posed_onRow rfl rfl (Condition.wellFormed_of_text rfl)) (by decide +kernel)
  refine ⟨Reachable.start.steps _, hresident, hdisjoins, ?_⟩
  rintro ⟨rows, -, hmem, hrun⟩
  have hempty : ((oneOf isX).run releasedRow).1 = ⟨[], none⟩ := by decide +kernel
  have hnone : rows = [] := by
    rw [hempty] at hrun
    exact (congrArg Outcome.rows hrun).symm
  -- The entry of the segment is still there.
  have hhas : (rowSegment [120]).Has releasedRow isX 1 :=
    ⟨_, _, rfl, rfl, ⟨[120], [1]⟩, List.mem_singleton_self _, by decide, by decide⟩
  have hviewed : (releasedRow.columnIndexOn? "a").map (fun p => p.2.snapshot.segments) =
      some [rowSegment [120]] := by decide +kernel
  obtain ⟨⟨i, index⟩, hon, hsegment⟩ := Option.map_eq_some_iff.1 hviewed
  have hmatches : releasedRow.Matches (fun s => s.file ∈ releasedRow.live) isX 1 :=
    ⟨i, index, hon, .inr ⟨rowSegment [120], hsegment ▸ List.mem_singleton_self _,
      by decide +kernel, hhas⟩⟩
  have hrow : 1 ∈ rows := (hmem 1).2 ⟨by decide, [isX], List.mem_singleton_self _, isX,
    List.mem_singleton_self _, hmatches⟩
  rw [hnone] at hrow
  cases hrow

def numberTerm : Bytes := [128, 0, 0, 0, 0, 0, 0, 1]

def mistypedRow : Engine := rowEngine .text .bigint numberTerm []

def isText : Condition := onRow .text (.range (some ⟨[], true⟩) none)

/-- The terms of a segment of numbers cannot be compared with a text. -/
theorem inexact_mistypedRow : (oneOf isText).Inexact mistypedRow fun _ => true := by
  have hsegments : mistypedRow.segments =
      #[{ reader := .ofPostings (rowPostings .bigint numberTerm), refs := 1 }] := rfl
  have hresident : mistypedRow.Resident := by
    apply resident_rowEngine hsegments rfl (fun _ => rfl)
    · decide +kernel
    · decide +kernel
  have hdisjoins : (oneOf isText).Disjoins mistypedRow fun _ => true :=
    disjoins_oneOf (posed_onRow rfl rfl (Condition.wellFormed_of_text rfl)) (by decide +kernel)
  exact .of_fault (Reachable.start.steps _) hresident hdisjoins (by decide +kernel)

def malformedRow : Engine := rowEngine .bigint .bigint numberTerm [.enter 3 "a" [120]]

def isNumber : Condition := onRow .bigint (.eq numberTerm)

/-- A memtable takes its first value unchecked. No number can be compared with this one. -/
theorem inexact_malformedRow : (oneOf isNumber).Inexact malformedRow fun _ => true := by
  have hsegments : malformedRow.segments =
      #[{ reader := .ofPostings (rowPostings .bigint numberTerm), refs := 1 }] := rfl
  have hresident : malformedRow.Resident := by
    apply resident_rowEngine hsegments rfl (fun _ => rfl)
    · decide +kernel
    · decide +kernel
  have hwellFormed : isNumber.WellFormed := by
    refine ⟨fun b hb _ => ?_, fun b hb _ => ?_, fun v hv => ?_⟩
    · cases hb
      rfl
    · cases hb
      rfl
    · rcases hv with hv | hv <;> cases hv
  have hdisjoins : (oneOf isNumber).Disjoins malformedRow fun _ => true :=
    disjoins_oneOf (posed_onRow rfl rfl hwellFormed) (by decide +kernel)
  exact .of_fault (Reachable.start.steps _) hresident hdisjoins (by decide +kernel)

/-- Rows are lost if a segment is released, and all of them if values cannot be compared. -/
theorem inexact_of_resident : (oneOf isX).Inexact releasedRow (fun _ => true) ∧
    (oneOf isText).Inexact mistypedRow (fun _ => true) ∧
      (oneOf isNumber).Inexact malformedRow fun _ => true :=
  ⟨inexact_releasedRow, inexact_mistypedRow, inexact_malformedRow⟩

end Query.Request
end SecondaryIndex
