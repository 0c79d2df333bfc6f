import SecondaryIndex.Proofs.Account.Sessions
import SecondaryIndex.Proofs.Indexes

namespace SecondaryIndex

namespace Ledger

open Covers (Known)

/-- The rules of those who take part. References are taken and given back by the operations that
need them, not one by one. -/
def Allows (l : Ledger) : Operation → Prop
  | .replaceFiles removed added => removed.Nodup ∧ ∀ f ∈ added, f ∈ l.fresh
  | .createSegment file .. => ∀ f ∈ file, f ∈ l.files
  | .attach _ _ segments => segments.Nodup ∧ ∀ s ∈ segments, s ∈ l.loose
  | .openMatches _ memtable segments => memtable = none ∧ Known l segments
  | .retainFile _ | .releaseFile _ | .pinFiles _ | .releaseFiles _ | .shutdownTable
  | .retainSegment _ | .releaseSegment _ => False
  | _ => True

/-- What has been made, and is not handed over yet, after an operation on `e`. -/
def after (l : Ledger) (e : Engine) : Operation → Ledger
  | .createFile generation path minKey maxKey =>
    match (DataFile.create generation path minKey maxKey e).1 with
    | .ok f => { l with files := l.files ++ [f], fresh := f :: l.fresh }
    | .error _ => l
  | .replaceFiles _ added => { l with fresh := l.fresh.filter (· ∉ added) }
  | .createSegment file reader minKey maxKey minTerm maxTerm =>
    match (Segment.create file reader minKey maxKey minTerm maxTerm e).1 with
    | .ok s => { l with segments := l.segments ++ [s], loose := s :: l.loose }
    | .error _ => l
  | .attach _ _ segments => { l with loose := l.loose.filter (· ∉ segments) }
  | _ => l

end Ledger

/-- The engines that operations within the rules lead to, each with its ledger. A condition comes
with a handle on its index, so nobody names an index without having a handle on it. -/
inductive Accounted : Ledger → Engine → Prop
  | start : Accounted {} {}
  | step {l : Ledger} {e : Engine} (op : Operation) (h : Accounted l e) (ok : l.Allows op)
    (uses : ∀ i ∈ op.uses, i ∈ e.handles) : Accounted (l.after e op) (op.effect e)

namespace Ledger

variable {l : Ledger} {e : Engine}

theorem covers_start : Covers {} [] {} where
  balanced := by
    refine ⟨rfl, rfl, nofun, nofun, ?_, nofun, nofun, ?_⟩
    · intro x c m segments hc
      cases hc
    · intro i state hi
      cases hi
  handed := .nil
  single := .nil
  distinct k s hs := by cases hs
  stored i index hi := by cases hi
  current column i hi := by
    rw [Std.TreeMap.getElem?_emptyc] at hi
    cases hi

/-- An operation within the rules keeps the ledger right, whether it succeeds or fails. -/
theorem Covers.step (h : l.Covers [] e) {op : Operation} (ok : l.Allows op) :
    (l.after e op).Covers [] (op.effect e) := by
  cases op with
  | createFile generation path minKey maxKey =>
    obtain ⟨f, hf, h'⟩ := h.createFile generation path minKey maxKey
    rw [after, hf]
    exact h'
  | replaceFiles removed added => exact h.replace ok.1 ok.2
  | createSegment file reader minKey maxKey minTerm maxTerm =>
    have hcreate := h.createSegment ok reader minKey maxKey minTerm maxTerm
    rw [after]
    change Ledger.Covers _ [] (Segment.create file reader minKey maxKey minTerm maxTerm e).2
    rw [Ensures] at hcreate
    rcases hr : (Segment.create file reader minKey maxKey minTerm maxTerm e).1 with f | s
    · rw [hr] at hcreate
      exact hcreate
    · rw [hr] at hcreate
      exact hcreate
  | markCompacted f =>
    exact h.framed ((DataFile.framed_markCompacted f).frame e) (h.balanced.markCompacted f)
  | searchSegment s c => exact h.searchSegment s c
  | register column type => exact h.register column type
  | createIndex column => exact h.createIndex column
  | dropIndex column => exact h.dropIndex column
  | takeColumn name => exact h.rehandled _
  | shareIndex id => exact h.share id
  | letIndexGo id => exact h.letGo id
  | enter token column value => exact h.enter token column value
  | attach column dropped segments => exact h.attach column dropped ok.1 ok.2
  | searchMemtable id c => exact h.searchMemtable id c
  | shutdownCatalog => exact h.shutdownCatalog
  | openTokens tokens closeFault => exact h.openTokens tokens closeFault none
  | openMatches c memtable segments =>
    obtain ⟨rfl, hknown⟩ := ok
    exact h.openMatches c hknown
  | buildMerge m => exact h.buildMerge m
  | hasNext id => exact h.unmoved (Pull.still_law.cursor_hasNext id _)
  | next id => exact h.unmoved (Pull.still_law.cursor_next id _)
  | skipTo id target => exact h.unmoved (Pull.still_law.cursor_skipTo id target _)
  | closeCursor id => exact h.closeCursor id
  | reclaimCursors held => exact h.reclaimCursors held
  | openSession now range quota => exact h.openSession now range quota
  | plan id connective group => exact h.plan id connective group
  | releaseGroup id group => exact (h.release id group).2.1
  | finish id => exact h.finish id
  | build id q => exact h.build id q
  | releaseQuery id q => exact (h.releaseQuery id q).2
  | run r => exact h.run r
  | _ => exact ok.elim

end Ledger

theorem Accounted.covers {l : Ledger} {e : Engine} (h : Accounted l e) : l.Covers [] e := by
  induction h with
  | start => exact Ledger.covers_start
  | step op _ ok _ ih => exact ih.step ok

theorem Accounted.reachable {l : Ledger} {e : Engine} (h : Accounted l e) : Reachable e := by
  induction h with
  | start => exact .start
  | step op _ _ _ ih => exact .step op ih

/-- Every index that is held still has its segments. -/
def Engine.Sustained (e : Engine) : Prop := ∀ id, e.holds id = true → e.Lives id

theorem catalogInvariant_sustained : CatalogInvariant False Engine.Sustained where
  same he hcontents _ hholds := by
    intro i hi
    rw [Engine.Lives, hcontents.indexes]
    exact he i ((hholds i hi).resolve_right id)
  replace _ _ he := he
  register _ _ he _ := he
  create {e} column type he _ _ := by
    intro i hi
    by_cases hnew : i = e.indexes.size
    · exact ⟨.create column type, by rw [hnew, Array.getElem?_push_size], rfl⟩
    have hold : e.holds i = true := by
      rw [Engine.holds_iff] at hi ⊢
      refine hi.imp_left ?_
      rintro ⟨other, hother⟩
      rw [Std.TreeMap.getElem?_insert] at hother
      split at hother
      · exact absurd (Option.some.inj hother).symm hnew
      · exact ⟨other, hother⟩
    obtain ⟨index, hindex, hlive⟩ := he i hold
    exact ⟨index, by rw [Array.getElem?_push, if_neg hnew, hindex], hlive⟩
  unpublish {e published} he hsub i hi := by
    have hfewer : Engine.Fewer { e with published } e :=
      .of_sessions rfl hsub fun _ hi => hi
    exact he i (hfewer.holds hi)
  enter _ _ _ he _ _ i hi := by
    refine (Engine.lives_updateIndex ?_).2 (he i hi)
    exact fun _ => rfl
  attach _ _ _ he _ _ i hi := by
    refine (Engine.lives_updateIndex ?_).2 (he i hi)
    exact fun _ => rfl
  retire id he hfree i hi := by
    refine Catalog.lives_retired.2 ⟨he i hi, ?_⟩
    rintro rfl
    exact absurd (hfree.symm.trans hi) (by decide)

theorem Accounted.sustained {l : Ledger} {e : Engine} (h : Accounted l e) : e.Sustained := by
  induction h with
  | start =>
    intro i hi
    obtain ⟨column, hcolumn⟩ | hi | ⟨k, s, hk, -⟩ := Engine.holds_iff.1 hi
    · rw [Std.TreeMap.getElem?_emptyc] at hcolumn
      cases hcolumn
    · cases hi
    · cases hk
  | step op _ _ uses ih =>
    exact catalogInvariant_sustained.invariant.effect op _ ih fun i hi => .inl (uses i hi)

/-- An index lets go of its segments when its last holder is gone, neither earlier nor later. -/
theorem Accounted.lives_iff {l : Ledger} {e : Engine} (h : Accounted l e) (i : IndexId) :
    e.Lives i ↔ e.holds i = true := ⟨h.reachable.holding i, h.sustained i⟩

/-- Whether matches are open that read from the segment. -/
def Cursor.reads (c : Cursor) (s : Segment) : Bool :=
  match c.source with
  | .matches _ segments => c.closes = 0 && s ∈ segments
  | _ => false

namespace Engine

/-- Whether the snapshot of a living index has the segment: of one on its column, or one that a
caller has a handle on, or an open group a condition. -/
def stores (e : Engine) (s : Segment) : Bool :=
  e.indexes.toList.zipIdx.any fun (index, i) => e.holds i && s ∈ index.snapshot.segments

/-- The number of open matches that read from the segment. -/
def readings (e : Engine) (s : Segment) : Nat := e.cursors.toList.countP fun c => c.reads s

/-- The number of unfinished sessions with the file in scope. -/
def scopings (e : Engine) (f : DataFile) : Nat :=
  e.sessions.toList.countP fun s => !s.finished && f ∈ s.scope

end Engine

section

variable {α β : Type} [DecidableEq β]

theorem count_flatMap_eq_countP {l : List α} {f : α → List β} {b : β} {p : α → Bool}
    (h : ∀ a ∈ l, (f a).count b = if p a then 1 else 0) : (l.flatMap f).count b = l.countP p := by
  induction l with
  | nil => rfl
  | cons a rest ih =>
    rw [List.forall_mem_cons] at h
    rw [List.flatMap_cons, List.count_append, h.1, ih h.2, List.countP_cons, Nat.add_comm]

theorem count_map_id [DecidableEq α] {l all : List α} {id : α → Nat} (hall : (all.map id).Nodup)
    (hl : ∀ a ∈ l, a ∈ all) {a : α} (ha : a ∈ all) : (l.map id).count (id a) = l.count a := by
  rw [List.count_eq_countP, List.countP_map, List.count_eq_countP]
  refine List.countP_congr fun b hb => ?_
  simp only [Function.comp_apply, beq_iff_eq]
  exact ⟨fun heq => List.inj_on_of_nodup_map hall (hl b hb) ha heq, congrArg id⟩

theorem count_of_nodup [DecidableEq α] {l : List α} (h : l.Nodup) (a : α) :
    l.count a = if a ∈ l then 1 else 0 := by
  split
  next ha => exact List.count_eq_one_of_mem h ha
  next ha => exact List.count_eq_zero_of_not_mem ha

end

namespace Ledger.Covers

variable {l : Ledger} {e : Engine}

theorem count_lent (h : l.Covers [] e) {s : Segment} (hs : s ∈ l.segments) :
    (Loan.lentFrom 0 e.cursors).count s.id = e.readings s := by
  have hnodup : (l.segments.map Segment.id).Nodup := h.balanced.numbered ▸ List.nodup_range
  rw [Loan.lentFrom, List.drop_zero, Engine.readings]
  refine count_flatMap_eq_countP fun c hc => ?_
  obtain ⟨x, hx⟩ := List.mem_iff_getElem?.1 hc
  rw [Array.getElem?_toList] at hx
  rcases c with ⟨extent, source, ahead, exhausted, closes⟩
  cases source with
  | «matches» m segments =>
    obtain ⟨hdistinct, hmade⟩ := h.balanced.lenders x _ m segments hx rfl
    rw [Cursor.lent, Cursor.reads]
    by_cases hopen : closes = 0
    · simp only [if_pos hopen, count_map_id hnodup hmade hs, count_of_nodup hdistinct]
      simp [hopen]
    · simp [hopen]
  | _ => rfl

theorem count_scopes (h : l.Covers [] e) (f : DataFile) : e.scopes.count f = e.scopings f := by
  refine count_flatMap_eq_countP fun s hs => ?_
  obtain ⟨k, hk⟩ := List.mem_iff_getElem?.1 hs
  rw [Array.getElem?_toList] at hk
  rw [Session.pins]
  cases s.finished with
  | true => rfl
  | false =>
    rw [if_neg Bool.false_ne_true, count_of_nodup (h.distinct k s hk)]
    simp

end Ledger.Covers

theorem Accounted.mem_views {l : Ledger} {e : Engine} (h : Accounted l e) {s : Segment} :
    s ∈ e.views ↔ e.stores s = true := by
  have hview : ∀ i index, e.indexes[i]? = some index →
      (s ∈ index.view ↔ e.holds i = true ∧ s ∈ index.snapshot.segments) := by
    intro i index hi
    have hlives : index.retired = false ↔ e.holds i = true := by
      rw [← h.lives_iff, Engine.Lives, hi]
      simp
    rw [ColumnIndex.view, ← hlives]
    cases index.retired <;> simp
  simp only [Engine.views, Engine.stores, List.mem_flatMap, List.any_eq_true, Prod.exists,
    List.mem_zipIdx_iff_getElem?, Array.getElem?_toList, Bool.and_eq_true, decide_eq_true_eq]
  constructor
  · rintro ⟨index, hindex, hs⟩
    obtain ⟨i, hi⟩ := List.mem_iff_getElem?.1 hindex
    rw [Array.getElem?_toList] at hi
    exact ⟨index, i, hi, (hview i index hi).1 hs⟩
  · rintro ⟨index, i, hi, hs⟩
    exact ⟨index, Array.mem_toList_iff.2 (Array.mem_of_getElem? hi), (hview i index hi).2 hs⟩

/-- As long as the rules are kept, the references are those of the holders: a file has one for being
live, for each segment on it that is not released, for each unfinished session with it in scope, and
while it is not yet handed to the table; a segment has one for being in the snapshot of a living
index, for all open matches that read from it, and while it is not yet handed to a catalog. -/
theorem Accounted.references {l : Ledger} {e : Engine} (h : Accounted l e) :
    l.files.map DataFile.id = List.range e.files.size ∧
      l.segments.map Segment.id = List.range e.segments.size ∧
      (∀ f ∈ l.files, (e.file f).refs = (if f ∈ e.live then 1 else 0) +
        l.segments.countP (fun s => s.file = f ∧ e.refs s ≠ 0) + e.scopings f +
          if f ∈ l.fresh then 1 else 0) ∧
      ∀ s ∈ l.segments, e.refs s = (if e.stores s then 1 else 0) + e.readings s +
        if s ∈ l.loose then 1 else 0 := by
  have hcovers := h.covers
  have hb := hcovers.balanced
  refine ⟨hb.listed, hb.numbered, fun f hf => ?_, fun s hs => ?_⟩
  · have hnodup : (l.files.map DataFile.id).Nodup := hb.listed ▸ List.nodup_range
    have hlt := hb.file_lt hf
    have hi : e.files[f.id]? = some e.files[f.id] := Array.getElem?_eq_getElem hlt
    have hknown : ∀ g ∈ (e.unreleased l.segments).map Segment.file ++
        ([] ++ (e.live ++ l.fresh ++ e.scopes)), g ∈ l.files := by
      intro g hg
      rcases List.mem_append.1 hg with hg | hg
      · obtain ⟨s, hs, rfl⟩ := List.mem_map.1 hg
        exact hb.known s (List.mem_of_mem_filter hs)
      · exact hb.keepers g hg
    have hsegments : ((e.unreleased l.segments).map Segment.file).count f =
        l.segments.countP fun s => s.file = f ∧ e.refs s ≠ 0 := by
      rw [List.count_eq_countP, List.countP_map, Engine.unreleased, List.countP_filter]
      refine List.countP_congr fun s _ => ?_
      simp
    have hrefs := hb.files f.id _ hi
    rw [count_map_id hnodup hknown hf, List.nil_append, List.count_append, List.count_append,
      List.count_append, hsegments, hcovers.count_scopes,
      count_of_nodup hcovers.single.of_append_left,
      count_of_nodup hcovers.single.of_append_right] at hrefs
    rw [Engine.file, Array.getD_eq_getD_getElem?, hi, Option.getD_some, hrefs]
    omega
  · have hnodup : (l.segments.map Segment.id).Nodup := hb.numbered ▸ List.nodup_range
    rw [hb.segments s hs, hcovers.count_lent hs, count_map_id hnodup hb.holders hs,
      List.count_append, count_of_nodup hcovers.handed.of_append_left,
      count_of_nodup hcovers.handed.of_append_right]
    simp only [h.mem_views]
    omega

namespace Accounted

def heldFile : DataFile := ⟨0, 1, "data", 0, 9⟩

def heldSegment : Segment := ⟨0, heldFile, 3, 5, [120], [120]⟩

def heldReader : Reader where
  store := .external fun _ => .ok (some ⟨[3, 5], some .searchAfterClose⟩)

def heldLedger : Ledger := { files := [heldFile], segments := [heldSegment] }

/-- The index is dropped, but a caller has a handle on it. -/
def dropped : Engine :=
  Operation.effects
    [.createFile 1 "data" 0 9, .replaceFiles [] [heldFile],
      .createSegment (some heldFile) (some heldReader) 3 5 [120] [120], .register "a" (some .text),
      .createIndex "a", .attach "a" [] [heldSegment], .takeColumn "a", .dropIndex "a"] {}

def droppedInUse : Engine :=
  Operation.effects
    [.openSession 0 (some .full) 0, .plan 0 .and [⟨"a", .text, some 0, .eq [120]⟩]] dropped

/-- The handle is given back, and the session is finished. -/
def droppedAtLast : Engine := Operation.effects [.letIndexGo 0, .finish 0] droppedInUse

theorem accounted_dropped : Accounted heldLedger dropped :=
  (((((((Accounted.start.step (.createFile 1 "data" 0 9) trivial nofun).step
    (.replaceFiles [] [heldFile]) ⟨.nil, by decide⟩ nofun).step
    (.createSegment (some heldFile) (some heldReader) 3 5 [120] [120])
      (by rintro _ ⟨⟩; decide) nofun).step
    (.register "a" (some .text)) trivial nofun).step (.createIndex "a") trivial nofun).step
    (.attach "a" [] [heldSegment]) ⟨by decide, by decide⟩ nofun).step
    (.takeColumn "a") trivial nofun).step (.dropIndex "a") trivial nofun

theorem accounted_droppedInUse : Accounted heldLedger droppedInUse :=
  (accounted_dropped.step (.openSession 0 (some .full) 0) trivial nofun).step
    (.plan 0 .and [⟨"a", .text, some 0, .eq [120]⟩]) trivial (by decide +kernel)

theorem accounted_droppedAtLast : Accounted heldLedger droppedAtLast :=
  (accounted_droppedInUse.step (.letIndexGo 0) trivial (by decide +kernel)).step
    (.finish 0) trivial nofun

/-- The segment has a reference for its index as long as the handle or the group is there. -/
theorem droppedInUse_references :
    (dropped.refs heldSegment = 1 ∧ dropped.stores heldSegment = true) ∧
      (droppedInUse.refs heldSegment = 2 ∧ droppedInUse.stores heldSegment = true ∧
        droppedInUse.readings heldSegment = 1 ∧ (droppedInUse.file heldFile).refs = 3 ∧
          droppedInUse.scopings heldFile = 1) ∧
      droppedAtLast.refs heldSegment = 0 ∧ (droppedAtLast.file heldFile).refs = 1 := by
  have hmem : heldSegment ∈ heldLedger.segments := by decide
  obtain ⟨-, -, -, hdropped⟩ := accounted_dropped.references
  obtain ⟨-, -, hfiles, hinUse⟩ := accounted_droppedInUse.references
  obtain ⟨-, -, hfilesAtLast, hatLast⟩ := accounted_droppedAtLast.references
  have hcount : ∀ e : Engine, heldLedger.segments.countP
      (fun s => s.file = heldFile ∧ e.refs s ≠ 0) = if e.refs heldSegment = 0 then 0 else 1 := by
    intro e
    have hfile : heldSegment.file = heldFile := rfl
    by_cases h : e.refs heldSegment = 0 <;> simp [heldLedger, hfile, h]
  have hstores : dropped.stores heldSegment = true := by decide +kernel
  have hstoresInUse : droppedInUse.stores heldSegment = true := by decide +kernel
  have hreadings : droppedInUse.readings heldSegment = 1 := by decide +kernel
  have hscopings : droppedInUse.scopings heldFile = 1 := by decide +kernel
  have hsegment : droppedInUse.refs heldSegment = 2 := by
    rw [hinUse heldSegment hmem, hstoresInUse, hreadings]
    decide
  have hsegmentAtLast : droppedAtLast.refs heldSegment = 0 := by
    rw [hatLast heldSegment hmem]
    decide +kernel
  refine ⟨⟨?_, hstores⟩, ⟨hsegment, hstoresInUse, hreadings, ?_, hscopings⟩, hsegmentAtLast, ?_⟩
  · rw [hdropped heldSegment hmem, hstores]
    decide +kernel
  · rw [hfiles heldFile (by decide), hcount, hsegment, hscopings]
    decide +kernel
  · rw [hfilesAtLast heldFile (by decide), hcount, hsegmentAtLast]
    decide +kernel

end Accounted
end SecondaryIndex
