import Mathlib.Data.List.Dedup
import SecondaryIndex.Proofs.Account
import SecondaryIndex.Proofs.Indexes

namespace SecondaryIndex

/-- A segment after `count` references on it were given up. -/
def SegmentState.giveUp (count : Nat) (state : SegmentState) : SegmentState where
  reader := if 0 < count ∧ state.refs = count then
    { state.reader with closes := state.reader.closes + 1 } else state.reader
  refs := state.refs - count

/-- A segment after it was released `times` times, in vain once no reference was left. -/
def SegmentState.released (times : Nat) (state : SegmentState) : SegmentState where
  reader := if 0 < state.refs ∧ state.refs ≤ times then
    { state.reader with closes := state.reader.closes + 1 } else state.reader
  refs := state.refs - times

namespace SegmentState

variable {state : SegmentState} {n : Nat}

theorem map_giveUp_zero (state? : Option SegmentState) : state?.map (giveUp 0) = state? := by
  cases state? with
  | none => rfl
  | some state => simp [giveUp]

theorem map_released_zero (state? : Option SegmentState) : state?.map (released 0) = state? := by
  cases state? with
  | none => rfl
  | some state =>
    rw [Option.map_some, released, if_neg (by omega)]
    rfl

theorem released_of_unreferenced (h : state.refs = 0) : state.released n = state := by
  rw [released, if_neg (by omega), h, Nat.zero_sub, ← h]

/-- One after the other is all at once. -/
theorem released_succ : (state.released 1).released n = state.released (n + 1) := by
  unfold released
  congr 1
  · by_cases hlast : state.refs = 1
    · rw [if_neg (by dsimp only; omega), if_pos (by omega), if_pos (by omega)]
    · rw [if_neg (c := 0 < state.refs ∧ state.refs ≤ 1) (by omega)]
      refine if_congr ?_ rfl rfl
      dsimp only
      omega
  · dsimp only
    omega

theorem released_of_le (h : n ≤ state.refs) : state.released n = state.giveUp n := by
  unfold released giveUp
  congr 1
  refine if_congr ?_ rfl rfl
  omega

end SegmentState

namespace Segment

/-- A list of segments in which each number stands for one segment. -/
def Named (segments : List Segment) : Prop :=
  ∀ s ∈ segments, ∀ t ∈ segments, s.id = t.id → s = t

instance (segments : List Segment) : Decidable (Named segments) :=
  inferInstanceAs (Decidable (∀ s ∈ segments, ∀ t ∈ segments, s.id = t.id → s = t))

/-- Each entry of a list carries one reference of its segment. -/
def Carried (e : Engine) (segments : List Segment) : Prop :=
  ∀ s ∈ segments, segments.count s ≤ e.refs s

instance (e : Engine) (segments : List Segment) : Decidable (Carried e segments) :=
  inferInstanceAs (Decidable (∀ s ∈ segments, segments.count s ≤ e.refs s))

/-- How many segments over `f` a list holds, repeats left out, that pass the test. -/
def countOver (f : DataFile) (test : Segment → Bool) (segments : List Segment) : Nat :=
  segments.dedup.countP fun s => s.file.id = f.id && test s

theorem countOver_eq {f : DataFile} {test test' : Segment → Bool}
    {segments segments' : List Segment}
    (h : ∀ s, s ∈ segments ∧ test s ↔ s ∈ segments' ∧ test' s) :
    countOver f test segments = countOver f test' segments' := by
  unfold countOver
  rw [List.countP_eq_length_filter, List.countP_eq_length_filter]
  refine List.Perm.length_eq ((List.perm_ext_iff_of_nodup ((List.nodup_dedup _).filter _)
    ((List.nodup_dedup _).filter _)).2 fun s => ?_)
  simp only [List.mem_filter, List.mem_dedup, Bool.and_eq_true, and_left_comm, h s]

theorem countOver_congr {f : DataFile} {test test' : Segment → Bool} {segments : List Segment}
    (h : ∀ s ∈ segments, test s = test' s) :
    countOver f test segments = countOver f test' segments :=
  countOver_eq fun s => and_congr_right fun hs => by rw [h s hs]

theorem countOver_cons (f : DataFile) (test : Segment → Bool) (s : Segment) (rest : List Segment) :
    countOver f test (s :: rest) =
      (if test s ∧ s.file.id = f.id then 1 else 0) +
        countOver f (fun t => test t && t ≠ s) rest := by
  have hothers : countOver f (fun t => test t && t ≠ s) rest =
      countOver f test (rest.filter fun t => t ≠ s) :=
    countOver_eq fun t => by
      rw [List.mem_filter, Bool.and_eq_true]
      tauto
  have hrepeats : countOver f test (s :: rest) =
      countOver f test (s :: rest.filter fun t => t ≠ s) :=
    countOver_eq fun t => by
      simp only [List.mem_cons, List.mem_filter, decide_eq_true_eq]
      tauto
  have hnew : s ∉ rest.filter fun t => t ≠ s := by simp
  rw [hrepeats, hothers, countOver, List.dedup_cons_of_notMem hnew, List.countP_cons, Nat.add_comm]
  congr 1
  simp [and_comm]

/-- What releasing each entry of a list once makes of an engine. -/
structure Released (segments : List Segment) (e e' : Engine) : Prop where
  frame : Frame e e'
  cursors : e'.cursors = e.cursors
  segment : ∀ s, (∀ t ∈ segments, t.id = s.id → t = s) →
    e'.segment? s = (e.segment? s).map (SegmentState.released (segments.count s))
  /-- Each segment that lost its last reference has given up its file. -/
  file : ∀ f, e'.file f = { e.file f with
    refs := (e.file f).refs -
      countOver f (fun s => 0 < e.refs s ∧ e.refs s ≤ segments.count s) segments }

/-- What giving up one reference for each entry of a list makes of an engine. -/
structure GivenUp (segments : List Segment) (e e' : Engine) : Prop where
  frame : Frame e e'
  segment : ∀ s, (∀ t ∈ segments, t.id = s.id → t = s) →
    e'.segment? s = (e.segment? s).map (SegmentState.giveUp (segments.count s))
  file : ∀ f, e'.file f = { e.file f with
    refs := (e.file f).refs - countOver f (fun s => e.refs s = segments.count s) segments }

namespace GivenUp

variable {segments : List Segment} {s : Segment} {e e' : Engine}

theorem refs (h : GivenUp segments e e') (ht : ∀ t ∈ segments, t.id = s.id → t = s) :
    e'.refs s = e.refs s - segments.count s := by
  unfold Engine.refs
  rw [h.segment s ht]
  cases e.segment? s with
  | none => simp
  | some state => rfl

end GivenUp

end Segment

namespace Segment

variable {segments rest : List Segment} {s : Segment} {e : Engine}

theorem refs_of_segment? {state : SegmentState} (h : e.segment? s = some state) :
    e.refs s = state.refs := by
  rw [Engine.refs, h]
  rfl

theorem release_in_vain (h : e.refs s = 0) : (s.release e).2 = e := by
  rw [release_apply, if_pos h]

theorem segment?_release (s t : Segment) (e : Engine) :
    (s.release e).2.segment? t =
      if s.id = t.id then (e.segment? t).map (SegmentState.released 1) else e.segment? t := by
  have hrefs : ∀ state, s.id = t.id → e.segment? t = some state → e.refs s = state.refs := by
    intro state hid ht
    refine refs_of_segment? ?_
    unfold Engine.segment? at *
    rw [hid, ht]
  by_cases hheld : e.refs s = 0
  · rw [release_in_vain hheld]
    split
    next hid =>
      refine (Option.map_id'.symm.trans (Option.map_congr fun state ht => ?_) :)
      exact (SegmentState.released_of_unreferenced ((hrefs state hid ht).symm.trans hheld)).symm
    next => rfl
  rw [release_snd (Nat.pos_of_ne_zero hheld)]
  by_cases hid : s.id = t.id
  · rw [if_pos hid]
    split
    next hone =>
      rw [segment?_closed, if_pos hid, dropped, Engine.segment?_updateSegment, if_pos hid,
        Option.map_map]
      refine Option.map_congr fun state ht => ?_
      have hlast : state.refs = 1 := (hrefs state hid ht).symm.trans hone
      simp [SegmentState.released, Reader.close, hlast]
    next hone =>
      rw [dropped, Engine.segment?_updateSegment, if_pos hid]
      refine Option.map_congr fun state ht => ?_
      have hmore : ¬ (0 < state.refs ∧ state.refs ≤ 1) := by
        have := hrefs state hid ht
        omega
      rw [SegmentState.released, if_neg hmore]
  · rw [if_neg hid]
    split
    · rw [segment?_closed, if_neg hid, dropped, Engine.segment?_updateSegment, if_neg hid]
    · rw [dropped, Engine.segment?_updateSegment, if_neg hid]

theorem refs_release (s t : Segment) (e : Engine) :
    (s.release e).2.refs t = if s.id = t.id then e.refs t - 1 else e.refs t := by
  unfold Engine.refs
  rw [segment?_release]
  split
  · cases e.segment? t <;> rfl
  · rfl

theorem file_release (s : Segment) (e : Engine) (f : DataFile) :
    (s.release e).2.file f = { e.file f with
      refs := (e.file f).refs - if e.refs s = 1 ∧ s.file.id = f.id then 1 else 0 } := by
  by_cases hheld : e.refs s = 0
  · rw [release_in_vain hheld, if_neg (fun h => by omega)]
    rfl
  rw [release_snd (Nat.pos_of_ne_zero hheld)]
  by_cases hone : e.refs s = 1
  · rw [if_pos hone, closed, DataFile.file_release, closeReader_snd]
    simp only [hone, true_and]
    rfl
  · rw [if_neg hone, if_neg (fun h => hone h.1)]
    rfl

theorem countOver_release (hnamed : Named (s :: rest)) (f : DataFile) :
    countOver f (fun t => 0 < e.refs t ∧ e.refs t ≤ (s :: rest).count t) (s :: rest) =
      (if e.refs s = 1 ∧ s.file.id = f.id then 1 else 0) +
        countOver f (fun t => 0 < (s.release e).2.refs t ∧
          (s.release e).2.refs t ≤ rest.count t) rest := by
  have hothers : ∀ t ∈ rest, t ≠ s →
      (s.release e).2.refs t = e.refs t ∧ (s :: rest).count t = rest.count t := by
    intro t ht hne
    refine ⟨?_, List.count_cons_of_ne hne.symm⟩
    rw [refs_release, if_neg fun hid => hne ?_]
    exact (hnamed s List.mem_cons_self t (List.mem_cons_of_mem s ht) hid).symm
  have hself : (s.release e).2.refs s = e.refs s - 1 := by
    rw [refs_release, if_pos rfl]
  have hcount : (s :: rest).count s = rest.count s + 1 := List.count_cons_self
  by_cases hone : e.refs s = 1
  · rw [countOver_cons]
    congr 1
    · simp [hone]
    · refine countOver_congr fun t ht => ?_
      by_cases hts : t = s
      · subst hts
        simp [hself, hone]
      · obtain ⟨h₁, h₂⟩ := hothers t ht hts
        simp [h₁, h₂, hts]
  · rw [if_neg fun h => hone h.1, Nat.zero_add]
    refine countOver_eq fun t => ?_
    simp only [decide_eq_true_eq]
    by_cases hts : t = s
    · subst hts
      rw [hself, hcount]
      constructor
      · intro ⟨_, h⟩
        exact ⟨List.count_pos_iff.1 (by omega), by omega⟩
      · intro ⟨_, h⟩
        exact ⟨List.mem_cons_self, by omega⟩
    · rw [List.mem_cons, or_iff_right hts]
      refine and_congr_right fun ht => ?_
      obtain ⟨h₁, h₂⟩ := hothers t ht hts
      rw [h₁, h₂]

theorem releaseAll_released (hnamed : Named segments) (e : Engine) :
    Released segments e (releaseAll segments e).2 := by
  induction segments generalizing e with
  | nil =>
    refine ⟨.refl e, rfl, fun s _ => ?_, fun f => rfl⟩
    rw [List.count_nil, SegmentState.map_released_zero]
    rfl
  | cons s rest ih =>
    have hlast := ih (fun t ht u hu => hnamed t (List.mem_cons_of_mem s ht) u
      (List.mem_cons_of_mem s hu)) (s.release e).2
    refine ⟨((Segment.framed_release s).frame e).trans hlast.frame,
      hlast.cursors.trans (cursors_release s e), fun t ht => ?_, fun f => ?_⟩
    · refine (hlast.segment t fun u hu => ht u (List.mem_cons_of_mem s hu)).trans ?_
      rw [segment?_release]
      by_cases hid : s.id = t.id
      · obtain rfl := ht s List.mem_cons_self hid
        rw [if_pos rfl, Option.map_map, List.count_cons_self]
        exact Option.map_congr fun state _ => SegmentState.released_succ
      · have hst : ¬ s = t := fun hst => hid (congrArg Segment.id hst)
        rw [if_neg hid, List.count_cons_of_ne hst]
    · refine (hlast.file f).trans ?_
      rw [file_release, countOver_release hnamed, Nat.sub_sub]

/-- As long as each entry carries a reference, a list of releases gives them all up. -/
theorem releaseAll_givenUp (hnamed : Named segments) (h : Carried e segments) :
    GivenUp segments e (releaseAll segments e).2 := by
  have hreleased := releaseAll_released hnamed e
  refine ⟨hreleased.frame, fun s hs => ?_, fun f => ?_⟩
  · rw [hreleased.segment s hs]
    refine Option.map_congr fun state hstate => SegmentState.released_of_le ?_
    by_cases hmem : s ∈ segments
    · exact refs_of_segment? hstate ▸ h s hmem
    · rw [List.count_eq_zero.2 hmem]
      exact Nat.zero_le _
  · rw [hreleased.file f, countOver_congr fun s hs => decide_eq_decide.2 ?_]
    have hle := h s hs
    have hpos := List.count_pos_iff.2 hs
    omega

end Segment

namespace SegmentSet

theorem isSome_find? (g : Nat) (set : List Segment) :
    (set.find? fun t => t.generation = g).isSome = hasGeneration g set := by
  rw [Bool.eq_iff_iff, List.find?_isSome, hasGeneration, List.any_eq_true]

theorem find?_insert {s : Segment} {set : List Segment}
    (h : hasGeneration s.generation set = false) (g : Nat) :
    (insert s set).find? (fun t => t.generation = g) =
      if s.generation = g then some s else set.find? fun t => t.generation = g := by
  induction set with
  | nil =>
    rw [insert, List.find?_singleton]
    simp only [decide_eq_true_eq]
    split <;> rfl
  | cons t rest ih =>
    rw [hasGeneration, List.any_cons, Bool.or_eq_false_iff, decide_eq_false_iff_not] at h
    rw [insert]
    split
    · rw [List.find?_cons]
      by_cases hs : s.generation = g <;> simp [hs]
    · rw [if_neg (Ne.symm h.1), List.find?_cons, ih h.2, List.find?_cons]
      by_cases ht : t.generation = g
      · have hs : ¬ s.generation = g := fun hs => h.1 (ht.trans hs.symm)
        simp [ht, hs]
      · simp [ht]

end SegmentSet

namespace Snapshot

variable {leaves : DataFile → Bool}

/-- Whether a segment is one of the given generation that may be kept. -/
def stays (leaves : DataFile → Bool) (g : Nat) (s : Segment) : Bool :=
  s.generation = g && !leaves s.file

theorem find?_consider (sel : Selection) (s : Segment) (g : Nat) :
    (consider leaves sel s).kept.find? (fun t => t.generation = g) =
      (sel.kept.find? fun t => t.generation = g).or
        (if stays leaves g s then some s else none) := by
  rw [consider]
  by_cases hleaves : leaves s.file = true
  · rw [hleaves, Bool.true_or, if_pos rfl, stays, hleaves]
    simp
  by_cases hgeneration : SegmentSet.hasGeneration s.generation sel.kept = true
  · rw [hgeneration, Bool.or_true, if_pos rfl]
    by_cases hs : s.generation = g
    · rw [hs, ← SegmentSet.isSome_find?, Option.isSome_iff_exists] at hgeneration
      obtain ⟨t, ht⟩ := hgeneration
      rw [ht, Option.some_or]
    · simp [stays, hs]
  · rw [Bool.not_eq_true] at hleaves hgeneration
    rw [hleaves, hgeneration, Bool.or_false, if_neg Bool.false_ne_true,
      SegmentSet.find?_insert hgeneration]
    by_cases hs : s.generation = g
    · have hnone : sel.kept.find? (fun t => t.generation = g) = none := by
        rw [← Option.not_isSome_iff_eq_none, SegmentSet.isSome_find?, ← hs, hgeneration]
        exact Bool.false_ne_true
      rw [if_pos hs, hnone, Option.none_or, stays, hleaves]
      simp [hs]
    · simp [stays, hs]

/-- Of each generation the first segment is kept whose file stays. -/
theorem find?_select (segments : List Segment) (g : Nat) :
    (select leaves segments).kept.find? (fun t => t.generation = g) =
      segments.find? (stays leaves g) := by
  have hfold : ∀ (rest : List Segment) (sel : Selection),
      (rest.foldl (consider leaves) sel).kept.find? (fun t => t.generation = g) =
        (sel.kept.find? fun t => t.generation = g).or (rest.find? (stays leaves g)) := by
    intro rest
    induction rest with
    | nil =>
      intro sel
      rw [List.foldl_nil, List.find?_nil, Option.or_none]
    | cons s rest ih =>
      intro sel
      rw [List.foldl_cons, ih, find?_consider, Option.or_assoc, List.find?_cons]
      congr 1
      cases stays leaves g s <;> rfl
  exact hfold segments {}

/-- What becomes of the entries that an update merges. -/
structure Merged (entries : List Segment) (leaves : DataFile → Bool) (v : Snapshot)
    (e e' : Engine) : Prop where
  rising : v.segments.Pairwise (·.generation < ·.generation)
  first : ∀ g, v.segments.find? (fun s => s.generation = g) = entries.find? (stays leaves g)
  /-- Each segment has lost a reference for each of its entries that was not kept. -/
  references : ∀ s ∈ entries, e'.refs s + entries.count s = e.refs s + v.segments.count s
  /-- A reader is closed once, with the last reference, also if that fails. -/
  reader : ∀ s ∈ entries, (e'.segment? s).map SegmentState.reader = (e.segment? s).map fun state =>
    if e'.refs s = 0 then { state.reader with closes := state.reader.closes + 1 } else state.reader
  others : ∀ s, (∀ t ∈ entries, t.id ≠ s.id) → e'.segment? s = e.segment? s
  /-- Each segment whose last reference went has given up its file. -/
  file : ∀ f, e'.file f = { e.file f with
    refs := (e.file f).refs - Segment.countOver f (fun s => e'.refs s = 0) entries }
  frame : Frame e e'

variable {entries : List Segment} {e e' : Engine} {v : Snapshot}

theorem count_select (leaves : DataFile → Bool) (entries : List Segment) (s : Segment) :
    (select leaves entries).kept.count s + (select leaves entries).excluded.count s =
      entries.count s := by
  rw [← List.count_append]
  exact (perm_select leaves entries).count_eq s

theorem mem_of_mem_excluded {s : Segment} (h : s ∈ (select leaves entries).excluded) :
    s ∈ entries := by
  have h₁ := List.count_pos_iff.2 h
  have h₂ := count_select leaves entries s
  exact List.count_pos_iff.1 (by omega)

theorem named_excluded (leaves : DataFile → Bool) (h : Segment.Named entries) :
    Segment.Named (select leaves entries).excluded :=
  fun s hs t ht => h s (mem_of_mem_excluded hs) t (mem_of_mem_excluded ht)

theorem carried_excluded (leaves : DataFile → Bool) (h : Segment.Carried e entries) :
    Segment.Carried e (select leaves entries).excluded := by
  intro s hs
  have h₁ := h s (mem_of_mem_excluded hs)
  have h₂ := count_select leaves entries s
  omega

theorem merged_of_givenUp (hv : v.segments = (select leaves entries).kept)
    (hnamed : Segment.Named entries) (hcarried : Segment.Carried e entries)
    (h : Segment.GivenUp (select leaves entries).excluded e e') : Merged entries leaves v e e' := by
  have hcount : ∀ s, v.segments.count s + (select leaves entries).excluded.count s =
      entries.count s := by
    intro s
    rw [hv, count_select]
  have hmem : ∀ s ∈ (select leaves entries).excluded, s ∈ entries := fun _ => mem_of_mem_excluded
  generalize (select leaves entries).excluded = excluded at h hcount hmem
  have hlone : ∀ s ∈ entries, ∀ t ∈ excluded, t.id = s.id → t = s :=
    fun s hs t ht => hnamed t (hmem t ht) s hs
  have hrefs : ∀ s ∈ entries, e'.refs s + excluded.count s = e.refs s := by
    intro s hs
    have h₁ := hcarried s hs
    have h₂ := hcount s
    have h₃ := h.refs (hlone s hs)
    omega
  have hheld : ∀ s ∈ entries, 0 < e.refs s := fun s hs =>
    Nat.lt_of_lt_of_le (List.count_pos_iff.2 hs) (hcarried s hs)
  refine ⟨hv ▸ pairwise_select leaves entries, fun g => hv ▸ find?_select entries g, ?_, ?_, ?_, ?_,
    h.frame⟩
  · intro s hs
    have h₁ := hrefs s hs
    have h₂ := hcount s
    omega
  · intro s hs
    rw [h.segment s (hlone s hs), Option.map_map]
    refine Option.map_congr fun state hstate => ?_
    have h₁ := hrefs s hs
    have h₂ := hheld s hs
    have h₃ : e.refs s = state.refs := by
      rw [Engine.refs, hstate]
      rfl
    refine if_congr ?_ rfl rfl
    omega
  · intro s hs
    have hother : ∀ t ∈ excluded, t.id ≠ s.id := fun t ht => hs t (hmem t ht)
    have hnone : excluded.count s = 0 := List.count_eq_zero.2 fun hs => hother s hs rfl
    rw [h.segment s (fun t ht hid => absurd hid (hother t ht)), hnone, SegmentState.map_giveUp_zero]
  · intro f
    -- A segment loses its last reference here just if every entry of it was left out.
    have hsame : Segment.countOver f (fun s => e.refs s = excluded.count s) excluded =
        Segment.countOver f (fun s => e'.refs s = 0) entries := by
      refine Segment.countOver_eq fun s => ?_
      simp only [decide_eq_true_eq]
      constructor
      · rintro ⟨hs, hlast⟩
        have := hrefs s (hmem s hs)
        exact ⟨hmem s hs, by omega⟩
      · rintro ⟨hs, hlast⟩
        have h₁ := hrefs s hs
        have h₂ := hheld s hs
        exact ⟨List.count_pos_iff.1 (by omega), by omega⟩
    rw [h.file f, hsame]

/-- What may go wrong while ends of intervals are compared. -/
def ofEnds : Fault → Bool
  | .badWidth _ | .invertedInterval => true
  | _ => false

theorem ofEnds_compare {type : ValueType} {a b : Bytes} {f : Fault}
    (h : type.compare a b = .error f) : ofEnds f := by
  have hdecode : ∀ {b : Bytes} {f : Fault}, Bigint.decode b = .error f → ofEnds f := by
    intro b f h
    unfold Bigint.decode at h
    split at h
    · cases h
    · cases h
      rfl
  by_cases htype : type = .bigint
  · subst htype
    rcases bind_eq_error.1 (show Bigint.compare a b = .error f from h) with h | ⟨_, _, h⟩
    · exact hdecode h
    · rcases bind_eq_error.1 h with h | ⟨_, _, h⟩
      · exact hdecode h
      · cases h
  · rw [ValueType.compare_of_ne_bigint htype] at h
    cases h

theorem ofEnds_less {type : ValueType} {a b : Bytes} {f : Fault} (h : type.less a b = .error f) :
    ofEnds f := by
  rcases bind_eq_error.1 h with h | ⟨_, _, h⟩
  · exact ofEnds_compare h
  · cases h

theorem ofEnds_check {α β : Type} {less : α → α → Except Fault Bool}
    (hless : ∀ {a b : α} {f : Fault}, less a b = .error f → ofEnds f)
    {intervals : List (Interval α β)} {f : Fault}
    (h : IntervalTree.check less intervals = .error f) : ofEnds f := by
  induction intervals with
  | nil => cases h
  | cons i rest ih =>
    rcases bind_eq_error.1 h with h | ⟨inverted, _, h⟩
    · exact hless h
    · cases inverted with
      | true => cases h; rfl
      | false => exact ih h

theorem ofEnds_boundsOf {type : ValueType} {segments : List Segment} {f : Fault}
    {bounds : Option (Bytes × Bytes)} (h : TermRanges.boundsOf type bounds segments = .error f) :
    ofEnds f := by
  induction segments generalizing bounds with
  | nil => cases h
  | cons s rest ih =>
    rcases bind_eq_error.1 h with h | ⟨_, _, h⟩
    · cases bounds with
      | none => cases h
      | some bounds =>
        rw [TermRanges.widen_some] at h
        rcases bind_eq_error.1 h with h | ⟨_, _, h⟩
        · exact ofEnds_compare h
        · rcases bind_eq_error.1 h with h | ⟨_, _, h⟩
          · exact ofEnds_compare h
          · cases h
    · exact ih h

theorem ofEnds_build {type : ValueType} {segments : List Segment} {f : Fault}
    (h : build type segments TermRanges.build = .error f) : ofEnds f := by
  rcases bind_eq_error.1 h with h | ⟨terms, hterms, h⟩
  · rcases bind_eq_error.1 h with h | ⟨_, _, h⟩
    · exact ofEnds_boundsOf h
    · rcases bind_eq_error.1 h with h | ⟨_, _, h⟩
      · rcases bind_eq_error.1 h with h | ⟨_, _, h⟩
        · exact ofEnds_check ofEnds_less h
        · cases h
      · cases h
  rcases bind_eq_error.1 h with h | ⟨keys, hkeys, h⟩
  · rcases bind_eq_error.1 h with h | ⟨_, _, h⟩
    · exact ofEnds_check (fun h => by cases h) h
    · cases h
  have hkeysCount : keys.count = segments.length := by
    obtain ⟨_, -, hkeys⟩ := bind_eq_ok.1 hkeys
    cases hkeys
    exact List.length_map _
  have htermsCount : terms.count = segments.length := by
    obtain ⟨_, -, hterms⟩ := bind_eq_ok.1 hterms
    obtain ⟨_, htree, hterms⟩ := bind_eq_ok.1 hterms
    obtain ⟨_, -, htree⟩ := bind_eq_ok.1 htree
    cases htree
    cases hterms
    exact List.length_map _
  rw [hkeysCount, htermsCount, if_neg (fun h => h rfl)] at h
  cases h

theorem ensures_update_iff {type : ValueType} {current added : List Segment}
    {dropped : List DataFile} {indexing : TermIndexing} {sel : Selection}
    {Q : Except Fault Snapshot → Engine → Prop}
    (hsel : select (Snapshot.leaves e dropped) (current ++ added) = sel) :
    Ensures (update type current dropped added indexing) e Q ↔
      match build type sel.kept indexing with
      | .ok v => Q (.ok v) (Segment.releaseAll sel.excluded e).2
      | .error f => Q (.error f) e := by
  rw [update, ensures_get_bind, Act.ensures_settle_bind, hsel]
  cases build type sel.kept indexing with
  | error f => rfl
  | ok v =>
    have hquiet : (Segment.releaseAll sel.excluded e).1 = .ok () := Act.allQuietly_fst _ _ e
    dsimp only
    rw [ensures_bind, Ensures, hquiet]
    rfl

/-- An update that stands keeps the first segment of each generation whose file stays, and each
entry that it leaves out gives up its reference. One that fails changes nothing. Term ranges of all
kept segments always fit. -/
theorem update_merges (type : ValueType) (current : List Segment) (dropped : List DataFile)
    (added : List Segment) (indexing : TermIndexing) (e : Engine)
    (hnamed : Segment.Named (current ++ added)) (hcarried : Segment.Carried e (current ++ added)) :
    (Ensures (update type current dropped added indexing) e fun
      | .ok v, e' => Merged (current ++ added) (Snapshot.leaves e dropped) v e e'
      | .error _, e' => e' = e) ∧
    Ensures (update type current dropped added TermRanges.build) e fun r _ =>
      ∀ keys terms, r ≠ .error (.inconsistentView keys terms) := by
  generalize hsel : select (Snapshot.leaves e dropped) (current ++ added) = sel
  constructor
  · rw [ensures_update_iff hsel]
    cases hbuild : build type sel.kept indexing with
    | error f => rfl
    | ok v =>
      have hv : v.segments = sel.kept := by
        obtain ⟨_, -, hbuild⟩ := bind_eq_ok.1 hbuild
        obtain ⟨_, -, hbuild⟩ := bind_eq_ok.1 hbuild
        split at hbuild <;> cases hbuild
        rfl
      have hgivenUp := Segment.releaseAll_givenUp
        (named_excluded (Snapshot.leaves e dropped) hnamed)
        (carried_excluded (Snapshot.leaves e dropped) hcarried)
      exact merged_of_givenUp (hsel ▸ hv) hnamed hcarried (hsel ▸ hgivenUp)
  · rw [ensures_update_iff hsel]
    cases hbuild : build type sel.kept TermRanges.build with
    | error f =>
      intro keys terms h
      cases h
      have hends := ofEnds_build hbuild
      cases hends
    | ok v => exact nofun

-- The first segment has two entries, the second one of the same generation, and the third lies
-- over a compacted file. Closing the second one fails.
def repeatedSegment : Segment := ⟨0, ⟨0, 1, "a", 0, 9⟩, 0, 9, [97], [98]⟩

def lateSegment : Segment := ⟨1, ⟨0, 1, "a", 0, 9⟩, 2, 3, [97], [97]⟩

def staleSegment : Segment := ⟨2, ⟨1, 2, "b", 0, 9⟩, 0, 9, [97], [98]⟩

def mixedEntries : Engine where
  files := #[{ refs := 3 }, { refs := 2, compacted := true }]
  segments := #[{ reader := .ofPostings { type := .text }, refs := 2 },
    { reader := { store := .memory { type := .text }, closeFault := some (.device "closed") },
      refs := 1 },
    { reader := .ofPostings { type := .text }, refs := 1 }]

theorem update_mixedEntries :
    Segment.Named ([repeatedSegment, repeatedSegment] ++ [lateSegment, staleSegment]) ∧
      Segment.Carried mixedEntries
        ([repeatedSegment, repeatedSegment] ++ [lateSegment, staleSegment]) ∧
      Ensures (update .text [repeatedSegment, repeatedSegment] [] [lateSegment, staleSegment]
        TermRanges.build) mixedEntries fun r e' =>
          r.toOption.map Snapshot.segments = some [repeatedSegment] ∧
            e'.refs repeatedSegment = 1 ∧ e'.refs lateSegment = 0 ∧ e'.refs staleSegment = 0 ∧
            (e'.file lateSegment.file).refs = 2 ∧ (e'.file staleSegment.file).refs = 1 := by
  have hnamed : Segment.Named ([repeatedSegment, repeatedSegment] ++ [lateSegment, staleSegment]) :=
    by decide
  have hcarried : Segment.Carried mixedEntries
      ([repeatedSegment, repeatedSegment] ++ [lateSegment, staleSegment]) := by decide
  refine ⟨hnamed, hcarried, ?_⟩
  have hstands : (update .text [repeatedSegment, repeatedSegment] [] [lateSegment, staleSegment]
      TermRanges.build mixedEntries).1.toOption.map Snapshot.segments = some [repeatedSegment] := by
    decide +kernel
  have hmerged := (update_merges .text [repeatedSegment, repeatedSegment] []
    [lateSegment, staleSegment] TermRanges.build mixedEntries hnamed hcarried).1
  unfold Ensures at hmerged ⊢
  refine ⟨hstands, ?_⟩
  generalize update .text [repeatedSegment, repeatedSegment] [] [lateSegment, staleSegment]
    TermRanges.build mixedEntries = result at hmerged hstands ⊢
  obtain ⟨_ | v, e'⟩ := result
  · cases hstands
  have hsegments : v.segments = [repeatedSegment] := Option.some.inj hstands
  have hrefs : ∀ s ∈ [repeatedSegment, repeatedSegment] ++ [lateSegment, staleSegment],
      e'.refs s = if s = repeatedSegment then 1 else 0 := by
    intro s hs
    have h := hmerged.references s hs
    rw [hsegments] at h
    have hcounts : ∀ s ∈ [repeatedSegment, repeatedSegment] ++ [lateSegment, staleSegment],
        mixedEntries.refs s + [repeatedSegment].count s =
          (if s = repeatedSegment then 1 else 0) +
            ([repeatedSegment, repeatedSegment] ++ [lateSegment, staleSegment]).count s := by decide
    rw [hcounts s hs] at h
    exact Nat.add_right_cancel h
  have hfile : ∀ f, (e'.file f).refs = (mixedEntries.file f).refs -
      Segment.countOver f (fun s => (if s = repeatedSegment then 1 else 0) = 0)
        ([repeatedSegment, repeatedSegment] ++ [lateSegment, staleSegment]) := by
    intro f
    rw [hmerged.file f]
    rw [Segment.countOver_congr fun s hs => congrArg (fun n => decide (n = 0)) (hrefs s hs)]
  exact ⟨hrefs repeatedSegment (by decide), hrefs lateSegment (by decide),
    hrefs staleSegment (by decide), hfile lateSegment.file, hfile staleSegment.file⟩

end Snapshot
end SecondaryIndex
