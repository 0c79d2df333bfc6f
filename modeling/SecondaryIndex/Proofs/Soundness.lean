import SecondaryIndex.Proofs.Building
import SecondaryIndex.Proofs.Indexes

namespace SecondaryIndex

variable {e : Engine} {scope : List DataFile} {k : Connective} {group : Group} {c : Condition}
  {t : Token}

theorem Candidate.viewed_of_snapshotFor (hgroup : group.Consistent) (hc : c ∈ group) {v : Snapshot}
    (h : snapshotFor e group c = some v) : e.viewed c = v.segments := by
  rw [snapshotFor] at h
  simp only [Option.bind_eq_bind, Option.bind_eq_some_iff, Option.pure_def, Option.some.injEq] at h
  obtain ⟨first, hfirst, i, hi, index, hindex, rfl⟩ := h
  have hcolumn : first.column = c.column := by
    have hsome := List.find?_some hfirst
    rw [Bool.and_eq_true, decide_eq_true_eq] at hsome
    exact hsome.2
  have hsame := (hgroup first (List.mem_of_find?_eq_some hfirst) c hc hcolumn).2
  exact Engine.viewed_eq (hsame.symm.trans hi) hindex

theorem Condition.eq_of_same (hgroup : group.Consistent) {d : Condition} (hc : c ∈ group)
    (hd : d ∈ group) (h : c.same d) : c = d := by
  obtain ⟨hcolumn, hpredicate⟩ := Condition.same_iff.1 h
  obtain ⟨htype, hindex⟩ := hgroup c hc d hd hcolumn
  cases c
  cases d
  simp_all

theorem Engine.Finds.hits (he : e.Indexed) (hgroup : group.Consistent) (hc : c ∈ group)
    (h : e.Finds scope t k group c) : e.Hits scope c t := by
  obtain ⟨cands, hcands, d, hd, hsame, hholds⟩ := h
  obtain ⟨hconditions, hdrawn⟩ := Candidate.drawn_ofGroup he hcands
  have hmem : d.condition ∈ group := by
    have heligible : d.condition ∈ group.eligible := hconditions ▸ List.mem_map_of_mem hd
    exact ((Group.stand_eligible group).mem _ heligible).1
  have heq := Condition.eq_of_same hgroup hmem hc hsame
  rw [Candidate.Holds, heq] at hholds
  refine hholds.imp_right ?_
  rintro ⟨s, hs, ht⟩
  obtain ⟨hfile, v, hv, hsegment⟩ := (hdrawn d hd).drawn s hs
  rw [heq] at hv
  exact ⟨s, Candidate.viewed_of_snapshotFor hgroup hc hv ▸ hsegment, hfile, ht⟩

theorem Query.Finds.meets {q : Query} (he : e.Indexed) (hq : q.Consistent)
    (h : q.Finds e scope t) : q.Meets e scope t :=
  h.imp hq fun _ _ _ _ hgroup _ hc hfinds => Engine.Finds.hits he hgroup hc hfinds

namespace Query

/-- If no conjunction leaves out a part, all that is drained is what the query asks for. -/
theorem sound_of_kept {e : Engine} (h : Reachable e) (ordered : e.Ordered) {q : Query}
    {session : SessionId} {x : CursorId} (eligible : q.Eligible) (consistent : q.Consistent)
    (kept : q.Kept session e) (built : (q.build session e).1 = .ok (some x)) (n : Nat) :
    Ensures (Cursor.drain x n) (q.build session e).2.cursors fun r _ => ∃ ts, r = .ok ts ∧
      ∀ t ∈ ts, q.Meets e (e.session session).scope t := by
  have hbuild := yields_build q (Loan.Borrowed.start (fun _ => True) e) ordered
    (Loan.allows_true e) h.indexed eligible (rfl : (e.session session).scope = _)
  rw [Ensures, built] at hbuild
  obtain ⟨-, p, hopened, hsound, -⟩ := hbuild
  refine (hopened.streams.drain n).mono ?_
  rintro _ _ ⟨rfl, -⟩
  refine ⟨_, rfl, fun t ht => ?_⟩
  exact (hsound kept t (List.mem_of_mem_take ht)).meets h.indexed consistent

def threeColumns (rows : List (String × Bytes × Token)) : List Operation :=
  ["a", "b", "c"].flatMap (fun column => [.register column (some .text), .createIndex column]) ++
    rows.map (fun (column, value, token) => .enter token column value) ++
    [.openSession 0 (some .full) 0]

/-- The only rows of the second and the third column lie apart. -/
def rowsApart : Engine :=
  Operation.effects (threeColumns [("a", [120], 5), ("b", [121], 1), ("c", [122], 9)]) {}

/-- The second and the third column share a row with the first. -/
def rowsShared : Engine :=
  Operation.effects (threeColumns [("a", [120], 5), ("b", [121], 1), ("c", [122], 9),
    ("b", [121], 5), ("c", [122], 5)]) {}

def nested : Query :=
  .node .and [⟨"a", .text, some 0, .eq [120]⟩]
    (.node .and [⟨"b", .text, some 1, .eq [121]⟩, ⟨"c", .text, some 2, .eq [122]⟩] .absent .absent)
    .absent

theorem ordered_of_isEmpty {e : Engine} (h : e.segments = #[]) : e.Ordered := by
  intro i state answer c found hi
  rw [h] at hi
  cases hi

theorem nested_sound_of_shared : nested.Kept 0 rowsShared ∧
    (nested.build 0 rowsShared).1 = .ok (some 7) ∧
      Ensures (Cursor.drain 7 2) (nested.build 0 rowsShared).2.cursors fun r _ =>
        r = .ok [5] ∧ nested.Meets rowsShared (rowsShared.session 0).scope 5 := by
  have hreach : Reachable rowsShared := Reachable.start.steps _
  have hempty : rowsShared.segments = #[] := Array.eq_empty_of_size_eq_zero (by decide +kernel)
  have hkept : nested.Kept 0 rowsShared := by decide +kernel
  have hbuilt : (nested.build 0 rowsShared).1 = .ok (some 7) := by decide +kernel
  have hdrained : (Cursor.drain 7 2 (nested.build 0 rowsShared).2.cursors).1 = .ok [5] := by
    decide +kernel
  have hsound := sound_of_kept hreach (ordered_of_isEmpty hempty) (by decide) (by decide) hkept
    hbuilt 2
  rw [Ensures, hdrained] at hsound
  obtain ⟨_, hts, hmeets⟩ := hsound
  cases hts
  exact ⟨hkept, hbuilt, hdrained, hmeets 5 (by simp)⟩

/-- The part finds nothing, but the conjunction leaves it out and brings the row of its
condition. -/
theorem nested_unsound_of_apart : Reachable rowsApart ∧ rowsApart.Ordered ∧ nested.Eligible ∧
    nested.Consistent ∧ nested.Proper ∧
      (nested.groups.Pairwise fun g g' => Group.compare g g' ≠ .eq) ∧
      ((rowsApart.session 0).groups.isEmpty ∧ ¬ (rowsApart.session 0).finished) ∧
      (nested.build 0 rowsApart).1 = .ok (some 1) ∧
      Ensures (Cursor.drain 1 2) (nested.build 0 rowsApart).2.cursors fun r _ =>
        r = .ok [5] ∧ ¬ nested.Meets rowsApart (rowsApart.session 0).scope 5 := by
  have hempty : rowsApart.segments = #[] := Array.eq_empty_of_size_eq_zero (by decide +kernel)
  refine ⟨Reachable.start.steps _, ordered_of_isEmpty hempty, by decide, by decide, by decide,
    by decide +kernel, by decide +kernel, by decide +kernel, ?_, by decide +kernel⟩
  decide +kernel

end Query
end SecondaryIndex
