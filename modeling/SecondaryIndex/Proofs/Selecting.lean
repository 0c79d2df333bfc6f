import SecondaryIndex.Snapshot.Update

namespace SecondaryIndex

namespace SegmentSet

theorem perm_insert {s : Segment} {set : List Segment}
    (h : hasGeneration s.generation set = false) :
    (insert s set).Perm (s :: set) := by
  induction set with
  | nil => exact .refl _
  | cons t rest ih =>
    rw [hasGeneration, List.any_cons, Bool.or_eq_false_iff, decide_eq_false_iff_not] at h
    rw [insert, if_neg (Ne.symm h.1)]
    split
    · exact .refl _
    · exact ((ih h.2).cons t).trans (.swap s t rest)

end SegmentSet

namespace Snapshot

theorem perm_select (leaves : DataFile → Bool) (segments : List Segment) :
    ((select leaves segments).kept ++ (select leaves segments).excluded).Perm
      segments := by
  have hfold : ∀ (segments : List Segment) (sel : Selection),
      ((segments.foldl (consider leaves) sel).kept ++
        (segments.foldl (consider leaves) sel).excluded).Perm
          (sel.kept ++ sel.excluded ++ segments) := by
    intro segments
    induction segments with
    | nil =>
      intro sel
      rw [List.append_nil]
      exact .refl _
    | cons s rest ih =>
      intro sel
      have hstep : ((consider leaves sel s).kept ++
          (consider leaves sel s).excluded).Perm (sel.kept ++ sel.excluded ++ [s]) := by
        rw [consider]
        split
        · rw [List.append_assoc]
        next hstays =>
          rw [Bool.not_eq_true, Bool.or_eq_false_iff] at hstays
          refine ((SegmentSet.perm_insert hstays.2).append_right _).trans ?_
          exact (List.perm_append_singleton s _).symm
      refine (ih _).trans ((hstep.append_right rest).trans ?_)
      rw [List.append_assoc _ [s], List.singleton_append]
  exact hfold segments {}

theorem pairwise_select (leaves : DataFile → Bool) (segments : List Segment) :
    (select leaves segments).kept.Pairwise (·.generation < ·.generation) := by
  have hfold : ∀ (rest : List Segment) (sel : Selection),
      sel.kept.Pairwise (·.generation < ·.generation) →
        (rest.foldl (consider leaves) sel).kept.Pairwise (·.generation < ·.generation) := by
    intro rest
    induction rest with
    | nil => exact fun _ h => h
    | cons s rest ih =>
      intro sel h
      refine ih _ ?_
      rw [consider]
      split
      · exact h
      · exact SegmentSet.pairwise_insert h
  exact hfold segments {} .nil

end Snapshot
end SecondaryIndex
