import SecondaryIndex.Proofs.Keeping

namespace SecondaryIndex

theorem invariant_holding : Invariant True Engine.Holding where
  replace _ _ he := he.mono rfl (SameHolders.fewer ⟨rfl, rfl, rfl⟩)
  register _ _ he _ := he.mono rfl (SameHolders.fewer ⟨rfl, rfl, rfl⟩)
  create {e} column type he _ hnone := by
    rintro i ⟨index, hindex, hlive⟩
    rw [Engine.holds_iff]
    by_cases hi : i = e.indexes.size
    · exact .inl ⟨column, by rw [hi, Std.TreeMap.getElem?_insert_self]⟩
    · rw [Array.getElem?_push, if_neg hi] at hindex
      refine (Engine.holds_iff.1 (he i ⟨index, hindex, hlive⟩)).imp_left ?_
      rintro ⟨other, hother⟩
      refine ⟨other, ?_⟩
      rw [Std.TreeMap.getElem?_insert, if_neg, hother]
      intro heq
      rw [Engine.indexOn?, Std.TreeMap.get?_eq_getElem?, Std.TreeMap.getElem?_congr heq, hother]
        at hnone
      cases hnone
  enter _ _ _ he _ _ i hi := by
    refine he i ((Engine.lives_updateIndex ?_).1 hi)
    exact fun _ => rfl
  attach _ _ _ he _ _ i hi := by
    refine he i ((Engine.lives_updateIndex ?_).1 hi)
    exact fun _ => rfl
  gains he hcontents _ hfewer _ := he.mono hcontents.indexes hfewer
  loses _ _ _ := Catalog.reclaim_holding _

/-- In every reachable engine, an index that has its segments is on its column or in use. -/
theorem Reachable.holding {e : Engine} (h : Reachable e) : e.Holding := by
  refine h.invariant (fun id hlives => ?_) fun op e he =>
    invariant_holding.effect op e he fun _ _ => .inr trivial
  obtain ⟨index, hindex, -⟩ := hlives
  cases hindex

end SecondaryIndex
