import SecondaryIndex.Proofs.Indexes
import SecondaryIndex.Proofs.Searching

namespace SecondaryIndex

variable {e : Engine} {c : Condition}

/-- What is published on a column is an index of the registered type. -/
def Engine.Typed (e : Engine) : Prop :=
  ∀ column i, e.indexOn? column = some i →
    ∃ index, e.indexes[i]? = some index ∧ e.schema.get? column = some index.type

theorem Engine.Typed.updateIndex (h : e.Typed) (id : IndexId) {change : ColumnIndex → ColumnIndex}
    (hchange : ∀ index, (change index).type = index.type) : (e.updateIndex id change).Typed := by
  intro column i hi
  obtain ⟨index, hindex, htype⟩ := h column i hi
  change ∃ index, (e.indexes.modify id change)[i]? = some index ∧ _
  rw [Array.getElem?_modify, hindex]
  by_cases hid : id = i
  · refine ⟨change index, by rw [if_pos hid, Option.map_some], ?_⟩
    rw [hchange]
    exact htype
  · exact ⟨index, by rw [if_neg hid], htype⟩

theorem Engine.catalogInvariant_typed : CatalogInvariant True Engine.Typed where
  same he hcontents hpublished _ := by
    intro column i hi
    rw [indexOn?, hpublished] at hi
    rw [hcontents.schema, hcontents.indexes]
    exact he column i hi
  replace _ _ he := he
  register column type he hnew := by
    intro other i hi
    obtain ⟨index, hindex, htype⟩ := he other i hi
    refine ⟨index, hindex, ?_⟩
    have hne : ¬ compare column other = .eq := by
      intro heq
      rw [Std.LawfulEqOrd.eq_of_compare heq, htype] at hnew
      cases hnew
    rw [Std.TreeMap.get?_eq_getElem?, Std.TreeMap.getElem?_insert, if_neg hne]
    exact htype
  create {e} column type he hregistered _ := by
    intro other i hi
    rw [indexOn?, Std.TreeMap.get?_eq_getElem?, Std.TreeMap.getElem?_insert] at hi
    split at hi
    next heq =>
      cases hi
      rw [Std.LawfulEqOrd.eq_of_compare heq] at hregistered
      exact ⟨.create column type, Array.getElem?_push_size, hregistered⟩
    next =>
      obtain ⟨index, hindex, htype⟩ := he other i hi
      have hlt := (Array.getElem?_eq_some_iff.1 hindex).1
      exact ⟨index, by rw [Array.getElem?_push, if_neg (Nat.ne_of_lt hlt), hindex], htype⟩
  unpublish he hsub := fun column i hi => he column i (hsub column i hi)
  enter value token memtable he _ _ := he.updateIndex _ fun _ => rfl
  attach leaves segments snapshot he _ _ := he.updateIndex _ fun _ => rfl
  retire id he _ := he.updateIndex id fun _ => rfl

theorem Reachable.typed (h : Reachable e) : e.Typed :=
  h.catalog Engine.catalogInvariant_typed fun _ _ hi => nomatch hi

theorem ColumnIndex.lasting_sorted : Lasting fun index => index.memtable.Sorted where
  create _ type := Postings.sorted_empty type
  enter _ _ _ _ h hadd := (Postings.sorted_add h hadd).1
  attach _ _ _ _ h _ := h
  retire _ h := h

theorem Reachable.sorted (h : Reachable e) : e.Each fun index => index.memtable.Sorted :=
  h.each ColumnIndex.lasting_sorted

namespace Condition

/-- A condition that was made of its column as the catalog has it. -/
def Current (e : Engine) (c : Condition) : Prop :=
  ∃ column, e.column? c.column = some column ∧ on column c.predicate = .ok c

theorem Current.index (h : c.Current e) (he : e.Typed) (heligible : c.eligible = true) :
    ∃ i index, c.index = some i ∧ e.indexes[i]? = some index ∧ c.type = index.type ∧
      e.columnIndexOn? c.column = some (i, index) := by
  obtain ⟨column, hcolumn, hon⟩ := h
  obtain ⟨type, htype, hcolumn⟩ := Option.map_eq_some_iff.1 hcolumn
  rw [← hcolumn] at hon
  have hc := Except.ok.inj hon
  have hctype : c.type = type := congrArg Condition.type hc.symm
  have hcindex : c.index = e.indexOn? c.column := congrArg Condition.index hc.symm
  rw [eligible, Bool.and_eq_true] at heligible
  obtain ⟨i, hi⟩ := Option.isSome_iff_exists.1 heligible.1
  obtain ⟨index, hindex, hregistered⟩ := he c.column i (hcindex ▸ hi)
  rw [htype] at hregistered
  refine ⟨i, index, hi, hindex, hctype.trans (Option.some.inj hregistered), ?_⟩
  rw [Engine.columnIndexOn?, ← hcindex, hi]
  dsimp only [bind, Option.bind, pure]
  rw [hindex]

end Condition
end SecondaryIndex
