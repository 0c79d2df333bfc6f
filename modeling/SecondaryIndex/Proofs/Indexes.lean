import SecondaryIndex.Proofs.Keeping

namespace SecondaryIndex

open Act

/-- A property of live files, catalog and indexes in use that no single change of them breaks. -/
structure CatalogInvariant (free : Prop) (I : Engine → Prop) : Prop extends Upkeep I where
  same : ∀ {e e' : Engine}, I e → SameContents e e' → e'.published = e.published →
    (∀ i, e'.holds i = true → e.holds i = true ∨ free) → I e'
  unpublish : ∀ {e : Engine} {published : Std.TreeMap String IndexId}, I e →
    (∀ (column : String) i, published[column]? = some i → e.published[column]? = some i) →
      I { e with published }
  retire : ∀ {e : Engine} id, I e → e.holds id = false →
    I (e.updateIndex id fun index => { index with retired := true })

namespace CatalogInvariant

variable {free : Prop} {I : Engine → Prop} {e e' : Engine}

theorem framed (h : CatalogInvariant free I) {α : Type} {act : Act α} (hact : Framed act) :
    Keeps I act := fun e he => (hact.frame e).mono fun _ _ hf =>
  h.same he hf.sameContents hf.published fun i hi =>
    .inl ((hf.sameHolders.holds_eq i).symm.trans hi)

theorem retireAll (h : CatalogInvariant free I) {ids : List IndexId} (he : I e)
    (hids : ∀ id ∈ ids, e.holds id = false) :
    Ensures (Catalog.retireAll ids) e fun _ e' => I e' := by
  induction ids generalizing e with
  | nil => exact he
  | cons id rest ih =>
    rw [List.forall_mem_cons] at hids
    have hretire : Ensures (Catalog.retire id) e fun _ e' => I e' := by
      by_cases hlive : e.Lives id
      · obtain ⟨index, hindex, hretired⟩ := hlive
        rw [Catalog.ensures_retire hindex hretired]
        exact h.framed (Segment.framed_releaseAll _) _ (h.retire id he hids.1)
      · refine (Catalog.retire_idle hlive).mono ?_
        rintro r _ ⟨-, rfl⟩
        exact he
    rw [Catalog.retireAll]
    refine (hretire.and (Catalog.ensures_retire_lives id e)).bind ?_ fun _ _ h => h.1
    rintro _ e₁ ⟨he₁, -, hsame, -⟩
    exact ih he₁ fun i hi => (hsame.holds_eq i).trans (hids.2 i hi)

theorem keeps_reclaim (h : CatalogInvariant free I) : Keeps I Catalog.reclaim := by
  intro e he
  rw [Catalog.reclaim, ensures_get_bind]
  refine h.retireAll he fun id hid => ?_
  simpa using (List.mem_filter.1 hid).2

theorem invariant (h : CatalogInvariant free I) : Invariant free I where
  toUpkeep := h.toUpkeep
  gains he hcontents hpublished _ hholds := h.same he hcontents hpublished hholds
  loses {e e'} he hcontents hfewer := by
    have hunpublished := h.unpublish he hfewer.published
    have hsame : SameContents { e with published := e'.published } e' :=
      ⟨hcontents.live, hcontents.schema, hcontents.indexes⟩
    refine h.keeps_reclaim e' (h.same hunpublished hsame rfl fun i hi => .inl ?_)
    rw [Engine.holds_iff] at hi ⊢
    refine hi.imp_right (Or.imp (hfewer.handles i) ?_)
    rintro ⟨k, s, hk, g, hg, hopen⟩
    obtain ⟨s', hk', hg'⟩ := hfewer.groups k s hk g hg
    exact ⟨k, s', hk', g, hg', hopen⟩

end CatalogInvariant

/-- What starts empty keeps its invariants. -/
theorem Reachable.catalog {I : Engine → Prop} {e : Engine} (h : Reachable e)
    (hI : CatalogInvariant True I) (start : I {}) : I e :=
  h.invariant start fun op e he => hI.invariant.effect op e he fun _ _ => .inr trivial

/-- All indexes have something, those that have let go of their segments too. -/
def Engine.Each (W : ColumnIndex → Prop) (e : Engine) : Prop :=
  ∀ (i : IndexId) index, e.indexes[i]? = some index → W index

section

variable {W : ColumnIndex → Prop} {e e' : Engine}

theorem Engine.Each.congr (h : e.Each W) (hindexes : e'.indexes = e.indexes) : e'.Each W := by
  intro i index hi
  rw [hindexes] at hi
  exact h i index hi

theorem Engine.Each.updateIndex {id : IndexId} {change : ColumnIndex → ColumnIndex} (h : e.Each W)
    (hchange : ∀ index, e.indexes[id]? = some index → W (change index)) :
    (e.updateIndex id change).Each W := by
  intro i index hi
  rw [Engine.updateIndex, Array.getElem?_modify] at hi
  split at hi
  next heq =>
    subst heq
    obtain ⟨old, hold, rfl⟩ := Option.map_eq_some_iff.1 hi
    exact hchange old hold
  next => exact h i index hi

end

/-- Something that an index has from the start and never loses. -/
structure Lasting (W : ColumnIndex → Prop) : Prop where
  create : ∀ column type, W (.create column type)
  enter : ∀ index value token memtable, W index → index.memtable.add value token = .ok memtable →
    W { index with memtable }
  attach : ∀ index leaves segments snapshot, W index →
    Snapshot.build index.type (Snapshot.select leaves (index.snapshot.segments ++ segments)).kept
      TermRanges.build = .ok snapshot → W { index with snapshot }
  retire : ∀ index, W index → W { index with retired := true }

theorem Lasting.catalogInvariant {W : ColumnIndex → Prop} (h : Lasting W) :
    CatalogInvariant True (Engine.Each W) where
  same he hcontents _ _ := he.congr hcontents.indexes
  replace _ _ he := he.congr rfl
  register _ _ he _ := he.congr rfl
  create column type he _ _ := by
    intro i index hi
    rw [Array.getElem?_push] at hi
    split at hi
    · cases hi
      exact h.create column type
    · exact he i index hi
  unpublish he _ := he.congr rfl
  enter value token memtable he hindex hadd := by
    refine he.updateIndex fun index' hindex' => ?_
    rw [hindex] at hindex'
    cases hindex'
    exact h.enter _ value token memtable (he _ _ hindex) hadd
  attach leaves segments snapshot he hindex hbuild := by
    refine he.updateIndex fun index' hindex' => ?_
    rw [hindex] at hindex'
    cases hindex'
    exact h.attach _ leaves segments snapshot (he _ _ hindex) hbuild
  retire id he _ := he.updateIndex fun index hindex => h.retire index (he id index hindex)

theorem Reachable.each {W : ColumnIndex → Prop} {e : Engine} (h : Reachable e) (hW : Lasting W) :
    e.Each W := by
  refine h.catalog hW.catalogInvariant fun i index hi => ?_
  cases hi

namespace ColumnIndex

/-- Memtable and snapshot hold values of the type of the index, and the snapshot was made from
segments of rising generations. -/
structure Orderly (index : ColumnIndex) : Prop where
  built : index.snapshot.Built
  sorted : index.snapshot.segments.Pairwise (·.generation < ·.generation)
  snapshot_type : index.snapshot.type = index.type
  memtable_type : index.memtable.type = index.type

theorem lasting_orderly : Lasting Orderly where
  create column type := ⟨Snapshot.built_empty type, .nil, rfl, rfl⟩
  enter index value token memtable h hadd := by
    exact ⟨h.built, h.sorted, h.snapshot_type, (Postings.type_of_add hadd).trans h.memtable_type⟩
  attach index leaves segments snapshot h hbuild := by
    obtain ⟨hsegments, htype, hbuilt, -⟩ := Snapshot.built_of_build hbuild
    exact ⟨hbuilt, hsegments ▸ Snapshot.pairwise_select leaves _, htype, h.memtable_type⟩
  retire index h := ⟨h.built, h.sorted, h.snapshot_type, h.memtable_type⟩

end ColumnIndex

theorem Reachable.orderly {e : Engine} (h : Reachable e) : e.Each ColumnIndex.Orderly :=
  h.each ColumnIndex.lasting_orderly

theorem Reachable.indexed {e : Engine} (h : Reachable e) : e.Indexed :=
  fun i index hi => (h.orderly i index hi).built

end SecondaryIndex
