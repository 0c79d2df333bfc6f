import Mathlib.Data.List.Nodup
import SecondaryIndex.Proofs.Loan.Running
import SecondaryIndex.Proofs.Stream.Closing

namespace SecondaryIndex.Loan

open Act Cursor

def span (cs : Array Cursor) (x : Nat) : List Nat := x :: (cs[x]?.map (owned cs)).getD []

/-- The segments on which a cursor holds a reference. -/
def lentBy (cs : Array Cursor) (x : Nat) : List Nat := (cs[x]?.map Cursor.lent).getD []

/-- The cursors after one more call of close for each of those listed. -/
def closedAll (cs : Array Cursor) (ids : List Nat) : Array Cursor := ids.foldl closed cs

section

variable {cs : Array Cursor} {ids : List Nat} {x y n : Nat} {c : Cursor}

theorem getElem?_closedAll (cs : Array Cursor) (ids : List Nat) (y : Nat) :
    (closedAll cs ids)[y]? = cs[y]?.map fun c => { c with closes := c.closes + ids.count y } := by
  induction ids generalizing cs with
  | nil =>
    rw [List.count_nil]
    exact Option.map_id'.symm
  | cons x rest ih =>
    refine (ih (closed cs x)).trans ?_
    rw [getElem?_closed, List.count_cons]
    by_cases hxy : x = y
    · subst hxy
      rw [if_pos rfl, Option.map_map]
      refine Option.map_congr fun c _ => ?_
      simp only [Function.comp_apply, beq_self_eq_true, if_true]
      congr 1
      omega
    · rw [if_neg hxy, if_neg (by simpa using hxy), Nat.add_zero]

theorem getElem?_closedAll_of_nodup (hids : ids.Nodup) : (closedAll cs ids)[y]? =
    cs[y]?.map fun c => if y ∈ ids then { c with closes := c.closes + 1 } else c := by
  rw [getElem?_closedAll]
  refine Option.map_congr fun c _ => ?_
  by_cases hy : y ∈ ids
  · rw [if_pos hy, List.count_eq_one_of_mem hids hy]
  · rw [if_neg hy, List.count_eq_zero.2 hy]
    rfl

theorem closes_closedAll (cs : Array Cursor) (ids : List Nat) : Closes cs (closedAll cs ids) := by
  induction ids generalizing cs with
  | nil => exact .refl cs
  | cons x rest ih => exact (closes_closes cs x).trans (ih (closed cs x))

theorem closedAll_append (cs : Array Cursor) (ids ids' : List Nat) :
    closedAll cs (ids ++ ids') = closedAll (closedAll cs ids) ids' := List.foldl_append ..

theorem parts_closedAll (cs : Array Cursor) (ids : List Nat) (m : Nat) :
    parts (closedAll cs ids) m = parts cs m := by
  rw [parts, parts, getElem?_closedAll, Option.map_map]
  rfl

theorem getElem?_closedAll_of_notMem (hy : y ∉ ids) : (closedAll cs ids)[y]? = cs[y]? := by
  rw [getElem?_closedAll, List.count_eq_zero.2 hy]
  exact Option.map_id'

theorem span_closedAll (hy : y ∉ ids) : span (closedAll cs ids) y = span cs y := by
  rw [span, span, getElem?_closedAll_of_notMem hy]
  congr 2
  exact Option.map_congr fun c _ => owned_congr fun m _ _ => parts_closedAll cs ids m

theorem lentBy_closedAll (hy : y ∉ ids) : lentBy (closedAll cs ids) y = lentBy cs y := by
  rw [lentBy, lentBy, getElem?_closedAll_of_notMem hy]

theorem Inner.source_ne (h : Inner n cs x) (hc : cs[x]? = some c) (m : Nat)
    (segments : List Segment) : c.source ≠ .matches m segments := by
  intro hs
  exact (Outer.matches h.1 hc hs).not_inner h

end

section

variable {e : Engine} {d m n x : Nat} {c : Cursor} {segments : List Segment}

theorem cursors_closeLeaf (hx : IsLeaf e.cursors x) (hd : 0 < d) :
    Ensures (closeWithin d x) e fun _ e' => e'.cursors = closed e.cursors x := by
  obtain ⟨d, rfl⟩ := Nat.exists_eq_add_one_of_ne_zero hd.ne'
  obtain ⟨c, hc, ht⟩ := hx
  rw [ensures_closeWithin, Array.getD_eq_getD_getElem?, hc, Option.getD_some]
  rcases c with ⟨_, s, _, _, _⟩
  cases s with
  | tokens _ closeFault _ => cases closeFault <;> rfl
  | _ => cases ht

theorem cursors_closeMerged (hx : Inner n e.cursors x) (hopen : closes e.cursors x = 0)
    (hd : x < d) : Ensures (closeWithin d x) e fun _ e' =>
      e'.cursors = closedAll e.cursors (x :: parts e.cursors x) := by
  obtain ⟨-, c, hc, hsource⟩ := hx
  rw [parts_of_getElem? hc]
  rcases hsource with ht | ⟨children, hu, -, hk⟩
  · rw [Source.parts_of_isTokens ht]
    exact cursors_closeLeaf ⟨c, hc, ht⟩ (by omega)
  obtain ⟨d, rfl⟩ := Nat.exists_eq_add_one_of_ne_zero (Nat.ne_zero_of_lt hd)
  rw [closes_of_getElem? hc] at hopen
  rw [ensures_closeWithin, Array.getD_eq_getD_getElem?, hc, Option.getD_some, closeSource, hu]
  simp only [if_pos hopen]
  -- What the loop has closed so far stands in front of the parts still to be closed.
  refine (ensures_all (I := fun rest e' => ∃ done, children = done ++ rest ∧
    e'.cursors = closedAll (closed e.cursors x) done) ⟨[], rfl, rfl⟩ ?_).mono ?_
  · rintro k rest e' ⟨done, rfl, he'⟩
    obtain ⟨-, hkx, hleaf⟩ := hk k (by simp)
    have hleaf' : IsLeaf e'.cursors k := by
      rw [he']
      exact hleaf.extends ((closes_closes _ x).trans (closes_closedAll _ done)).ext
    refine (cursors_closeLeaf hleaf' (by omega)).mono fun _ e'' he'' => ⟨done ++ [k], by simp, ?_⟩
    rw [he'', he', closedAll_append]
    rfl
  · rintro _ e' ⟨done, hdone, he'⟩
    rw [List.append_nil] at hdone
    rw [he', ← hdone]
    rfl

/-- Matches that are open close what they read before they give their segments back. -/
theorem cursors_closeOpen (hc : e.cursors[x]? = some c) (hs : c.source = .matches m segments)
    (hopen : c.closes = 0) (hm : Inner n e.cursors m) (hmopen : closes e.cursors m = 0)
    (hmx : m < x) : Ensures (Cursor.close x) e fun _ e' =>
      e'.cursors = closedAll e.cursors (span e.cursors x) := by
  have hspan : span e.cursors x = x :: m :: parts e.cursors m := by
    rw [span, hc, Option.map_some, Option.getD_some, owned, hs]
    simp only [if_pos hopen]
  -- The call for `x` is counted first, but it is `m` that is closed next.
  have hclosed : closes (closed e.cursors x) m = 0 := by
    rw [closes_closed hc, hmopen, if_neg (Nat.ne_of_gt hmx)]
  have hparts : parts (closed e.cursors x) m = parts e.cursors m :=
    parts_closedAll e.cursors [x] m
  rw [Cursor.close, ensures_closeWithin, Array.getD_eq_getD_getElem?, hc, Option.getD_some,
    closeSource, hs]
  simp only [if_pos hopen]
  refine (cursors_closeMerged (e := { e with cursors := closed e.cursors x })
    (hm.extends (closes_closes _ x).ext) hclosed hmx).attempt_bind ?_
  intro result e₁ he₁
  refine (Segment.cursors_releaseAll segments e₁).bind_ok ?_
  intro e₂ he₂
  rw [ensures_settle, he₂, he₁, hspan, hparts]
  rfl

end

/-- What closing open matches makes of segments and cursors. -/
structure GivenBack (ids : List Nat) (e e' : Engine) : Prop where
  /-- The matches, and what they read, are closed once more. -/
  closed : ∀ y, e'.cursors[y]? = e.cursors[y]?.map fun c =>
    if y ∈ ids.flatMap (span e.cursors) then { c with closes := c.closes + 1 } else c
  /-- Nothing of this had been closed before. -/
  unclosed : ∀ y ∈ ids.flatMap (span e.cursors), ∃ c, e.cursors[y]? = some c ∧ c.closes = 0
  once : (ids.flatMap (span e.cursors)).Nodup
  /-- Each reference that the matches held is given back. -/
  segments : ∀ i : Nat, e.segments[i]? = e'.segments[i]?.map fun state =>
    { state with refs := state.refs + (ids.flatMap (lentBy e.cursors)).count i }

namespace GivenBack

variable {ids ids' : List Nat} {e e' e'' : Engine} {x y : Nat}

theorem nil (hcursors : e'.cursors = e.cursors) (hsegments : e'.segments = e.segments) :
    GivenBack [] e e' where
  closed y := by
    rw [hcursors]
    simp
  unclosed := by simp
  once := by simp
  segments i := by
    rw [hsegments]
    simp

theorem congr {e₁ e₁' : Engine} (h : GivenBack ids e e') (hcursors : e₁.cursors = e.cursors)
    (hsegments : e₁.segments = e.segments) (hcursors' : e₁'.cursors = e'.cursors)
    (hsegments' : e₁'.segments = e'.segments) : GivenBack ids e₁ e₁' where
  closed := by
    rw [hcursors, hcursors']
    exact h.closed
  unclosed := by
    rw [hcursors]
    exact h.unclosed
  once := by
    rw [hcursors]
    exact h.once
  segments := by
    rw [hcursors, hsegments, hsegments']
    exact h.segments

theorem eq_closedAll (h : GivenBack ids e e') :
    e'.cursors = closedAll e.cursors (ids.flatMap (span e.cursors)) := by
  refine Array.ext_getElem? fun y => ?_
  rw [h.closed y, getElem?_closedAll_of_nodup h.once]

theorem of_closedAll (hcursors : e'.cursors = closedAll e.cursors (ids.flatMap (span e.cursors)))
    (unclosed : ∀ y ∈ ids.flatMap (span e.cursors), ∃ c, e.cursors[y]? = some c ∧ c.closes = 0)
    (once : (ids.flatMap (span e.cursors)).Nodup)
    (segments : ∀ i : Nat, e.segments[i]? = e'.segments[i]?.map fun state =>
      { state with refs := state.refs + (ids.flatMap (lentBy e.cursors)).count i }) :
    GivenBack ids e e' where
  closed y := by
    rw [hcursors, getElem?_closedAll_of_nodup once]
  unclosed := unclosed
  once := once
  segments := segments

theorem notMem_of_closes (h : GivenBack ids e e')
    (hy : ∃ c, e'.cursors[y]? = some c ∧ c.closes = 0) : y ∉ ids.flatMap (span e.cursors) := by
  intro hmem
  obtain ⟨c, hc, hzero⟩ := hy
  rw [h.closed y, Option.map_eq_some_iff] at hc
  obtain ⟨d, -, rfl⟩ := hc
  rw [if_pos hmem] at hzero
  exact Nat.succ_ne_zero _ hzero

theorem append (h : GivenBack ids e e') (h' : GivenBack ids' e' e'') :
    GivenBack (ids ++ ids') e e'' := by
  have hself : ∀ x ∈ ids', x ∈ ids'.flatMap (span e'.cursors) := fun x hx =>
    List.mem_flatMap.2 ⟨x, hx, List.mem_cons_self⟩
  have hnot : ∀ x ∈ ids', x ∉ ids.flatMap (span e.cursors) := fun x hx =>
    h.notMem_of_closes (h'.unclosed x (hself x hx))
  have hspan : ids'.flatMap (span e'.cursors) = ids'.flatMap (span e.cursors) := by
    rw [h.eq_closedAll]
    exact List.flatMap_congr fun x hx => span_closedAll (hnot x hx)
  have hlent : ids'.flatMap (lentBy e'.cursors) = ids'.flatMap (lentBy e.cursors) := by
    rw [h.eq_closedAll]
    exact List.flatMap_congr fun x hx => lentBy_closedAll (hnot x hx)
  -- What the first step closed was closed when the second began, and that closes only what is open.
  have hapart : ∀ y ∈ ids'.flatMap (span e.cursors), y ∉ ids.flatMap (span e.cursors) :=
    fun y hy => h.notMem_of_closes (h'.unclosed y (hspan ▸ hy))
  refine .of_closedAll ?_ (fun y hy => ?_) ?_ fun i => ?_
  · rw [h'.eq_closedAll, h.eq_closedAll, ← h.eq_closedAll, hspan, List.flatMap_append,
      closedAll_append, h.eq_closedAll]
  · rw [List.flatMap_append, List.mem_append] at hy
    rcases hy with hy | hy
    · exact h.unclosed y hy
    · obtain ⟨c, hc, hzero⟩ := h'.unclosed y (hspan ▸ hy)
      rw [h.closed y, Option.map_eq_some_iff] at hc
      obtain ⟨d, hd, rfl⟩ := hc
      rw [if_neg (hapart y hy)] at hzero
      exact ⟨d, hd, hzero⟩
  · rw [List.flatMap_append]
    exact List.nodup_append'.2 ⟨h.once, hspan ▸ h'.once, fun y hy hy' => hapart y hy' hy⟩
  · rw [h.segments i, h'.segments i, Option.map_map, hlent, List.flatMap_append]
    refine Option.map_congr fun state _ => ?_
    simp only [Function.comp_apply, List.count_append]
    congr 1
    omega

end GivenBack

section

variable {cs : Array Cursor} {n x : Nat} {c : Cursor} {ids : List Nat}

theorem span_of_getElem? (hc : cs[x]? = some c) : span cs x = x :: owned cs c := by
  rw [span, hc, Option.map_some, Option.getD_some]

theorem lentBy_of_getElem? (hc : cs[x]? = some c) : lentBy cs x = c.lent := by
  rw [lentBy, hc, Option.map_some, Option.getD_some]

theorem Inner.lent (h : Inner n cs x) (hc : cs[x]? = some c) : c.lent = [] := by
  have hne := h.source_ne hc
  rcases c with ⟨_, s, _, _, _⟩
  cases s with
  | «matches» m segments => exact absurd rfl (hne m segments)
  | _ => rfl

theorem perm_closedAll_inner (hids : ∀ y ∈ ids, Inner n cs y) :
    (lentFrom n (closedAll cs ids)).Perm (lentFrom n cs) := by
  induction ids generalizing cs with
  | nil => exact .refl _
  | cons y rest ih =>
    rw [List.forall_mem_cons] at hids
    obtain ⟨-, c, hc, -⟩ := id hids.1
    have hperm := (perm_closed hids.1.1 hc).1
    rw [hids.1.lent hc, List.nil_append] at hperm
    refine (ih fun z hz => ?_).trans hperm.symm
    exact (hids.2 z hz).extends (closes_closes cs y).ext

end

namespace Borrowed

variable {P : List Segment → Prop} {e₀ e e' : Engine} {S H ids : List Nat} {x y : Nat}

/-- Matches that are open, and the cursors that they have to close, are each to be closed once. -/
theorem span_unclosed (h : Borrowed P e₀ e S H) (hx : e₀.cursors.size ≤ x)
    (hopen : IsOpen e.cursors x) : (span e.cursors x).Nodup ∧
      (∀ y ∈ span e.cursors x, ∃ c, e.cursors[y]? = some c ∧ c.closes = 0) ∧
      ∀ y ∈ span e.cursors x, y = x ∨ Inner e₀.cursors.size e.cursors y := by
  obtain ⟨c, m, segments, hc, hs, hzero⟩ := hopen
  rw [span_of_getElem? hc]
  obtain ⟨-, howned⟩ := perm_closed hx hc
  have hinner : ∀ y ∈ owned e.cursors c, Inner e₀.cursors.size e.cursors y := fun y hy =>
    h.inner y (List.mem_append_left _ (howned.mem_iff.2 (List.mem_append_left _ hy)))
  -- `once` adds up who has to close a cursor and how often it was closed: one owner, so no close.
  have honce : ∀ y ∈ owned e.cursors c,
      closes e.cursors y = 0 ∧ (owned e.cursors c).count y = 1 := by
    intro y hy
    have hpos := List.count_pos_iff.2 hy
    have := h.once y (hinner y hy).1
      (.inl (List.mem_append_left _ (howned.mem_iff.2 (List.mem_append_left _ hy))))
    rw [List.count_append, howned.count_eq, List.count_append] at this
    omega
  refine ⟨List.nodup_cons.2 ⟨fun hmem => ?_, ?_⟩, List.forall_mem_cons.2 ⟨⟨c, hc, hzero⟩, ?_⟩, ?_⟩
  · exact (Outer.matches hx hc hs).not_inner (hinner x hmem)
  · refine List.nodup_iff_count_le_one.2 fun y => ?_
    by_cases hy : y ∈ owned e.cursors c
    · exact (honce y hy).2.le
    · exact (List.count_eq_zero.2 hy).trans_le (Nat.zero_le 1)
  · intro y hy
    obtain ⟨-, d, hd, -⟩ := hinner y hy
    exact ⟨d, hd, (closes_of_getElem? hd).symm.trans (honce y hy).1⟩
  · exact fun y hy => (List.mem_cons.1 hy).imp_right (hinner y)

/-- Closing matches that are open gives all that they hold back. -/
theorem closeOpen (h : Borrowed P e₀ e S H) (hx : e₀.cursors.size ≤ x)
    (hopen : IsOpen e.cursors x) : Ensures (Cursor.close x) e fun _ e' =>
      Borrowed P e₀ e' S H ∧ GivenBack [x] e e' := by
  obtain ⟨hnodup, hunclosed, hinner⟩ := h.span_unclosed hx hopen
  obtain ⟨c, m, segments, hc, hs, hzero⟩ := hopen
  have hspan := span_of_getElem? hc
  have hm : m ∈ span e.cursors x := by
    rw [hspan, owned, hs]
    simp only [if_pos hzero, List.mem_cons, true_or, or_true]
  have hmx := (h.lenders x c m segments hx hc hs).1
  have hm' := (hinner m hm).resolve_left (Nat.ne_of_lt hmx)
  have hmopen : closes e.cursors m = 0 := by
    obtain ⟨d, hd, hdzero⟩ := hunclosed m hm
    rwa [closes_of_getElem? hd]
  refine ((h.closeOuter (.matches hx hc hs) (Nat.lt_succ_self x)).and
    (cursors_closeOpen hc hs hzero hm' hmopen hmx)).mono ?_
  rintro _ e' ⟨⟨h', -, -⟩, hcursors⟩
  rw [← List.flatMap_singleton (span e.cursors) x] at hnodup hunclosed hcursors
  refine ⟨h', .of_closedAll hcursors hunclosed hnodup fun i => ?_⟩
  -- All that is lent less is what the matches held.
  have hlent : (lentFrom e₀.cursors.size e.cursors).Perm
      (lentBy e.cursors x ++ lentFrom e₀.cursors.size e'.cursors) := by
    rw [hcursors, List.flatMap_singleton, hspan, lentBy_of_getElem? hc]
    refine (perm_closed hx hc).1.trans (.append_left _ (perm_closedAll_inner fun y hy => ?_).symm)
    refine ((hinner y (hspan ▸ List.mem_cons_of_mem x hy)).resolve_left ?_).extends
      (closes_closes e.cursors x).ext
    rintro rfl
    rw [List.flatMap_singleton, hspan] at hnodup
    exact (List.nodup_cons.1 hnodup).1 hy
  rw [h.segments i, h'.segments i, Option.map_map, List.flatMap_singleton]
  refine Option.map_congr fun state _ => ?_
  simp only [Function.comp_apply, List.count_append, hlent.count_eq]
  congr 1
  omega

theorem isOpen_of_givenBack (h : Borrowed P e₀ e S H) (hback : GivenBack ids e e')
    (hids : ∀ y ∈ ids, e₀.cursors.size ≤ y ∧ IsOpen e.cursors y) (hopen : IsOpen e.cursors x)
    (hnot : x ∉ ids) : IsOpen e'.cursors x := by
  have hspan : x ∉ ids.flatMap (span e.cursors) := by
    intro hmem
    obtain ⟨y, hy, hxy⟩ := List.mem_flatMap.1 hmem
    obtain ⟨hle, hopen'⟩ := hids y hy
    rcases (h.span_unclosed hle hopen').2.2 x hxy with rfl | hin
    · exact hnot hy
    · obtain ⟨c, m, segments, hc, hs, -⟩ := hopen
      exact hin.source_ne hc m segments hs
  obtain ⟨c, m, segments, hc, hs, hzero⟩ := hopen
  refine ⟨c, m, segments, ?_, hs, hzero⟩
  rw [hback.closed, hc, Option.map_some, if_neg hspan]

theorem closeEach (h : Borrowed P e₀ e S H) (hnodup : ids.Nodup)
    (hids : ∀ x ∈ ids, e₀.cursors.size ≤ x ∧ IsOpen e.cursors x) :
    Ensures (Cursor.closeQuietly ids) e fun r e' => r = .ok () ∧ Borrowed P e₀ e' S H ∧
      GivenBack ids e e' := by
  refine Ensures.and (R := fun r _ => r = .ok ()) (allQuietly_fst _ _ _) ?_
  refine (ensures_allQuietly (I := fun rest e' => ∃ done, ids = done ++ rest ∧
    Borrowed P e₀ e' S H ∧ GivenBack done e e') ⟨[], rfl, h, .nil rfl rfl⟩ ?_).mono ?_
  · rintro x rest e' ⟨done, rfl, h', hback⟩
    obtain ⟨hx, hopen⟩ := hids x (by simp)
    have hopen' : IsOpen e'.cursors x := by
      refine h.isOpen_of_givenBack hback (fun y hy => hids y (List.mem_append_left _ hy)) hopen ?_
      exact fun hmem => List.disjoint_of_nodup_append hnodup hmem List.mem_cons_self
    refine (h'.closeOpen hx hopen').mono ?_
    rintro _ e'' ⟨h'', hback'⟩
    exact ⟨done ++ [x], by simp, h'', hback.append hback'⟩
  · rintro _ e' ⟨done, hdone, h', hback⟩
    rw [List.append_nil] at hdone
    exact ⟨h', hdone ▸ hback⟩

end Borrowed
end SecondaryIndex.Loan
