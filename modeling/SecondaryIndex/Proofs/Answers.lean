import SecondaryIndex.Proofs.Candidates
import SecondaryIndex.Proofs.Loan.Building
import SecondaryIndex.Proofs.Stream.Advance
import SecondaryIndex.Proofs.Stream.Merged

namespace SecondaryIndex

/-- The tokens that a reader finds, none if the search fails. -/
def Reader.found (r : Reader) (c : Condition) : List Token :=
  match r.search c with
  | .ok (some found) => found.tokens
  | _ => []

/-- The tokens that postings have for a condition, none if the search fails. -/
def Postings.found (p : Postings) (c : Condition) : List Token := (p.search c).toOption.getD []

namespace Engine

/-- What a segment has for a condition, nothing once it is released. -/
def stored (e : Engine) (c : Condition) (s : Segment) : List Token :=
  if e.refs s = 0 then [] else ((e.segment? s).map fun state => state.reader.found c).getD []

/-- What the memtable of its index has for a condition. -/
def entered (e : Engine) (c : Condition) : List Token :=
  ((c.index.bind (e.indexes[·]?)).map fun index => index.memtable.found c).getD []

/-- Whatever stores outside find is in rising order. -/
def Ordered (e : Engine) : Prop :=
  ∀ (i : Nat) state answer c found, e.segments[i]? = some state →
    state.reader.store = .external answer → answer c = .ok (some found) → Rising found.tokens

theorem ordered_of_memory {e : Engine} (h : ∀ (i : Nat) state, e.segments[i]? = some state →
    ∃ p, state.reader.store = .memory p) : e.Ordered := by
  intro i state answer c found hi hstore
  obtain ⟨p, hp⟩ := h i state hi
  rw [hp] at hstore
  cases hstore

theorem Ordered.search {e : Engine} (h : e.Ordered) {i : Nat} {state : SegmentState} {c : Condition}
    {found : Found} (hi : e.segments[i]? = some state)
    (hsearch : state.reader.search c = .ok (some found)) : Rising found.tokens := by
  rw [Reader.search] at hsearch
  split at hsearch
  next answer hstore => exact h i state answer c found hi hstore hsearch
  next p hstore =>
    by_cases hcloses : state.reader.closes > 0
    · rw [if_pos hcloses] at hsearch
      cases hsearch
    · rw [if_neg hcloses] at hsearch
      obtain ⟨ts, hts, hsearch⟩ := bind_eq_ok.1 hsearch
      by_cases hempty : ts.isEmpty
      · rw [if_pos hempty] at hsearch
        cases hsearch
      · rw [if_neg hempty] at hsearch
        cases hsearch
        exact Postings.pairwise_search hts

end Engine

/-- Searches in `e` find what they find in `e₀`. -/
structure Serves (e₀ e : Engine) : Prop where
  indexes : e.indexes = e₀.indexes
  readers : ∀ i : Nat, e.segments[i]?.map SegmentState.reader =
    e₀.segments[i]?.map SegmentState.reader

/-- Searching the segment succeeds unless it is released, and closing what it brings does too. -/
structure Segment.Answers (s : Segment) (e : Engine) (c : Condition) : Prop where
  searched : e.refs s ≠ 0 → ∀ state, e.segment? s = some state →
    ∃ found, state.reader.search c = .ok found ∧ ∀ f ∈ found, f.closeFault = none
  small : (e.stored c s).length < 2 ^ 64

namespace Loan.Borrowed

open Act Cursor

variable {P : List Segment → Prop} {e₀ e : Engine} {S H : List Nat}

theorem serves (h : Borrowed P e₀ e S H) : Serves e₀ e where
  indexes := h.untouched.indexes
  readers i := by
    rw [h.segments, Option.map_map]
    rfl

theorem refs_ne_iff (h : Borrowed P e₀ e S H) {s : Segment} : e.refs s ≠ 0 ↔ e₀.refs s ≠ 0 := by
  rw [h.refs_eq]
  refine ⟨fun hne hzero => ?_, fun hne => by omega⟩
  rw [hzero, Nat.zero_add] at hne
  obtain ⟨state, hstate, hrefs⟩ := h.alive s.id (List.count_pos_iff.1 (Nat.pos_of_ne_zero hne))
  exact hrefs (by simpa [Engine.refs, Engine.segment?, hstate] using hzero)

theorem exists_reader (h : Borrowed P e₀ e S H) {s : Segment} (c : Condition)
    (hrefs : e.refs s ≠ 0) : ∃ state state₀, e.segment? s = some state ∧ state.refs ≠ 0 ∧
      e₀.segment? s = some state₀ ∧ state₀.reader = state.reader ∧ e₀.refs s ≠ 0 ∧
        e₀.stored c s = state.reader.found c := by
  have hreader := h.serves.readers s.id
  have hrefs₀ := h.refs_ne_iff.1 hrefs
  cases hstate : e.segment? s with
  | none => simp [Engine.refs, hstate] at hrefs
  | some state =>
    have hstate' : e.segments[s.id]? = some state := hstate
    rw [hstate', Option.map_some] at hreader
    obtain ⟨state₀, hstate₀, hsame⟩ := Option.map_eq_some_iff.1 hreader.symm
    refine ⟨state, state₀, rfl, by simpa [Engine.refs, hstate] using hrefs, hstate₀, hsame, hrefs₀,
      ?_⟩
    rw [Engine.stored, if_neg hrefs₀, Engine.segment?, hstate₀, Option.map_some, Option.getD_some,
      hsame]

theorem opened_search (h : Borrowed P e₀ e S H) (ho : e₀.Ordered) (s : Segment) (c : Condition)
    (hrefs : e.refs s ≠ 0) :
    Ensures (s.search c) e fun
      | .error _, _ => ¬ s.Answers e₀ c
      | .ok none, e' => e' = e ∧ e₀.stored c s = []
      | .ok (some x), e' => Beyond e.cursors.size e.cursors e'.cursors ∧
          Opened e.cursors.size e'.cursors x ⟨[x], e₀.stored c s⟩ ∧
            (s.Answers e₀ c → Quiet e'.cursors [x]) ∧
            (Merge.extentOf e'.cursors x).count = UInt64.ofNat (e₀.stored c s).length := by
  obtain ⟨state, state₀, hstate, hne, hstate₀, hsame, hrefs₀, hstored⟩ := h.exists_reader c hrefs
  simp only [Segment.search, ensures_get_bind, hstate, if_neg hne, ensures_settle_bind]
  cases hsearch : state.reader.search c with
  | error f =>
    rintro ⟨hsearched, -⟩
    obtain ⟨found, hfound, -⟩ := hsearched hrefs₀ state₀ hstate₀
    rw [hsame, hsearch] at hfound
    cases hfound
  | ok found =>
    cases found with
    | none =>
      refine ⟨rfl, ?_⟩
      rw [hstored, Reader.found, hsearch]
    | some found =>
      have hfound : e₀.stored c s = found.tokens := by rw [hstored, Reader.found, hsearch]
      have hrising : Rising found.tokens := ho.search hstate₀ (by rw [hsame, hsearch])
      simp only [ensures_map, ensures_openAs]
      rw [hfound]
      refine ⟨.push _ _, .ofTokens (Nat.le_refl _) hrising _ _, fun hanswers => ?_, ?_⟩
      · obtain ⟨found', hfound', hquiet⟩ := hanswers.searched hrefs₀ state₀ hstate₀
        rw [hsame, hsearch] at hfound'
        cases hfound'
        exact Quiet.push _ (hquiet found rfl)
      · rw [Merge.extentOf_push]
        rfl

theorem retained (h : Borrowed P e₀ e S H) (s : Segment) (c : Condition) :
    Ensures s.retain e fun r e' => e'.cursors = e.cursors ∧
      (r = .ok false ∧ e₀.stored c s = [] ∨
        r = .ok true ∧ Borrowed P e₀ e' (s.id :: S) H ∧ e'.refs s ≠ 0) := by
  rw [Ensures, Segment.retain_apply]
  by_cases hr : e.refs s = 0
  · rw [if_pos hr]
    exact ⟨rfl, .inl ⟨rfl, if_pos (by_contra fun hr₀ => h.refs_ne_iff.2 hr₀ hr)⟩⟩
  · rw [if_neg hr]
    have h₁ := h.borrow hr
    refine ⟨rfl, .inr ⟨rfl, h₁, ?_⟩⟩
    rw [h₁.refs_eq, List.count_append, List.count_cons_self]
    omega

theorem opened_brings {s : Segment} (h : Borrowed P e₀ e (s.id :: S) H) (ho : e₀.Ordered)
    (c : Condition) (hrefs : e.refs s ≠ 0) : Ensures (Act.orUndo (s.search c) s.release) e fun
      | .error _, _ => ¬ s.Answers e₀ c
      | .ok none, e' => e' = e ∧ e₀.stored c s = []
      | .ok (some x), e' => Beyond e.cursors.size e.cursors e'.cursors ∧
          Opened e.cursors.size e'.cursors x ⟨[x], e₀.stored c s⟩ ∧
            (s.Answers e₀ c → Quiet e'.cursors [x]) ∧
            (Merge.extentOf e'.cursors x).count = UInt64.ofNat (e₀.stored c s).length ∧
            Borrowed P e₀ e' (s.id :: S) (x :: H) ∧ IsLeaf e'.cursors x := by
  refine ((h.opened_search ho s c hrefs).and (h.search s c)).orUndo ?_ fun f e₁ h₁ => h₁.1
  rintro (_ | x) e₁ ⟨h₁, h₁'⟩
  · exact h₁
  · obtain ⟨hbeyond, hopened, hquiet, hcount⟩ := h₁
    exact ⟨hbeyond, hopened, hquiet, hcount, h₁'.1.held, h₁'.2⟩

theorem closed_empty {s : Segment} {x n : Nat} {ts : List Token} {quiet : Prop}
    (h : Borrowed P e₀ e (s.id :: S) (x :: H)) (hleaf : IsLeaf e.cursors x)
    (hopened : Opened n e.cursors x ⟨[x], ts⟩) (hquiet : quiet → Quiet e.cursors [x]) :
    Ensures (do Act.orUndo (Cursor.close x) s.release; s.release; return (none : Option CursorId)) e
      fun
        | .error _, _ => ¬ quiet
        | .ok found, e' => found = none ∧ Beyond n e.cursors e'.cursors := by
  have hclosed : Ensures (Cursor.close x) e fun r e₁ => Beyond n e.cursors e₁.cursors ∧
      Borrowed P e₀ e₁ (s.id :: S) H ∧ (quiet → r = .ok ()) := by
    refine ((Cursor.closed_closeWithin hopened.streams).and
      (closeLeaf h hleaf (Nat.succ_pos x))).mono ?_
    rintro r e₁ ⟨⟨hb₁, hr⟩, h₁, -⟩
    exact ⟨.of_beside hb₁ hopened.new, h₁, fun hq => hr (hquiet hq)⟩
  refine Ensures.bind (hclosed.orUndo (Q := fun
    | .error _, _ => ¬ quiet
    | .ok (), e₁ => Beyond n e.cursors e₁.cursors ∧ Borrowed P e₀ e₁ (s.id :: S) H) ?_ ?_) ?_ ?_
  · exact fun _ e₁ h₁ => ⟨h₁.1, h₁.2.1⟩
  · exact fun f e₁ h₁ hq => nomatch h₁.2.2 hq
  · rintro _ e₁ ⟨hb₁, h₁⟩
    refine (release h₁).bind_ok ?_
    rintro e₂ ⟨hcs, -⟩
    exact ⟨rfl, hb₁.trans (.of_eq hcs)⟩
  · exact fun _ _ h => h

theorem opened_probe (h : Borrowed P e₀ e S H) (ho : e₀.Ordered) (c : Condition) (s : Segment) :
    Ensures (Matches.probe c s) e fun
      | .error _, _ => ¬ s.Answers e₀ c
      | .ok none, e' => Beyond e.cursors.size e.cursors e'.cursors ∧
          (s.Answers e₀ c → e₀.stored c s = [])
      | .ok (some x), e' => Beyond e.cursors.size e.cursors e'.cursors ∧
          Opened e.cursors.size e'.cursors x ⟨[x], e₀.stored c s⟩ ∧
            (s.Answers e₀ c → Quiet e'.cursors [x]) ∧ Merge.admits e'.cursors x ∧
            (Merge.extentOf e'.cursors x).count.toNat ≤ (e₀.stored c s).length := by
  rw [Matches.probe]
  refine (h.retained s c).bind ?_ ?_
  swap
  · rintro f e₁ ⟨-, ⟨hr, -⟩ | ⟨hr, -⟩⟩ <;> cases hr
  rintro b e₁ ⟨hcs₁, ⟨hb, hnone⟩ | ⟨hb, h₁, hrefs⟩⟩ <;> cases hb
  · exact ⟨.of_eq hcs₁, fun _ => hnone⟩
  rw [← hcs₁]
  refine (h₁.opened_brings ho c hrefs).bind ?_ fun _ _ h => h
  rintro (_ | x) e₂ h₂
  · obtain ⟨rfl, hnone⟩ := h₂
    refine (release h₁).bind_ok ?_
    rintro e₃ ⟨hcs, -⟩
    exact ⟨.of_eq hcs, fun _ => hnone⟩
  obtain ⟨hb₂, hopened, hquiet, hcount, h₂, hleaf⟩ := h₂
  simp only [ensures_state_bind]
  change Ensures (if (Merge.extentOf e₂.cursors x).count = 0 then _ else _) e₂ _
  by_cases hzero : (Merge.extentOf e₂.cursors x).count = 0
  · rw [if_pos hzero]
    refine (closed_empty h₂ hleaf hopened hquiet).mono ?_
    rintro (f | _) e₃ h₃
    · exact h₃
    · obtain ⟨rfl, hb₃⟩ := h₃
      refine ⟨hb₂.trans hb₃, fun hanswers => List.length_eq_zero_iff.1 ?_⟩
      -- The count has not wrapped around.
      have htoNat := congrArg UInt64.toNat (hcount.symm.trans hzero)
      rwa [UInt64.toNat_ofNat', Nat.mod_eq_of_lt hanswers.small] at htoNat
  · rw [if_neg hzero, ensures_pure]
    refine ⟨hb₂, hopened, hquiet, decide_eq_true hzero, ?_⟩
    rw [hcount, UInt64.toNat_ofNat']
    exact Nat.mod_le _ _

end Loan.Borrowed

/-- What searching several segments leaves open. -/
structure Gathered (n : Nat) (e₀ e : Engine) (c : Condition) (segments : List Segment)
    (ids : List Nat) (ps : List Part) : Prop where
  inputs : Inputs n e.cursors ids ps
  from_ : ∀ p ∈ ps, ∀ t ∈ p.tokens, ∃ s ∈ segments, t ∈ e₀.stored c s
  admitted : ∀ x ∈ ids, Merge.admits e.cursors x
  all : (∀ s ∈ segments, s.Answers e₀ c) →
    ∀ s ∈ segments, ∀ t ∈ e₀.stored c s, ∃ p ∈ ps, t ∈ p.tokens
  quiet : (∀ s ∈ segments, s.Answers e₀ c) → Quiet e.cursors (Part.allReads ps)
  tally_le : tally e.cursors ids ≤ (segments.map fun s => (e₀.stored c s).length).sum

namespace Gathered

variable {n k x : Nat} {e₀ e : Engine} {c : Condition} {s : Segment} {rest : List Segment}
  {ids : List Nat} {ps : List Part}

theorem skip (h : Gathered k e₀ e c rest ids ps) (hle : n ≤ k)
    (hnone : s.Answers e₀ c → e₀.stored c s = []) : Gathered n e₀ e c (s :: rest) ids ps where
  inputs := h.inputs.mono hle
  from_ p hp t ht := by
    obtain ⟨s', hs', ht⟩ := h.from_ p hp t ht
    exact ⟨s', List.mem_cons_of_mem s hs', ht⟩
  admitted := h.admitted
  all hall s' hs' t ht := by
    rw [List.forall_mem_cons] at hall
    rcases List.mem_cons.1 hs' with rfl | hs'
    · rw [hnone hall.1] at ht
      cases ht
    · exact h.all hall.2 s' hs' t ht
  quiet hall := h.quiet (List.forall_mem_cons.1 hall).2
  tally_le := by
    rw [List.map_cons, List.sum_cons]
    exact Nat.le_trans h.tally_le (Nat.le_add_left _ _)

theorem cons (h : Gathered k e₀ e c rest ids ps) (hle : n ≤ k) (hx : x < k)
    (hopened : Opened n e.cursors x ⟨[x], e₀.stored c s⟩)
    (hquiet : s.Answers e₀ c → Quiet e.cursors [x]) (hadmits : Merge.admits e.cursors x)
    (hcount : (Merge.extentOf e.cursors x).count.toNat ≤ (e₀.stored c s).length) :
    Gathered n e₀ e c (s :: rest) (x :: ids) (⟨[x], e₀.stored c s⟩ :: ps) where
  inputs := by
    refine .cons hopened (h.inputs.mono hle) fun i hi hi' => ?_
    obtain rfl := List.mem_singleton.1 hi
    exact absurd hx (Nat.not_lt.2 (h.inputs.mem_reads i hi').1)
  from_ := by
    refine List.forall_mem_cons.2 ⟨fun t ht => ⟨s, by simp, ht⟩, fun p hp t ht => ?_⟩
    obtain ⟨s', hs', ht⟩ := h.from_ p hp t ht
    exact ⟨s', List.mem_cons_of_mem s hs', ht⟩
  admitted := List.forall_mem_cons.2 ⟨hadmits, h.admitted⟩
  all hall s' hs' t ht := by
    rw [List.forall_mem_cons] at hall
    rcases List.mem_cons.1 hs' with rfl | hs'
    · exact ⟨_, List.mem_cons_self, ht⟩
    · obtain ⟨p, hp, ht⟩ := h.all hall.2 s' hs' t ht
      exact ⟨p, List.mem_cons_of_mem _ hp, ht⟩
  quiet hall := by
    rw [List.forall_mem_cons] at hall
    intro i hi
    rcases List.mem_append.1 hi with hi | hi
    · exact hquiet hall.1 i hi
    · exact h.quiet hall.2 i hi
  tally_le := by
    rw [List.map_cons, List.sum_cons, tally_cons]
    exact Nat.add_le_add hcount h.tally_le

end Gathered

theorem Loan.Borrowed.opened_gather {P : List Segment → Prop} {e₀ e : Engine} {S H : List Nat}
    (c : Condition) (segments : List Segment) (h : Borrowed P e₀ e S H) (ho : e₀.Ordered) :
    Ensures (Matches.gather c segments) e fun
      | .error _, _ => ¬ ∀ s ∈ segments, s.Answers e₀ c
      | .ok found, e' => Beyond e.cursors.size e.cursors e'.cursors ∧
          ∃ ps, Gathered e.cursors.size e₀ e' c segments (found.map Prod.fst) ps := by
  induction segments generalizing e S H with
  | nil => exact ⟨.refl _ _, [], .nil _ _, nofun, nofun, nofun, nofun, Nat.le_refl 0⟩
  | cons s rest ih =>
    rw [Matches.gather]
    refine ((h.opened_probe ho c s).and (h.probe c s)).bind ?_ ?_
    swap
    · exact fun f e₁ h₁ hall => h₁.1 (hall s (by simp))
    rintro (_ | x) e₁ ⟨h₁, h₁'⟩
    · obtain ⟨hb₁, hnone⟩ := h₁
      have hle := hb₁.le_size (Nat.le_refl _)
      refine (ih h₁'.held).mono ?_
      rintro (f | found) e₂ h₂
      · exact fun hall => h₂ fun s' hs' => hall s' (List.mem_cons_of_mem s hs')
      obtain ⟨hb₂, ps, hg⟩ := h₂
      exact ⟨hb₁.trans (hb₂.mono hle), ps, hg.skip hle hnone⟩
    obtain ⟨hb₁, hopened, hquiet, hadmits, hcount⟩ := h₁
    have hle := hb₁.le_size (Nat.le_refl _)
    refine ((ih h₁'.1.held).orUndo_of fun _ _ _ h => h).bind ?_ ?_
    swap
    · exact fun f e₂ h₂ hall => h₂ fun s' hs' => hall s' (List.mem_cons_of_mem s hs')
    rintro found e₂ ⟨hb₂, ps, hg⟩
    have hsame := hb₂ x hopened.lt_size
    rw [ensures_pure]
    refine ⟨hb₁.trans (hb₂.mono hle), _, hg.cons hle hopened.lt_size (hopened.beyond hb₂)
      (fun hanswers => ?_) ?_ ?_⟩
    · exact (hquiet hanswers).frame fun j hj => hb₂ j (hopened.streams.lt_size j hj)
    · rwa [Merge.admits_congr hsame]
    · rwa [Merge.extentOf_congr hsame]

/-- What a step that may bring a stream of `T` makes of the cursors `cs`. The stream has nothing
else if `sound` holds, and it has all of it if `full` does. -/
def Yields (cs : Array Cursor) (sound full : Prop) (V : Nat) (T : Token → Prop) :
    Except Fault (Option Nat) → Engine → Prop
  | .error _, _ => ¬ full
  | .ok none, e => Beyond cs.size cs e.cursors ∧ (full → ∀ t, ¬ T t)
  | .ok (some x), e => Beyond cs.size cs e.cursors ∧ ∃ p, Opened cs.size e.cursors x p ∧
      (sound → ∀ t ∈ p.tokens, T t) ∧
      (full → (∀ t, T t → t ∈ p.tokens) ∧ Quiet e.cursors p.reads ∧ Counted V e.cursors x p)

theorem Merge.yields_union {n : Nat} {e : Engine} {ids : List Nat} {ps : List Part}
    (h : Inputs n e.cursors ids ps) (hn : n ≤ e.cursors.size) {inputs : List (Option CursorId)}
    (hinputs : inputs.filterMap id = ids) :
    Ensures (union inputs) e fun
      | .error _, _ => ¬ Quiet e.cursors (Part.allReads ps)
      | .ok none, e' => e' = e ∧ (Counts e.cursors ids ps → ∀ p ∈ ps, p.tokens = [])
      | .ok (some x), e' => Beyond n e.cursors e'.cursors ∧ ∃ q, Opened n e'.cursors x q ∧
          (∀ t ∈ q.tokens, ∃ p ∈ ps, t ∈ p.tokens) ∧
          (Counts e.cursors ids ps → ∀ p ∈ ps, ∀ t ∈ p.tokens, t ∈ q.tokens) ∧
          (Quiet e.cursors (Part.allReads ps) → Quiet e'.cursors q.reads) ∧
          (tally e.cursors ids < 2 ^ 64 → Counted (tally e.cursors ids) e'.cursors x q) := by
  obtain ⟨taken, hsub, hfed, htaken⟩ := (Fed.start n e.cursors .or).addAll h nofun
  rw [List.nil_append] at hfed
  have hor := foldl_takeIn_connective e.cursors { connective := .or } ids
  have hkept := foldl_takeIn_inputs e.cursors { connective := .or } ids
  have htallied : tally e.cursors ids < 2 ^ 64 → Tallied e.cursors _ := fun hV =>
    (Tallied.start e.cursors .or).addAll hV
  have hquiet : Quiet e.cursors (Part.allReads ps) → Quiet e.cursors (Part.allReads taken) :=
    fun hquiet => hquiet.of_subset hsub.subset
  rw [union, ensures_bind, ensures_addAll, hinputs]
  generalize ids.foldl (takeIn e.cursors) { connective := .or } = m at hfed hor hkept htallied
  refine (hfed.build hn).mono ?_
  rintro (f | _ | x) e' hbuilt
  · exact fun hall => hbuilt (hquiet hall)
  · obtain ⟨rfl, rfl⟩ := hbuilt
    refine ⟨rfl, fun hcounts p hp => ?_⟩
    by_contra hne
    cases htaken.1 hcounts p hp hne
  · obtain ⟨hb, q, hstands⟩ := hbuilt
    have htokens : ∀ t, t ∈ q.tokens ↔ ∃ p ∈ taken, t ∈ p.tokens := by
      intro t
      rw [hstands.tokens, hor, Connective.or_joins]
    refine ⟨hb, q, hstands.opened, fun t ht => ?_, fun hcounts p hp t ht => ?_,
      fun hall => hstands.quiet (hquiet hall), fun hV => ?_⟩
    · obtain ⟨p, hp, ht⟩ := (htokens t).1 ht
      exact ⟨p, hsub.subset hp, ht⟩
    · exact (htokens t).2 ⟨p, htaken.1 hcounts p hp (List.ne_nil_of_mem ht), ht⟩
    · obtain ⟨hle, hne⟩ := hstands.counted (htallied hV)
      refine ⟨hle.trans ?_, hne⟩
      rw [hkept, List.nil_append]
      exact tally_filter_le _ _ _

namespace Candidate

def Holds (d : Candidate) (e : Engine) (t : Token) : Prop :=
  t ∈ e.entered d.condition ∨ ∃ s ∈ d.segments, t ∈ e.stored d.condition s

/-- How many tokens the searches for a candidate find together. -/
def volume (d : Candidate) (e : Engine) : Nat :=
  (e.entered d.condition).length + (d.segments.map fun s => (e.stored d.condition s).length).sum

/-- All searches for a candidate succeed, and what they bring can be counted. -/
structure Answers (d : Candidate) (e : Engine) : Prop where
  memtable : ∀ i index, d.condition.index = some i → e.indexes[i]? = some index →
    ∃ ts, index.memtable.search d.condition = .ok ts
  segments : ∀ s ∈ d.segments, s.Answers e d.condition
  small : d.volume e < 2 ^ 64

end Candidate

/-- The stream of what the memtable has for a condition, absent if that is nothing. -/
def Entered (n : Nat) (cs : Array Cursor) (ts : List Token) : Option Nat → Prop
  | none => ts = []
  | some x => Opened n cs x ⟨[x], ts⟩ ∧ Quiet cs [x] ∧
      (Merge.extentOf cs x).count = UInt64.ofNat ts.length

theorem Entered.beyond {n n' : Nat} {cs cs' : Array Cursor} {ts : List Token}
    {memtable : Option Nat} (h : Entered n cs ts memtable) (hb : Beyond cs.size cs cs')
    (hle : n' ≤ n) :
    Entered n' cs' ts memtable := by
  cases memtable with
  | none => exact h
  | some x =>
    obtain ⟨hopened, hquiet, hcount⟩ := h
    refine ⟨(hopened.beyond hb).mono hle, hquiet.frame fun i hi => ?_, ?_⟩
    · exact hb i (hopened.streams.lt_size i hi)
    · rw [Merge.extentOf_congr (hb x hopened.lt_size)]
      exact hcount

theorem Serves.entered_searchMemtable {e₀ e : Engine} (h : Serves e₀ e) {i : IndexId}
    {c : Condition} (hi : c.index = some i) :
    Ensures (Catalog.searchMemtable i c) e fun
      | .error _, _ =>
          ¬ ∀ index, e₀.indexes[i]? = some index → ∃ ts, index.memtable.search c = .ok ts
      | .ok memtable, e' => Beyond e.cursors.size e.cursors e'.cursors ∧
          Entered e.cursors.size e'.cursors (e₀.entered c) memtable := by
  rw [Catalog.searchMemtable, ensures_get_bind, h.indexes, Engine.entered, hi, Option.bind_some]
  cases hindex : e₀.indexes[i]? with
  | none => exact ⟨.refl _ _, rfl⟩
  | some index =>
    simp only [Act.ensures_settle_bind]
    rw [Option.map_some, Option.getD_some, Postings.found]
    cases hsearch : index.memtable.search c with
    | error f =>
      intro hall
      obtain ⟨ts, hts⟩ := hall index rfl
      rw [hsearch] at hts
      cases hts
    | ok ts =>
      cases ts with
      | nil => exact ⟨.refl _ _, rfl⟩
      | cons t rest =>
        simp only [List.isEmpty_cons, Bool.false_eq_true, if_false, ensures_map,
          Cursor.ensures_openAs]
        refine ⟨.push _ _, .ofTokens (Nat.le_refl _) (Postings.pairwise_search hsearch) _ _,
          .push _ rfl, ?_⟩
        rw [Merge.extentOf_push]
        rfl

namespace Loan.Borrowed

open Act Cursor

variable {P : List Segment → Prop} {e₀ e : Engine} {S H : List Nat}

theorem inputs_of_gathered {d : Candidate} {ids : List Nat} {ps : List Part}
    {memtable : Option Nat} {n k : Nat} (hnk : n ≤ k)
    (hg : Gathered k e₀ e d.condition d.segments ids ps)
    (hmem : Entered n e.cursors (e₀.entered d.condition) memtable) (hlt : ∀ x ∈ memtable, x < k) :
    ∃ qs, Inputs n e.cursors (ids ++ memtable.toList) qs ∧
      (∀ p ∈ qs, ∀ t ∈ p.tokens, d.Holds e₀ t) ∧
      (d.Answers e₀ → (∀ t, d.Holds e₀ t → ∃ p ∈ qs, t ∈ p.tokens) ∧
        Quiet e.cursors (Part.allReads qs) ∧ Counts e.cursors (ids ++ memtable.toList) qs) ∧
      tally e.cursors (ids ++ memtable.toList) ≤ d.volume e₀ := by
  have hcounts : Counts e.cursors ids ps := forall₂_imp_mem hg.inputs.each
    fun x hx _ _ _ _ => hg.admitted x hx
  have hfrom : ∀ p ∈ ps, ∀ t ∈ p.tokens, d.Holds e₀ t := fun p hp t ht => .inr (hg.from_ p hp t ht)
  have htally := hg.tally_le
  rw [Candidate.volume]
  cases memtable with
  | none =>
    have hnone : e₀.entered d.condition = [] := hmem
    rw [Option.toList_none, List.append_nil]
    refine ⟨ps, hg.inputs.mono hnk, hfrom,
      fun hans => ⟨?_, hg.quiet hans.segments, hcounts⟩, by omega⟩
    rintro t (ht | ⟨s, hs, ht⟩)
    · rw [hnone] at ht
      cases ht
    · exact hg.all hans.segments s hs t ht
  | some x =>
    obtain ⟨hopened, hquiet, hcount⟩ := hmem
    rw [Option.toList_some, tally_append, tally_singleton, hcount, UInt64.toNat_ofNat']
    refine ⟨ps ++ [⟨[x], e₀.entered d.condition⟩], (hg.inputs.mono hnk).concat hopened ?_, ?_,
      fun hans => ⟨?_, ?_, ?_⟩, ?_⟩
    · intro i hi hix
      rw [List.mem_singleton.1 hix] at hi
      exact Nat.not_lt.2 (hg.inputs.mem_reads x hi).1 (hlt x rfl)
    · exact List.forall_mem_append.2 ⟨hfrom, List.forall_mem_singleton.2 fun t ht => .inl ht⟩
    · rintro t (ht | ⟨s, hs, ht⟩)
      · exact ⟨_, List.mem_append_right _ (List.mem_singleton_self _), ht⟩
      · obtain ⟨p, hp, ht⟩ := hg.all hans.segments s hs t ht
        exact ⟨p, List.mem_append_left _ hp, ht⟩
    · rw [Part.allReads, List.flatMap_append, List.flatMap_singleton]
      exact (hg.quiet hans.segments).append hquiet
    · refine List.rel_append hcounts (.cons (fun hne => decide_eq_true fun hzero => hne ?_) .nil)
      -- The volume is small enough for the count not to wrap: a count of zero is a length of zero.
      have hsmall := hans.small
      rw [Candidate.volume] at hsmall
      have htoNat := congrArg UInt64.toNat (hcount.symm.trans hzero)
      rw [UInt64.toNat_ofNat', Nat.mod_eq_of_lt (by omega)] at htoNat
      exact List.length_eq_zero_iff.1 htoNat
    · have := Nat.mod_le (e₀.entered d.condition).length (2 ^ 64)
      omega

/-- The matches of a condition are a stream of what its candidate finds. -/
theorem yields_openAs (d : Candidate) {memtable : Option Nat} (h : Borrowed P e₀ e S H)
    (ho : e₀.Ordered) {n : Nat} (hn : n ≤ e.cursors.size)
    (hmem : Entered n e.cursors (e₀.entered d.condition) memtable) :
    Ensures (Matches.openAs d.condition memtable d.segments) e fun
      | .error _, _ => ¬ d.Answers e₀
      | .ok none, e' => Beyond n e.cursors e'.cursors ∧ (d.Answers e₀ → ∀ t, ¬ d.Holds e₀ t)
      | .ok (some x), e' => Beyond n e.cursors e'.cursors ∧ ∃ p, Opened n e'.cursors x p ∧
          (∀ t ∈ p.tokens, d.Holds e₀ t) ∧
          (d.Answers e₀ → (∀ t, d.Holds e₀ t → t ∈ p.tokens) ∧ Quiet e'.cursors p.reads ∧
            Counted (d.volume e₀) e'.cursors x p) := by
  rw [Matches.openAs]
  refine (h.opened_gather d.condition d.segments ho).bind ?_ ?_
  swap
  · exact fun f e₁ h₁ hans => h₁ hans.segments
  rintro found e₁ ⟨hb₁, ps, hg⟩
  have hle := hb₁.le_size (Nat.le_refl _)
  obtain ⟨qs, hin, hsound, hfull, htally⟩ := inputs_of_gathered hn hg
    (hmem.beyond hb₁ (Nat.le_refl n)) (by
      rintro x ⟨⟩
      exact hmem.1.lt_size)
  have hinputs : (found.map (fun p => some p.1) ++ [memtable]).filterMap id =
      found.map Prod.fst ++ memtable.toList := by
    cases memtable <;> simp [List.filterMap_append, List.filterMap_map]
  refine (Merge.yields_union hin (hn.trans hle) hinputs).bind ?_ ?_
  swap
  · exact fun f e₂ h₂ hans => h₂ (hfull hans).2.1
  rintro (_ | m) e₂ h₂
  · obtain ⟨rfl, hnone⟩ := h₂
    refine ⟨hb₁.mono hn, fun hans t ht => ?_⟩
    obtain ⟨p, hp, htp⟩ := (hfull hans).1 t ht
    rw [hnone (hfull hans).2.2 p hp] at htp
    cases htp
  · obtain ⟨hb₂, q, hopened, hfrom, hall, hquiet, hcounted⟩ := h₂
    have hsize := hb₂.le_size (hn.trans hle)
    simp only [ensures_state_bind, ensures_map, ensures_openAs]
    refine ⟨((hb₁.mono hn).trans hb₂).trans ((Beyond.push _ _).mono hsize), _,
      hopened.matches hsize (found.map Prod.snd), fun t ht => ?_,
      fun hans => ⟨fun t ht => ?_, ?_, ?_⟩⟩
    · obtain ⟨p, hp, ht⟩ := hfrom t ht
      exact hsound p hp t ht
    · obtain ⟨p, hp, ht⟩ := (hfull hans).1 t ht
      exact hall (hfull hans).2.2 p hp t ht
    · rw [← List.singleton_append]
      refine (Quiet.push _ rfl).append ((hquiet (hfull hans).2.1).frame fun i hi => ?_)
      exact Beyond.push _ _ i (hopened.streams.lt_size i hi)
    · have hsmall := hans.small
      obtain ⟨hle', hne⟩ := hcounted (by omega)
      refine ⟨?_, fun hne' => ?_⟩
      · rw [Merge.extentOf_push]
        exact hle'.trans htally
      · rw [Merge.admits, Merge.extentOf_push]
        exact hne hne'

theorem yields_openMatches (d : Candidate) (h : Borrowed P e₀ e S H) (ho : e₀.Ordered) :
    Ensures (Session.openMatches d) e
      (Yields e.cursors True (d.Answers e₀) (d.volume e₀) (d.Holds e₀)) := by
  have hopenAs : ∀ {memtable : Option Nat} {e₁ : Engine} {H₁ : List Nat}, Borrowed P e₀ e₁ S H₁ →
      Beyond e.cursors.size e.cursors e₁.cursors →
        Entered e.cursors.size e₁.cursors (e₀.entered d.condition) memtable →
          Ensures (Matches.openAs d.condition memtable d.segments) e₁
            (Yields e.cursors True (d.Answers e₀) (d.volume e₀) (d.Holds e₀)) := by
    intro memtable e₁ H₁ h₁ hb₁ hmem
    refine (h₁.yields_openAs d ho (hb₁.le_size (Nat.le_refl _)) hmem).mono ?_
    rintro (f | _ | x) e₂ h₂
    · exact h₂
    · exact ⟨hb₁.trans h₂.1, h₂.2⟩
    · obtain ⟨hb₂, p, hopened, hsound, hfull⟩ := h₂
      exact ⟨hb₁.trans hb₂, p, hopened, fun _ => hsound, hfull⟩
  rw [Session.openMatches]
  cases hi : d.condition.index with
  | none =>
    refine hopenAs h (.refl _ _) ?_
    change e₀.entered d.condition = []
    rw [Engine.entered, hi]
    rfl
  | some i =>
    refine ((h.serves.entered_searchMemtable hi).and (h.searchMemtable i d.condition)).bind ?_ ?_
    swap
    · exact fun f e₁ h₁ hans => h₁.1 fun index hindex => hans.memtable i index hi hindex
    rintro (_ | x) e₁ ⟨⟨hb₁, hmem⟩, h₁⟩
    · obtain rfl : e₁ = e := h₁
      exact hopenAs h hb₁ hmem
    · exact hopenAs h₁.1.held hb₁ hmem

end Loan.Borrowed
end SecondaryIndex
