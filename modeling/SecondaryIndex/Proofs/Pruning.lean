import SecondaryIndex.Proofs.Searching
import SecondaryIndex.Proofs.Updating
import SecondaryIndex.Segment.Search

namespace SecondaryIndex

namespace Segment

/-- The bounds of the segment are those of its postings. -/
structure Spans (s : Segment) (p : Postings) : Prop where
  minKey : p.minToken = some s.minKey
  maxKey : p.maxToken = some s.maxKey
  minTerm : p.minTerm = some s.minTerm
  maxTerm : p.maxTerm = some s.maxTerm

/-- A segment that was opened over filled postings of the given type. -/
def OpenedOver (e : Engine) (type : ValueType) (s : Segment) (p : Postings) : Prop :=
  (∃ pairs, ({ type } : Postings).addAll pairs = .ok p) ∧ s.Spans p ∧
    ∃ state, e.segment? s = some state ∧ state.reader.store = .memory p

variable {s : Segment} {p : Postings} {e : Engine} {type : ValueType} {c : Condition}

theorem ensures_ofPostings {pairs : List (Bytes × Token)}
    (hp : ({ type } : Postings).addAll pairs = .ok p) (file : Option DataFile) :
    Ensures (ofPostings file p) e fun r e' => ∀ s, r = .ok s → s.OpenedOver e' type p := by
  unfold ofPostings
  split
  next minKey maxKey minTerm maxTerm hminKey hmaxKey hminTerm hmaxTerm =>
    unfold create
    split
    next file reader hfile hreader =>
      cases hreader
      refine Ensures.bind (R := fun _ _ => True) trivial ?_ fun _ _ _ _ h => by cases h
      intro held e' _
      split
      · exact nofun
      · rw [ensures_get_bind, ensures_set_bind, ensures_pure]
        intro s hs
        cases hs
        have hstored :
            (e'.segments.push { reader := .ofPostings p, refs := 1 })[e'.segments.size]? =
              some { reader := .ofPostings p, refs := 1 } := Array.getElem?_push_size
        exact ⟨⟨pairs, hp⟩, ⟨hminKey, hmaxKey, hminTerm, hmaxTerm⟩, _, hstored, rfl⟩
    · exact nofun
  · exact nofun

theorem meets_of_search (h : s.OpenedOver e type p) (hsound : Postings.Sound type p.entries)
    (htype : c.type = type) (hc : c.WellFormed) {id : CursorId}
    (hsearch : (s.search c e).1 = .ok (some id)) :
    ∃ entry ∈ p.entries, c.meets entry.term = true := by
  obtain ⟨⟨pairs, hp⟩, -, state, hstate, hstore⟩ := h
  obtain ⟨hsorted, hp⟩ := Postings.sorted_addAll (Postings.sorted_empty type) hp
  replace hp : p.type = type := hp
  have hopens : Ensures (s.search c) e fun r _ => r = .ok (some id) →
      ∃ tokens, p.search c = .ok tokens ∧ tokens ≠ [] := by
    rw [search, ensures_get_bind, hstate]
    dsimp only
    split
    · rintro ⟨⟩
    rw [Act.ensures_settle_bind, Reader.search, hstore]
    dsimp only
    split_ifs
    · rintro ⟨⟩
    cases hfound : p.search c with
    | error f => rintro ⟨⟩
    | ok tokens =>
      cases tokens with
      | nil => rintro ⟨⟩
      | cons t rest => exact fun _ => ⟨_, rfl, List.cons_ne_nil t rest⟩
  obtain ⟨tokens, hfound, hsome⟩ := hopens hsearch
  obtain ⟨found, hfound', -, hmem⟩ :=
    Postings.search_eq hsorted (hp ▸ hsound) (htype.trans hp.symm) hc
  rw [hfound] at hfound'
  cases hfound'
  obtain ⟨t, ht⟩ := List.exists_mem_of_ne_nil tokens hsome
  obtain ⟨entry, hentry, hmeets, -⟩ := (hmem t).1 ht
  exact ⟨entry, hentry, hmeets⟩

theorem Spans.term_mem {entry : Entry} (h : s.Spans p) (hrising : Postings.Rising type p.entries)
    (he : entry ∈ p.entries) : type.below entry.term s.minTerm = false ∧
      type.below s.maxTerm entry.term = false := by
  have hmin := Postings.foremost_minTerm hrising
  have hmax := Postings.foremost_maxTerm hrising
  rw [h.minTerm] at hmin
  rw [h.maxTerm] at hmax
  have hterm : entry.term ∈ p.entries.map Entry.term := List.mem_map_of_mem he
  exact ⟨ValueType.below_eq_false.2 (hmin.2 _ hterm), ValueType.below_eq_false.2 (hmax.2 _ hterm)⟩

/-- Whether the terms of a segment overlap a closed interval. -/
def overlapsTerms (type : ValueType) (s : Segment) (asked : Bytes × Bytes) : Bool :=
  !type.below asked.2 asked.1 && (!type.below asked.2 s.minTerm && !type.below s.maxTerm asked.1)

/-- Whether the keys of a segment overlap the tokens from `low` to `high`. -/
def overlapsKeys (s : Segment) (low high : Token) : Bool := s.minKey ≤ high && low ≤ s.maxKey

theorem overlapsTerms_of_mem {asked : Bytes × Bytes} {term : Bytes}
    (hasked : type.below term asked.1 = false ∧ type.below asked.2 term = false)
    (hs : type.below term s.minTerm = false ∧ type.below s.maxTerm term = false) :
    s.overlapsTerms type asked = true := by
  have hweak := ValueType.weak_below type
  have hcross : ∀ {a b}, type.below a term = false → type.below term b = false →
      type.below a b = false := fun ha hb => hweak.not_before_trans trivial trivial trivial ha hb
  rw [overlapsTerms, hcross hasked.2 hasked.1, hcross hasked.2 hs.1, hcross hs.2 hasked.1]
  rfl

end Segment

/-- The bounds that a condition sets are well-formed values of a type. -/
structure Condition.Fits (type : ValueType) (c : Condition) : Prop where
  lower : ∀ b, c.predicate.lower = some b → type.WellFormed b.value
  upper : ∀ b, c.predicate.upper = some b → type.WellFormed b.value

theorem Condition.WellFormed.fits {c : Condition} (hc : c.WellFormed) : c.Fits c.type :=
  ⟨hc.lower, hc.upper⟩

namespace TermRanges

variable {type : ValueType} {segments : List Segment} {low high : Bytes}

theorem widen_eq {s : Segment} (hlow : type.WellFormed low) (hhigh : type.WellFormed high)
    (hmin : type.WellFormed s.minTerm) (hmax : type.WellFormed s.maxTerm) :
    widen type (some (low, high)) s =
      .ok (some (if type.below s.minTerm low then s.minTerm else low,
        if type.below high s.maxTerm then s.maxTerm else high)) := by
  rw [widen_some, ValueType.compare_of_wellFormed hmin hlow,
    ValueType.compare_of_wellFormed hmax hhigh]
  have hgt : (type.order s.maxTerm high).isGT = type.below high s.maxTerm :=
    Std.OrientedCmp.isGT_eq_isLT
  change Except.ok _ = Except.ok _
  rw [hgt]
  rfl

theorem not_below_lower (type : ValueType) (a low : Bytes) :
    type.below a (if type.below a low then a else low) = false ∧ ∀ b, type.below b low = false →
      type.below b (if type.below a low then a else low) = false := by
  have hweak := ValueType.weak_below type
  split
  next hlower =>
    have hasymm := hweak.asymm trivial trivial hlower
    exact ⟨hweak.irrefl trivial,
      fun b hb => hweak.not_before_trans trivial trivial trivial hb hasymm⟩
  next hlower => exact ⟨Bool.not_eq_true _ ▸ hlower, fun b hb => hb⟩

theorem not_below_upper (type : ValueType) (a high : Bytes) :
    type.below (if type.below high a then a else high) a = false ∧ ∀ b, type.below high b = false →
      type.below (if type.below high a then a else high) b = false := by
  have hweak := ValueType.weak_below type
  split
  next hhigher =>
    have hasymm := hweak.asymm trivial trivial hhigher
    exact ⟨hweak.irrefl trivial,
      fun b hb => hweak.not_before_trans trivial trivial trivial hasymm hb⟩
  next hhigher => exact ⟨Bool.not_eq_true _ ▸ hhigher, fun b hb => hb⟩

/-- Well-formed bounds that no segment goes beyond. -/
structure Bounds (type : ValueType) (low high : Bytes) (segments : List Segment) : Prop where
  sound : type.WellFormed low ∧ type.WellFormed high
  above : ∀ s ∈ segments, type.below s.minTerm low = false
  beneath : ∀ s ∈ segments, type.below high s.maxTerm = false

theorem Bounds.widen {s : Segment} (h : Bounds type low high segments)
    (hmin : type.WellFormed s.minTerm) (hmax : type.WellFormed s.maxTerm) :
    Bounds type (if type.below s.minTerm low then s.minTerm else low)
      (if type.below high s.maxTerm then s.maxTerm else high) (segments ++ [s]) := by
  obtain ⟨hlower, hlowers⟩ := not_below_lower type s.minTerm low
  obtain ⟨hupper, huppers⟩ := not_below_upper type s.maxTerm high
  refine ⟨⟨?_, ?_⟩, fun t ht => ?_, fun t ht => ?_⟩
  · split
    · exact hmin
    · exact h.sound.1
  · split
    · exact hmax
    · exact h.sound.2
  · rcases List.mem_append.1 ht with ht | ht
    · exact hlowers _ (h.above t ht)
    · rw [List.mem_singleton.1 ht]
      exact hlower
  · rcases List.mem_append.1 ht with ht | ht
    · exact huppers _ (h.beneath t ht)
    · rw [List.mem_singleton.1 ht]
      exact hupper

theorem boundsOf_some {seen : List Segment} (h : Bounds type low high seen)
    (hterms : ∀ s ∈ segments, type.WellFormed s.minTerm ∧ type.WellFormed s.maxTerm) :
    ∃ low' high', boundsOf type (some (low, high)) segments = .ok (some (low', high')) ∧
      Bounds type low' high' (seen ++ segments) := by
  induction segments generalizing low high seen with
  | nil => exact ⟨low, high, rfl, (List.append_nil seen).symm ▸ h⟩
  | cons s rest ih =>
    obtain ⟨⟨hmin, hmax⟩, hrest⟩ := List.forall_mem_cons.1 hterms
    obtain ⟨low', high', hbounds, hcover⟩ := ih (h.widen hmin hmax) hrest
    refine ⟨low', high', ?_, ?_⟩
    · rw [boundsOf, widen_eq h.sound.1 h.sound.2 hmin hmax]
      exact hbounds
    · rw [List.append_assoc] at hcover
      exact hcover

theorem boundsOf_none (hterms : ∀ s ∈ segments,
    type.WellFormed s.minTerm ∧ type.WellFormed s.maxTerm) (hsome : segments ≠ []) :
    ∃ low high, boundsOf type none segments = .ok (some (low, high)) ∧
      Bounds type low high segments := by
  obtain ⟨s, rest, rfl⟩ := List.exists_cons_of_ne_nil hsome
  obtain ⟨hs, hrest⟩ := List.forall_mem_cons.1 hterms
  have hirrefl := fun b => (ValueType.weak_below type).irrefl (a := b) trivial
  have hstart : Bounds type s.minTerm s.maxTerm [s] :=
    ⟨hs, List.forall_mem_singleton.2 (hirrefl _), List.forall_mem_singleton.2 (hirrefl _)⟩
  exact boundsOf_some hstart hrest

/-- A term that meets a condition lies in the interval that the condition is turned into. -/
theorem mem_interval {r : TermRanges} {c : Condition} {term : Bytes} (hc : c.WellFormed)
    (hterm : c.type.WellFormed term) (hmeets : c.meets term = true)
    (hnarrows : r.narrowsStart = c.type.isTextual)
    (hlow : c.type.below term low = false) (hhigh : c.type.below high term = false) :
    c.type.below term (r.interval low high c).1 = false ∧
      c.type.below (r.interval low high c).2 term = false := by
  unfold interval
  cases hp : c.predicate with
  | notEq v => exact ⟨hlow, hhigh⟩
  | contains v => exact ⟨hlow, hhigh⟩
  | eq v =>
    rw [Condition.meets_eq hc hp hterm, Ordering.isEq_iff_eq_eq] at hmeets
    constructor
    · rw [ValueType.below, hmeets]
      rfl
    · rw [ValueType.below, Std.OrientedCmp.eq_comm.1 hmeets]
      rfl
  | range lower upper =>
    rw [Condition.meets_range hc hp hterm, Bool.and_eq_true] at hmeets
    constructor
    · cases lower with
      | none => exact hlow
      | some b => exact Condition.not_below_of_clears hmeets.1
    · cases upper with
      | none => exact hhigh
      | some b => exact Condition.not_below_of_keeps hmeets.2
  | startsWith start =>
    have hbytes := hc.ne_bigint hp
    dsimp only
    rw [hnarrows, if_pos (hc.textual start (.inl hp))]
    rw [Condition.meets_startsWith hp, Bytes.startsWith_iff] at hmeets
    constructor
    · apply ValueType.below_eq_false.2
      rw [ValueType.order_of_ne_bigint hbytes]
      exact Bytes.isLE_of_prefix hmeets
    · cases habove : start.successor with
      | none => exact hhigh
      | some above =>
        apply ValueType.below_eq_false.2
        dsimp only [Option.getD_some]
        rw [ValueType.order_of_ne_bigint hbytes, Bytes.lt_successor hmeets habove]
        rfl

theorem wellFormed_interval {r : TermRanges} {c : Condition}
    (hnarrows : r.narrowsStart = type.isTextual) (hc : c.Fits type) (hlow : type.WellFormed low)
    (hhigh : type.WellFormed high) :
    type.WellFormed (r.interval low high c).1 ∧ type.WellFormed (r.interval low high c).2 := by
  obtain ⟨hlower, hupper⟩ := hc
  unfold interval
  cases hp : c.predicate with
  | notEq v => exact ⟨hlow, hhigh⟩
  | contains v => exact ⟨hlow, hhigh⟩
  | eq v =>
    rw [hp] at hlower
    exact ⟨hlower _ rfl, hlower _ rfl⟩
  | range lower upper =>
    rw [hp] at hlower hupper
    constructor
    · cases lower with
      | none => exact hlow
      | some b => exact hlower b rfl
    · cases upper with
      | none => exact hhigh
      | some b => exact hupper b rfl
  | startsWith start =>
    dsimp only
    split
    next htextual =>
      -- Any bytes are well-formed text.
      have hany : ∀ b, type.WellFormed b := by
        rintro b rfl
        rw [hnarrows] at htextual
        cases htextual
      exact ⟨hany _, hany _⟩
    · exact ⟨hlow, hhigh⟩

end TermRanges

namespace SegmentSet

theorem mem_insert_of_mem {a s : Segment} {set : List Segment} (h : a ∈ set) :
    a ∈ insert s set := by
  induction set with
  | nil => exact (List.not_mem_nil h).elim
  | cons t rest ih =>
    rw [insert]
    split
    · exact List.mem_cons_of_mem s h
    · split
      · exact h
      · rcases List.mem_cons.1 h with rfl | h
        · exact List.mem_cons_self
        · exact List.mem_cons_of_mem t (ih h)

theorem exists_mem_insert (s : Segment) (set : List Segment) :
    ∃ t ∈ insert s set, t.generation = s.generation := by
  induction set with
  | nil => exact ⟨s, List.mem_singleton_self s, rfl⟩
  | cons t rest ih =>
    rw [insert]
    split
    · exact ⟨s, List.mem_cons_self, rfl⟩
    · split
      next h => exact ⟨t, List.mem_cons_self, h.symm⟩
      next =>
        obtain ⟨u, hu, hgeneration⟩ := ih
        exact ⟨u, List.mem_cons_of_mem t hu, hgeneration⟩

theorem eq_of_generation {segments : List Segment} {s t : Segment}
    (h : segments.Pairwise (·.generation < ·.generation)) (hs : s ∈ segments) (ht : t ∈ segments)
    (hgeneration : s.generation = t.generation) : s = t := by
  have hnodup : (segments.map Segment.generation).Nodup :=
    List.pairwise_map.2 (h.imp Nat.ne_of_lt)
  exact List.inj_on_of_nodup_map hnodup hs ht hgeneration

theorem mem_ofList_iff {segments : List Segment} {a : Segment}
    (h : ∀ s ∈ segments, ∀ t ∈ segments, s.generation = t.generation → s = t) :
    a ∈ ofList segments ↔ a ∈ segments := by
  refine ⟨mem_ofList, fun ha => ?_⟩
  have hfold : ∀ (rest set : List Segment), (∃ t ∈ set, t.generation = a.generation) ∨ a ∈ rest →
      ∃ t ∈ rest.foldl (fun set s => insert s set) set, t.generation = a.generation := by
    intro rest
    induction rest with
    | nil => exact fun set h => h.resolve_right List.not_mem_nil
    | cons s rest ih =>
      intro set h
      refine ih _ ?_
      rcases h with ⟨t, ht, hgeneration⟩ | h
      · exact .inl ⟨t, mem_insert_of_mem ht, hgeneration⟩
      · rcases List.mem_cons.1 h with rfl | h
        · exact .inl (exists_mem_insert a set)
        · exact .inr h
  obtain ⟨t, ht, hgeneration⟩ := hfold segments [] (.inr ha)
  rw [← h t (mem_ofList ht) a ha hgeneration]
  exact ht

end SegmentSet

namespace TermRanges

variable {type : ValueType} {segments : List Segment}

def termInterval (s : Segment) : Interval Bytes Segment := ⟨s.minTerm, s.maxTerm, s⟩

theorem terms_of_build {tree : IntervalTree Bytes Segment}
    (h : IntervalTree.build type.less (segments.map termInterval) = .ok tree) :
    ∀ s ∈ segments, type.WellFormed s.minTerm ∧ type.WellFormed s.maxTerm ∧
      type.below s.maxTerm s.minTerm = false := by
  intro s hs
  have hless := (IntervalTree.build_eq_ok.1 h).1 (termInterval s) (List.mem_map.2 ⟨s, hs, rfl⟩)
  obtain ⟨hmax, hmin, hright⟩ := ValueType.less_eq_ok.1 hless
  exact ⟨hmin, hmax, hright⟩

theorem mem_search_tree {tree : IntervalTree Bytes Segment} {low high : Bytes}
    (h : IntervalTree.build type.less (segments.map termInterval) = .ok tree)
    (hlow : type.WellFormed low) (hhigh : type.WellFormed high) :
    ∃ found, tree.search low high = .ok found ∧
      ∀ s, s ∈ found ↔ s ∈ segments ∧ s.overlapsTerms type (low, high) = true := by
  have hterms := terms_of_build h
  have hends : ∀ a ∈ IntervalTree.ends (segments.map termInterval), type.WellFormed a := by
    intro a ha
    obtain ⟨i, hi, hend⟩ := IntervalTree.mem_ends.1 ha
    obtain ⟨s, hs, rfl⟩ := List.mem_map.1 hi
    rcases hend with hend | hend <;> rw [hend]
    · exact (hterms s hs).1
    · exact (hterms s hs).2.1
  have hless : ∀ {a b}, type.WellFormed a → type.WellFormed b →
      type.less a b = .ok (IntervalTree.holds type.less a b) := by
    intro a b ha hb
    rw [ValueType.less_of_wellFormed ha hb, ValueType.holds_less ha hb]
  obtain ⟨found, hfound, hperm⟩ :=
    IntervalTree.search_perm _ _ (ValueType.weak_less type) hless hends h hlow hhigh
  refine ⟨found, hfound, fun s => ?_⟩
  rw [hperm.mem_iff, ValueType.holds_less hhigh hlow, Segment.overlapsTerms]
  dsimp only
  cases hask : type.below high low with
  | true => simp
  | false =>
    rw [if_neg Bool.false_ne_true, List.mem_map]
    have hover : ∀ s ∈ segments, IntervalTree.overlaps (IntervalTree.holds type.less) low high
        (termInterval s) = (!type.below high s.minTerm && !type.below s.maxTerm low) := by
      intro s hs
      obtain ⟨hmin, hmax, -⟩ := hterms s hs
      dsimp only [IntervalTree.overlaps, termInterval]
      rw [ValueType.holds_less hhigh hmin, ValueType.holds_less hmax hlow]
    constructor
    · intro ⟨i, hi, hdata⟩
      obtain ⟨hi, hoverlaps⟩ := List.mem_filter.1 hi
      obtain ⟨t, ht, rfl⟩ := List.mem_map.1 hi
      rw [hover t ht] at hoverlaps
      rw [← hdata]
      exact ⟨ht, hoverlaps⟩
    · intro ⟨hs, hoverlaps⟩
      refine ⟨termInterval s, List.mem_filter.2 ⟨List.mem_map.2 ⟨s, hs, rfl⟩, ?_⟩, rfl⟩
      rw [hover s hs]
      exact hoverlaps

/-- Term ranges over some segments: their bounds cover the segments, and a search gives just those
that overlap the interval of the condition. -/
theorem search_exact {r : TermRanges} {c : Condition} (hbuild : build type segments = .ok r)
    (hrising : segments.Pairwise (·.generation < ·.generation)) (hsome : segments ≠ [])
    (hc : c.Fits type) :
    ∃ low high found, r.bounds = some (low, high) ∧ Bounds type low high segments ∧
      r.search c = .ok found ∧ found.Pairwise (·.generation < ·.generation) ∧
      ∀ s, s ∈ found ↔ s ∈ segments ∧ s.overlapsTerms type (r.interval low high c) = true := by
  obtain ⟨bounds, hbounds, hbuild⟩ := bind_eq_ok.1 hbuild
  obtain ⟨tree, htree, hbuild⟩ := bind_eq_ok.1 hbuild
  cases hbuild
  replace htree : IntervalTree.build type.less (segments.map termInterval) = .ok tree := htree
  have hterms := terms_of_build htree
  obtain ⟨low, high, hbounds', hcover⟩ :=
    boundsOf_none (fun s hs => ⟨(hterms s hs).1, (hterms s hs).2.1⟩) hsome
  rw [hbounds] at hbounds'
  cases hbounds'
  generalize hr : (⟨type, type.isTextual, some (low, high), tree⟩ : TermRanges) = r
  have hasked := wellFormed_interval (r := r) (by rw [← hr]) hc hcover.sound.1 hcover.sound.2
  obtain ⟨found, hfound, hmem⟩ := mem_search_tree htree hasked.1 hasked.2
  have hnonempty : tree.isEmpty = false := by
    obtain ⟨-, htree⟩ := IntervalTree.build_eq_ok.1 htree
    have hlength := List.length_pos_iff.2 hsome
    rw [htree, IntervalTree.isEmpty, List.length_map]
    exact decide_eq_false (Nat.ne_of_gt hlength)
  have hsearch : r.search c = .ok (SegmentSet.ofList found) := by
    rw [← hr] at hfound ⊢
    rw [search]
    dsimp only
    rw [hnonempty, if_neg Bool.false_ne_true, hfound]
    rfl
  refine ⟨low, high, SegmentSet.ofList found, by rw [← hr], hcover, hsearch,
    SegmentSet.pairwise_ofList found, fun s => ?_⟩
  rw [SegmentSet.mem_ofList_iff, hmem]
  intro s hs t ht hgeneration
  exact SegmentSet.eq_of_generation hrising ((hmem s).1 hs).1 ((hmem t).1 ht).1 hgeneration

end TermRanges

namespace Snapshot

variable {type : ValueType} {segments : List Segment} {v : Snapshot} {e : Engine} {c : Condition}

theorem weak_keyLess : IntervalTree.Weak (IntervalTree.holds keyLess) fun _ => True where
  asymm {a b} _ _ hab := by
    have hab' : a < b := of_decide_eq_true hab
    exact decide_eq_false (Int.lt_asymm hab')
  cotrans {a b c} _ _ _ hac := by
    have hac' : a < c := of_decide_eq_true hac
    by_cases hab : a < b
    · exact .inl (decide_eq_true hab)
    · exact .inr (decide_eq_true (Int.lt_of_le_of_lt (Int.not_lt.1 hab) hac'))

theorem overlapping_perm (h : keyRanges segments = .ok v.keys) (low high : Token) :
    (v.overlapping low high).Perm
      (if high < low then [] else segments.filter (Segment.overlapsKeys · low high)) := by
  obtain ⟨found, hfound, hperm⟩ := IntervalTree.search_perm low high weak_keyLess (fun _ _ => rfl)
    (fun _ _ => trivial) h trivial trivial
  rw [overlapping, hfound]
  refine hperm.trans (.of_eq ?_)
  have hholds : ∀ a b : Token, IntervalTree.holds keyLess a b = decide (a < b) := fun _ _ => rfl
  by_cases hask : high < low
  · rw [hholds, decide_eq_true hask, if_pos rfl, if_pos hask]
  · rw [hholds, decide_eq_false hask, if_neg Bool.false_ne_true, if_neg hask, List.filter_map,
      List.map_map]
    have hdata : (Interval.data ∘
        fun s : Segment => (⟨s.minKey, s.maxKey, s⟩ : Interval Token Segment)) = id := rfl
    rw [hdata, List.map_id]
    refine List.filter_congr fun s _ => ?_
    change
      (!IntervalTree.holds keyLess high s.minKey && !IntervalTree.holds keyLess s.maxKey low) = _
    rw [hholds, hholds, Segment.overlapsKeys]
    simp only [← decide_not, Int.not_lt]

/-- Candidates of a snapshot that was built are its segments in scope whose terms overlap the
interval of the condition. -/
theorem candidates_exact (h : build type segments TermRanges.build = .ok v)
    (hrising : segments.Pairwise (·.generation < ·.generation)) (hsome : segments ≠ [])
    (scope : List DataFile) (htype : c.type = type) (hc : c.WellFormed) :
    ∃ least greatest found, v.terms.bounds = some (least, greatest) ∧
      TermRanges.Bounds type least greatest segments ∧ v.candidates scope c = .ok found ∧
      ∀ s, s ∈ found ↔ s ∈ segments ∧ s.file ∈ scope ∧
        s.overlapsTerms type (v.terms.interval least greatest c) = true := by
  obtain ⟨-, -, -, hterms, -⟩ := built_of_build h
  obtain ⟨least, greatest, found, hbounds, hcover, hfound, -, hmem⟩ :=
    TermRanges.search_exact hterms hrising hsome (htype ▸ hc.fits)
  refine ⟨least, greatest, found.filter (·.file ∈ scope), hbounds, hcover, ?_, fun s => ?_⟩
  · rw [candidates, hfound]
    rfl
  · rw [List.mem_filter, hmem, decide_eq_true_eq, and_assoc]
    exact and_congr_right fun _ => and_comm

theorem narrowsStart_of_build (h : build type segments TermRanges.build = .ok v) :
    v.terms.narrowsStart = type.isTextual := by
  obtain ⟨-, -, -, hterms, -⟩ := built_of_build h
  obtain ⟨_, -, hterms⟩ := bind_eq_ok.1 hterms
  obtain ⟨_, -, hterms⟩ := bind_eq_ok.1 hterms
  rw [← Except.ok.inj hterms]

/-- A segment over postings overlaps the interval of a condition that one of its terms meets. -/
theorem overlaps_of_meets {s : Segment} {p : Postings} {least greatest : Bytes} {entry : Entry}
    (h : build type segments TermRanges.build = .ok v)
    (hcover : TermRanges.Bounds type least greatest segments) (hs : s ∈ segments)
    (hspans : s.Spans p) (hrising : Postings.Rising type p.entries)
    (hsound : Postings.Sound type p.entries) (htype : c.type = type) (hc : c.WellFormed)
    (hentry : entry ∈ p.entries) (hmeets : c.meets entry.term = true) :
    s.overlapsTerms type (v.terms.interval least greatest c) = true := by
  have hweak := ValueType.weak_below type
  have hbetween := hspans.term_mem hrising hentry
  have hlow := hweak.not_before_trans trivial trivial trivial hbetween.1 (hcover.above s hs)
  have hhigh := hweak.not_before_trans trivial trivial trivial (hcover.beneath s hs) hbetween.2
  subst htype
  exact Segment.overlapsTerms_of_mem (TermRanges.mem_interval hc (hsound entry hentry) hmeets
    (narrowsStart_of_build h) hlow hhigh) hbetween

theorem terms_of_build (h : build type segments TermRanges.build = .ok v) :
    ∀ s ∈ segments, type.WellFormed s.minTerm ∧ type.below s.maxTerm s.minTerm = false := by
  obtain ⟨-, -, -, hterms, -⟩ := built_of_build h
  obtain ⟨_, -, hterms⟩ := bind_eq_ok.1 hterms
  obtain ⟨tree, htree, -⟩ := bind_eq_ok.1 hterms
  intro s hs
  obtain ⟨hmin, -, hright⟩ := TermRanges.terms_of_build htree s hs
  exact ⟨hmin, hright⟩

theorem sound_of_spans {s : Segment} {p : Postings}
    (h : build type segments TermRanges.build = .ok v) (hs : s ∈ segments)
    (hspans : s.Spans p) (hrising : Postings.Rising type p.entries) :
    Postings.Sound type p.entries := by
  refine Postings.sound_of_head hrising fun first hfirst => ?_
  have hmin := hspans.minTerm
  rw [Postings.minTerm, hfirst] at hmin
  rw [Option.some.inj hmin]
  exact (terms_of_build h s hs).1

theorem segments_of_update {current added : List Segment} {dropped : List DataFile}
    {indexing : TermIndexing} {e' : Engine}
    (h : update type current dropped added indexing e = (.ok v, e')) :
    ∃ segments, build type segments indexing = .ok v ∧
      segments.Pairwise (·.generation < ·.generation) ∧ ∀ s ∈ segments, s ∈ current ++ added := by
  have hbuilt : Ensures (update type current dropped added indexing) e fun r _ => r = .ok v →
      build type (select (Snapshot.leaves e dropped) (current ++ added)).kept indexing = .ok v := by
    rw [ensures_update_iff rfl]
    cases build type (select (Snapshot.leaves e dropped) (current ++ added)).kept indexing with
    | error f => exact nofun
    | ok v' => exact id
  refine ⟨_, hbuilt (by rw [h]), pairwise_select _ _, fun s hs => ?_⟩
  exact (perm_select _ _).subset (List.mem_append_left _ hs)

/-- Pruning by terms. Whatever segment in scope holds a match is searched, none out of scope is, and
of those in scope just the ones whose terms overlap the interval of the condition: all of them for a
condition without such an interval. Pruning by keys gives just the segments that share a token. -/
theorem pruning_exact (current : List Segment) (dropped : List DataFile) (added : List Segment)
    {e' : Engine} (hupdate : update type current dropped added TermRanges.build e = (.ok v, e'))
    (hopened : ∀ s ∈ current ++ added, ∃ p, s.OpenedOver e type p) (scope : List DataFile)
    (htype : c.type = type) (hc : c.WellFormed) (low high : Token) :
    (∃ found, v.candidates scope c = .ok found ∧
      (∀ s ∈ v.segments, s.file ∈ scope → (∃ id, (s.search c e).1 = .ok (some id)) → s ∈ found) ∧
      (∀ s ∈ found, s ∈ v.segments ∧ s.file ∈ scope) ∧
      match c.predicate with
      | .notEq _ | .contains _ => ∀ s ∈ v.segments, s.file ∈ scope → s ∈ found
      | _ => ∀ s ∈ found, ∃ least greatest, v.terms.bounds = some (least, greatest) ∧
          s.overlapsTerms type (v.terms.interval least greatest c) = true) ∧
    (v.overlapping low high).Perm
      (if high < low then [] else v.segments.filter (Segment.overlapsKeys · low high)) := by
  obtain ⟨segments, hbuild, hrising, hmem⟩ := segments_of_update hupdate
  obtain ⟨hsegments, -, -, hterms, hkeys⟩ := built_of_build hbuild
  rw [hsegments]
  refine ⟨?_, overlapping_perm hkeys low high⟩
  -- Without segments there are no bounds to give an interval.
  by_cases hsome : segments = []
  · subst hsome
    have hempty : v.terms = .empty type := (Except.ok.inj hterms).symm
    refine ⟨[], ?_, fun s hs => (List.not_mem_nil hs).elim,
      fun s hs => (List.not_mem_nil hs).elim, ?_⟩
    · rw [candidates, TermRanges.search, hempty]
      rfl
    · split <;> exact fun s hs => (List.not_mem_nil hs).elim
  obtain ⟨least, greatest, found, hbounds, hcover, hfound, hexact⟩ :=
    candidates_exact hbuild hrising hsome scope htype hc
  have hsorted : ∀ s ∈ segments, ∀ p, s.OpenedOver e type p → Postings.Rising type p.entries := by
    intro s _ p hp
    obtain ⟨⟨pairs, hp⟩, -⟩ := hp
    obtain ⟨hsorted, hp⟩ := Postings.sorted_addAll (Postings.sorted_empty type) hp
    replace hp : p.type = type := hp
    exact hp ▸ hsorted.rising
  refine ⟨found, hfound, ?_, fun s hs => ?_, ?_⟩
  · rintro s hs hscope ⟨id, hsearch⟩
    obtain ⟨p, hp⟩ := hopened s (hmem s hs)
    have hpRising := hsorted s hs p hp
    have hsound := sound_of_spans hbuild hs hp.2.1 hpRising
    obtain ⟨entry, hentry, hmeets⟩ := Segment.meets_of_search hp hsound htype hc hsearch
    exact (hexact s).2 ⟨hs, hscope,
      overlaps_of_meets hbuild hcover hs hp.2.1 hpRising hsound htype hc hentry hmeets⟩
  · exact ⟨((hexact s).1 hs).1, ((hexact s).1 hs).2.1⟩
  · -- A condition without an interval of its own asks for all terms.
    have hall : v.terms.interval least greatest c = (least, greatest) →
        ∀ s ∈ segments, s.file ∈ scope → s ∈ found := by
      intro hinterval s hs hscope
      have hright := (terms_of_build hbuild s hs).2
      have hweak := ValueType.weak_below type
      have hmin := hweak.irrefl (a := s.minTerm) trivial
      have hhigh := hweak.not_before_trans trivial trivial trivial (hcover.beneath s hs) hright
      refine (hexact s).2 ⟨hs, hscope, ?_⟩
      rw [hinterval]
      exact Segment.overlapsTerms_of_mem ⟨hcover.above s hs, hhigh⟩ ⟨hmin, hright⟩
    split
    next v hp => exact hall (by rw [TermRanges.interval, hp])
    next v hp => exact hall (by rw [TermRanges.interval, hp])
    · exact fun s hs => ⟨least, greatest, hbounds, ((hexact s).1 hs).2.2⟩

-- A segment over the terms `ab` and `b`, and one over the term `c`, asked for the rows whose value
-- starts with `a`.
def wordPostings : Postings :=
  { type := .text, entries := [⟨[97, 98], [3]⟩, ⟨[98], [5]⟩] }

def wordSegment : Segment := ⟨0, ⟨0, 1, "a", 0, 9⟩, 3, 5, [97, 98], [98]⟩

def laterPostings : Postings := { type := .text, entries := [⟨[99], [7]⟩] }

def laterSegment : Segment := ⟨1, ⟨1, 2, "b", 0, 9⟩, 7, 7, [99], [99]⟩

def wordEngine : Engine where
  files := #[{ refs := 2 }, { refs := 2 }]
  segments := #[{ reader := .ofPostings wordPostings, refs := 1 },
    { reader := .ofPostings laterPostings, refs := 1 }]

def startsWithA : Condition := ⟨"word", .text, some 0, .startsWith [97]⟩

theorem wordSegment_candidate :
    ∃ v e' found, update .text [] [] [wordSegment, laterSegment] TermRanges.build wordEngine =
        (.ok v, e') ∧ v.segments = [wordSegment, laterSegment] ∧
      v.candidates [wordSegment.file, laterSegment.file] startsWithA = .ok found ∧
      wordSegment ∈ found ∧ laterSegment ∉ found := by
  have hopened : ∀ s ∈ [wordSegment, laterSegment], ∃ p, s.OpenedOver wordEngine .text p := by
    refine List.forall_mem_cons.2 ⟨⟨wordPostings, ?_⟩, List.forall_mem_singleton.2
      ⟨laterPostings, ?_⟩⟩
    · exact ⟨⟨[([98], 5), ([97, 98], 3)], by decide +kernel⟩,
        ⟨by decide +kernel, by decide +kernel, by decide +kernel, by decide +kernel⟩,
        ⟨.ofPostings wordPostings, 1⟩, rfl, rfl⟩
    · exact ⟨⟨[([99], 7)], by decide +kernel⟩,
        ⟨by decide +kernel, by decide +kernel, by decide +kernel, by decide +kernel⟩,
        ⟨.ofPostings laterPostings, 1⟩, rfl, rfl⟩
  have hc : startsWithA.WellFormed :=
    ⟨fun _ _ h => (by cases h), fun _ h => (by cases h), fun _ _ => rfl⟩
  obtain ⟨v, e', hupdate⟩ : ∃ v e', update .text [] [] [wordSegment, laterSegment]
      TermRanges.build wordEngine = (.ok v, e') := ⟨_, _, rfl⟩
  obtain ⟨⟨found, hfound, hcomplete, -, hoverlap⟩, -⟩ := pruning_exact [] []
    [wordSegment, laterSegment] hupdate hopened [wordSegment.file, laterSegment.file] rfl hc 0 9
  have hsegments : v.segments = [wordSegment, laterSegment] := by
    have h : (update .text [] [] [wordSegment, laterSegment] TermRanges.build
        wordEngine).1.toOption.map Snapshot.segments = some [wordSegment, laterSegment] := by
      decide +kernel
    rw [hupdate] at h
    exact Option.some.inj h
  have hbeyond : v.terms.bounds.all (fun b => !laterSegment.overlapsTerms .text
      (v.terms.interval b.1 b.2 startsWithA)) = true := by
    have h : (update .text [] [] [wordSegment, laterSegment] TermRanges.build
        wordEngine).1.toOption.all (fun v => v.terms.bounds.all fun b =>
          !laterSegment.overlapsTerms .text (v.terms.interval b.1 b.2 startsWithA)) =
            true := by decide +kernel
    rw [hupdate] at h
    exact h
  have hsearch : (wordSegment.search startsWithA wordEngine).1 = .ok (some 0) := by decide +kernel
  refine ⟨v, e', found, hupdate, hsegments, hfound, ?_, fun hmem => ?_⟩
  · exact hcomplete wordSegment (by rw [hsegments]; decide) (by decide) ⟨0, hsearch⟩
  · obtain ⟨least, greatest, hbounds, hoverlaps⟩ := hoverlap laterSegment hmem
    rw [hbounds, Option.all_some, hoverlaps] at hbeyond
    cases hbeyond

end Snapshot
end SecondaryIndex
