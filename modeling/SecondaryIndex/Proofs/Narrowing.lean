import SecondaryIndex.Proofs.Scanning

namespace SecondaryIndex

namespace Snapshot

variable {v : Snapshot} {s : Segment} {c : Condition}

/-- No segment of a snapshot ends before it begins. -/
theorem minKey_le_maxKey (h : v.Built) (hs : s ∈ v.segments) : s.minKey ≤ s.maxKey := by
  obtain ⟨-, -, -, -, hkeys⟩ := built_of_build h
  have hright : keyLess s.maxKey s.minKey = .ok false :=
    (IntervalTree.build_eq_ok.1 hkeys).1 _ (List.mem_map_of_mem hs)
  have hlt : ¬ s.maxKey < s.minKey := of_decide_eq_false (Except.ok.inj hright)
  exact Int.not_lt.1 hlt

theorem mem_overlapping_iff (h : v.Built) {low high : Token} (hle : low ≤ high) :
    s ∈ v.overlapping low high ↔ s ∈ v.segments ∧ s.minKey ≤ high ∧ low ≤ s.maxKey := by
  obtain ⟨-, -, -, -, hkeys⟩ := built_of_build h
  rw [(overlapping_perm hkeys low high).mem_iff, if_neg (Int.not_lt.2 hle), List.mem_filter,
    Segment.overlapsKeys, Bool.and_eq_true, decide_eq_true_eq, decide_eq_true_eq]

theorem candidates_total (h : v.Built)
    (hrising : v.segments.Pairwise (·.generation < ·.generation)) (scope : List DataFile)
    (hc : c.Fits v.type) : ∃ found, v.candidates scope c = .ok found := by
  by_cases hsome : v.segments = []
  · rw [eq_empty_of_nil h hsome]
    exact ⟨[], rfl⟩
  · obtain ⟨-, -, -, hterms, -⟩ := built_of_build h
    obtain ⟨_, _, found, -, -, hfound, -⟩ := TermRanges.search_exact hterms hrising hsome hc
    refine ⟨found.filter (·.file ∈ scope), ?_⟩
    rw [candidates, hfound]
    rfl

end Snapshot

/-- A condition that carries an index, with bounds that are values of the index. -/
def Condition.Served (e : Engine) (c : Condition) : Prop :=
  ∃ i index, c.index = some i ∧ e.indexes[i]? = some index ∧ c.Fits index.type

def Condition.readIn (group : Group) (c : Condition) : Condition :=
  { c with index := group.indexOn c.column }

theorem Condition.readIn_of_aligned {group : Group} (hgroup : group.Aligned) {c : Condition}
    (hc : c ∈ group) (heligible : c.eligible) : c.readIn group = c := by
  rw [readIn, hgroup.indexOn_eq hc heligible]

namespace Candidate

variable {e : Engine} {scope : List DataFile} {group : Group} {c : Condition}

/-- The segments in scope that the index of a condition singles out. -/
def own (e : Engine) (scope : List DataFile) (c : Condition) : Except Fault (List Segment) :=
  match c.index.bind (e.indexes[·]?) with
  | none => .ok []
  | some index => index.snapshot.candidates scope c

theorem direct_eq (e : Engine) (scope : List DataFile) (group : Group) (c : Condition) :
    direct e scope group c = return ⟨c, ← own e scope (c.readIn group)⟩ := by
  rw [direct, own, snapshotFor_eq_indexOn, Condition.readIn]
  cases (group.indexOn c.column).bind (e.indexes[·]?) <;> rfl

theorem direct_eq_own (hgroup : group.Aligned) (hc : c ∈ group) (heligible : c.eligible) :
    direct e scope group c = return ⟨c, ← own e scope c⟩ := by
  rw [direct_eq, Condition.readIn_of_aligned hgroup hc heligible]

theorem own_total (he : e.Each ColumnIndex.Orderly) (hc : c.Served e) (scope : List DataFile) :
    ∃ segments, own e scope c = .ok segments := by
  obtain ⟨i, index, hi, hindex, hfits⟩ := hc
  have horderly := he i index hindex
  rw [← horderly.snapshot_type] at hfits
  rw [own, hi, Option.bind_some, hindex]
  exact Snapshot.candidates_total horderly.built horderly.sorted scope hfits

/-- The first of some conditions with the fewest segments of its own, if there are any. -/
def Leads (e : Engine) (scope : List DataFile) (cs : List Condition) : Option Candidate → Prop
  | none => cs = []
  | some p => own e scope p.condition = .ok p.segments ∧
      ∃ before after, cs = before ++ p.condition :: after ∧
        (∀ c ∈ before, ∀ segments, own e scope c = .ok segments →
          p.segments.length < segments.length) ∧
        ∀ c ∈ after, ∀ segments, own e scope c = .ok segments →
          p.segments.length ≤ segments.length

theorem Leads.own_leading {p : Candidate}
    (h : Leads e scope (group.filter Condition.eligible) (some p)) :
    p.condition ∈ group ∧ own e scope p.condition = .ok p.segments := by
  obtain ⟨hown, before, after, hsplit, -⟩ := h
  refine ⟨?_, hown⟩
  apply List.mem_of_mem_filter
  rw [hsplit]
  exact List.mem_append_right _ List.mem_cons_self

/-- One more condition takes the lead if it has fewer segments. -/
theorem Leads.better {cs : List Condition} {best : Option Candidate} {segments : List Segment}
    (h : Leads e scope cs best) (hown : own e scope c = .ok segments) :
    Leads e scope (cs ++ [c]) (some (Candidate.better best ⟨c, segments⟩)) := by
  cases best with
  | none =>
    have hnil : cs = [] := h
    rw [hnil]
    exact ⟨hown, [], [], rfl, nofun, nofun⟩
  | some p =>
    obtain ⟨hp, before, after, rfl, hbefore, hafter⟩ := h
    unfold Candidate.better
    dsimp only
    split
    next hfewer =>
      refine ⟨hown, before ++ p.condition :: after, [], rfl, ?_, nofun⟩
      intro c' hc' segments' hsegments'
      have hle : p.segments.length ≤ segments'.length := by
        rcases List.mem_append.1 hc' with hc' | hc'
        · exact Nat.le_of_lt (hbefore c' hc' segments' hsegments')
        rcases List.mem_cons.1 hc' with rfl | hc'
        · rw [hp] at hsegments'
          rw [Except.ok.inj hsegments']
        · exact hafter c' hc' segments' hsegments'
      exact Nat.lt_of_lt_of_le hfewer hle
    next hnot =>
      refine ⟨hp, before, after ++ [c], List.append_assoc _ _ _, hbefore, ?_⟩
      refine List.forall_mem_append.2 ⟨hafter, List.forall_mem_singleton.2 ?_⟩
      intro segments' hsegments'
      rw [hown] at hsegments'
      rw [← Except.ok.inj hsegments']
      exact Nat.not_lt.1 hnot

theorem Leads.primaryOf {seen cs : List Condition} {best : Option Candidate}
    (h : Leads e scope seen best) (hcs : ∀ c ∈ cs, ∃ segments,
      own e scope c = .ok segments ∧ direct e scope group c = .ok ⟨c, segments⟩) :
    ∃ p, Candidate.primaryOf e scope group best cs = .ok p ∧ Leads e scope (seen ++ cs) p := by
  induction cs generalizing seen best with
  | nil => exact ⟨best, rfl, (List.append_nil seen).symm ▸ h⟩
  | cons c rest ih =>
    obtain ⟨⟨segments, hown, hdirect⟩, hrest⟩ := List.forall_mem_cons.1 hcs
    obtain ⟨p, hp, hleads⟩ := ih (h.better hown) hrest
    refine ⟨p, bind_eq_ok.2 ⟨_, hdirect, hp⟩, ?_⟩
    rwa [List.append_assoc] at hleads

/-- The segments in scope that a condition sees and whose keys overlap one of the given segments. -/
structure Touches (e : Engine) (scope : List DataFile) (given : List Segment) (d : Candidate) :
    Prop where
  rising : d.segments.Pairwise (·.generation < ·.generation)
  mem_iff : ∀ s, s ∈ d.segments ↔ s ∈ e.viewed d.condition ∧ s.file ∈ scope ∧
    ∃ q ∈ given, s.minKey ≤ q.maxKey ∧ q.minKey ≤ s.maxKey

theorem touches_narrowed (he : e.Each ColumnIndex.Orderly) (hc : c.Served e)
    (hgroup : group.Aligned) (hmem : c ∈ group) (heligible : c.eligible) {given : List Segment}
    (hgiven : ∀ q ∈ given, q.minKey ≤ q.maxKey) :
    (narrowed e scope group given c).condition = c ∧
      Touches e scope given (narrowed e scope group given c) := by
  obtain ⟨i, index, hi, hindex, -⟩ := hc
  obtain ⟨hbuilt, hsorted, -, -⟩ := he i index hindex
  have hviewed : e.viewed c = index.snapshot.segments := Engine.viewed_eq hi hindex
  rw [narrowed, snapshotFor_eq_indexOn, hgroup.indexOn_eq hmem heligible, hi, Option.bind_some,
    hindex, Option.map_some]
  refine ⟨rfl, SegmentSet.pairwise_ofList _, fun s => ?_⟩
  have hoverlapping : ∀ s q, q ∈ given → (s ∈ index.snapshot.overlapping q.minKey q.maxKey ↔
      s ∈ e.viewed c ∧ s.minKey ≤ q.maxKey ∧ q.minKey ≤ s.maxKey) := by
    intro s q hq
    rw [hviewed]
    exact Snapshot.mem_overlapping_iff hbuilt (hgiven q hq)
  -- All segments come from one snapshot, so the set leaves none of them out.
  rw [SegmentSet.mem_ofList_iff, List.mem_flatMap]
  · simp only [List.mem_filter, decide_eq_true_eq]
    constructor
    · rintro ⟨q, hq, hs, hscope⟩
      obtain ⟨hs, hkeys⟩ := (hoverlapping s q hq).1 hs
      exact ⟨hs, hscope, q, hq, hkeys⟩
    · rintro ⟨hs, hscope, q, hq, hkeys⟩
      exact ⟨q, hq, (hoverlapping s q hq).2 ⟨hs, hkeys⟩, hscope⟩
  · have hfrom : ∀ s, s ∈ given.flatMap (fun q =>
        (index.snapshot.overlapping q.minKey q.maxKey).filter (·.file ∈ scope)) →
          s ∈ index.snapshot.segments := by
      intro s hs
      obtain ⟨q, -, hs⟩ := List.mem_flatMap.1 hs
      exact Snapshot.mem_of_mem_overlapping hbuilt (List.mem_of_mem_filter hs)
    intro s hs t ht hgeneration
    exact SegmentSet.eq_of_generation hsorted (hfrom s hs) (hfrom t ht) hgeneration

/-- What the candidate of a condition holds beside the leading one. -/
structure Follows (e : Engine) (scope : List DataFile) (d p : Candidate) : Prop where
  unnarrowed : p.segments = [] → own e scope d.condition = .ok d.segments
  leading : p.segments ≠ [] → p.condition.same d.condition → d.segments = p.segments
  narrowed : p.segments ≠ [] → ¬ p.condition.same d.condition → d.Touches e scope p.segments

/-- What the index of a condition singles out are segments that the condition sees. -/
theorem mem_own (he : e.Each ColumnIndex.Orderly) {segments : List Segment}
    (h : own e scope c = .ok segments) {s : Segment} (hs : s ∈ segments) :
    s ∈ e.viewed c ∧ s.minKey ≤ s.maxKey := by
  rw [own] at h
  rw [Engine.viewed]
  cases hindex : c.index.bind (e.indexes[·]?) with
  | none =>
    rw [hindex] at h
    cases h
    cases hs
  | some index =>
    rw [hindex] at h
    obtain ⟨i, -, hi⟩ := Option.bind_eq_some_iff.1 hindex
    have hbuilt := (he i index hi).built
    have hmem := ((Snapshot.mem_candidates hbuilt h).2 s hs).1
    exact ⟨hmem, Snapshot.minKey_le_maxKey hbuilt hmem⟩

theorem beside_some (e : Engine) (scope : List DataFile) (group : Group) (p : Candidate)
    (c : Condition) : beside e scope group (some p) c =
      if p.segments.isEmpty then direct e scope group c
      else if p.condition.same c then .ok ⟨c, p.segments⟩
      else .ok (narrowed e scope group p.segments c) := rfl

theorem follows_beside (he : e.Each ColumnIndex.Orderly) (hc : c.Served e)
    (hgroup : group.Aligned) (hmem : c ∈ group) (heligible : c.eligible) {p : Candidate}
    (hp : own e scope p.condition = .ok p.segments) :
    ∃ d, beside e scope group (some p) c = .ok d ∧ d.condition = c ∧ d.Follows e scope p := by
  rw [beside_some]
  by_cases hnone : p.segments = []
  · obtain ⟨segments, hown⟩ := own_total he hc scope
    refine ⟨⟨c, segments⟩, ?_, rfl, fun _ => hown, absurd hnone, absurd hnone⟩
    rw [if_pos (List.isEmpty_iff.2 hnone), direct_eq_own hgroup hmem heligible, hown]
    rfl
  · rw [if_neg (mt List.isEmpty_iff.1 hnone)]
    by_cases hsame : p.condition.same c
    · rw [if_pos hsame]
      exact ⟨_, rfl, rfl, fun h => absurd h hnone, fun _ _ => rfl, fun _ h => absurd hsame h⟩
    · rw [if_neg hsame]
      obtain ⟨hcondition, htouches⟩ := touches_narrowed he hc hgroup hmem heligible
        fun q hq => (mem_own he hp hq).2
      refine ⟨_, rfl, hcondition, fun h => absurd h hnone, fun _ h => ?_, fun _ _ => htouches⟩
      rw [hcondition] at h
      exact absurd h hsame

/-- The candidates of a conjunction and the one that leads them. -/
structure Conjoined (e : Engine) (scope : List DataFile) (group : Group)
    (primary : Option Candidate) (ds : List Candidate) : Prop where
  matched : ∀ c ∈ group, c.eligible → ∃ segments, own e scope c = .ok segments
  leads : Leads e scope (group.filter Condition.eligible) primary
  conditions : ds.map condition = (group.filter Condition.eligible).eraseDupsBy Condition.same
  follow : ∀ p ∈ primary, ∀ d ∈ ds, d.Follows e scope p

/-- The keys of the segments that a group sees cover what searches find in them. -/
def Covered (e : Engine) (group : Group) : Prop :=
  ∀ c ∈ group, ∀ s ∈ e.viewed c, ∀ t ∈ e.stored c s, s.minKey ≤ t ∧ t ≤ s.maxKey

/-- No other candidate leaves out a segment in scope with a row that is in a segment of the leading
one. -/
def Complete (e : Engine) (scope : List DataFile) (primary : Option Candidate)
    (ds : List Candidate) : Prop :=
  ∀ p ∈ primary, ∀ q ∈ p.segments, ∀ t ∈ e.stored p.condition q,
    ∀ d ∈ ds, ¬ p.condition.same d.condition →
      ∀ s ∈ e.viewed d.condition, s.file ∈ scope → t ∈ e.stored d.condition s → s ∈ d.segments

theorem Conjoined.complete {primary : Option Candidate} {ds : List Candidate}
    (h : Conjoined e scope group primary ds) (he : e.Each ColumnIndex.Orderly)
    (hds : ∀ d ∈ ds, d.condition ∈ group) (hcovered : Covered e group) :
    Complete e scope primary ds := by
  intro p hp q hq t ht d hd hother s hs hscope ht'
  have hleads := h.leads
  rw [Option.mem_def.1 hp] at hleads
  obtain ⟨hpmem, hown⟩ := hleads.own_leading
  have hqs := hcovered p.condition hpmem q (mem_own he hown hq).1 t ht
  have hss := hcovered d.condition (hds d hd) s hs t ht'
  -- The row itself is what the keys of the two segments have in common.
  have hkeys : s.minKey ≤ q.maxKey ∧ q.minKey ≤ s.maxKey :=
    ⟨Int.le_trans hss.1 hqs.2, Int.le_trans hqs.1 hss.2⟩
  have htouches := (h.follow p hp d hd).narrowed (List.ne_nil_of_mem hq) hother
  exact (htouches.mem_iff s).2 ⟨hs, hscope, q, hq, hkeys⟩

/-- A conjunction whose eligible conditions are served has its candidates. -/
theorem exists_conjoined (he : e.Each ColumnIndex.Orderly) (scope : List DataFile)
    (hserved : ∀ c ∈ group, c.eligible → c.Served e) (hgroup : group.Aligned) :
    ∃ primary ds, Candidate.primary e scope group = .ok primary ∧
      ofGroup e scope .and group = .ok ds ∧ Conjoined e scope group primary ds := by
  have hmatched : ∀ c ∈ group, c.eligible → ∃ segments, own e scope c = .ok segments :=
    fun c hc heligible => own_total he (hserved c hc heligible) scope
  have hdirect : ∀ c ∈ group.filter Condition.eligible, ∃ segments,
      own e scope c = .ok segments ∧ direct e scope group c = .ok ⟨c, segments⟩ := by
    intro c hc
    obtain ⟨hc, heligible⟩ := List.mem_filter.1 hc
    obtain ⟨segments, hown⟩ := hmatched c hc heligible
    refine ⟨segments, hown, ?_⟩
    rw [direct_eq_own hgroup hc heligible, hown]
    rfl
  have hstart : Leads e scope [] none := rfl
  obtain ⟨primary, hprimary, hleads⟩ := hstart.primaryOf hdirect
  rw [List.nil_append] at hleads
  have hmem : ∀ c ∈ group.eligible, c ∈ group ∧ c.eligible := (Group.stand_eligible group).mem
  have hbeside : ∀ c ∈ group.eligible, ∃ d, beside e scope group primary c = .ok d ∧
      ∀ p ∈ primary, d.Follows e scope p := by
    intro c hc
    obtain ⟨hc, heligible⟩ := hmem c hc
    cases primary with
    | none =>
      obtain ⟨segments, -, hsegments⟩ := hdirect c (List.mem_filter.2 ⟨hc, heligible⟩)
      exact ⟨_, hsegments, nofun⟩
    | some p =>
      obtain ⟨d, hd, -, hfollows⟩ :=
        follows_beside he (hserved c hc heligible) hgroup hc heligible hleads.1
      refine ⟨d, hd, ?_⟩
      rintro _ ⟨⟩
      exact hfollows
  obtain ⟨ds, hds, hfollow⟩ := allBeside_ok hbeside
  have hofGroup : ofGroup e scope .and group = .ok ds := bind_eq_ok.2 ⟨primary, hprimary, hds⟩
  have hindexed : e.Indexed := fun i index hi => (he i index hi).built
  have hconditions := (drawn_ofGroup hindexed hofGroup).1
  refine ⟨primary, ds, hprimary, hofGroup, hmatched, hleads,
    hconditions.trans group.eligible_eq, fun p hp d hd => ?_⟩
  obtain ⟨c, -, hd⟩ := exists_left hfollow d hd
  exact hd p hp

/-- The candidates of a conjunction. The leading one is the first with the fewest segments; there is
one for each eligible condition, in order; the others are narrowed to the segments that share a
token with the leading ones, unless there are none, and so miss no row of both. -/
theorem conjoined_ofGroup (h : Reachable e) (scope : List DataFile)
    (hserved : ∀ c ∈ group, c.eligible → c.Served e) (hgroup : group.Aligned) :
    ∃ primary ds, Candidate.primary e scope group = .ok primary ∧
      ofGroup e scope .and group = .ok ds ∧ Conjoined e scope group primary ds ∧
        (Covered e group → Complete e scope primary ds) := by
  obtain ⟨primary, ds, hprimary, hds, hconjoined⟩ :=
    exists_conjoined h.orderly scope hserved hgroup
  refine ⟨primary, ds, hprimary, hds, hconjoined, hconjoined.complete h.orderly fun d hd => ?_⟩
  have hconditions := (drawn_ofGroup h.indexed hds).1
  have hd : d.condition ∈ group.eligible := hconditions ▸ List.mem_map_of_mem hd
  exact ((Group.stand_eligible group).mem _ hd).1

-- Two columns over two files. The leading segment ends the first segment of the other column at
-- one row, and lies apart from the second.
def firstFile : DataFile := ⟨0, 1, "f", 0, 5⟩

def secondFile : DataFile := ⟨1, 2, "g", 6, 9⟩

/-- A row of the first column, and three of the second. -/
def xPostings : Postings := { type := .text, entries := [⟨[120], [3]⟩] }

def yPostings (tokens : List Token) : Postings := { type := .text, entries := [⟨[121], tokens⟩] }

def xSegment : Segment := ⟨0, firstFile, 3, 3, [120], [120]⟩

def ySegment : Segment := ⟨1, firstFile, 1, 3, [121], [121]⟩

def farSegment : Segment := ⟨2, secondFile, 7, 7, [121], [121]⟩

def crossing : Engine :=
  Operation.effects [.register "a" (some .text), .createIndex "a", .register "b" (some .text),
    .createIndex "b", .createFile 1 "f" 0 5, .createFile 2 "g" 6 9,
    .createSegment (some firstFile) (some (.ofPostings xPostings)) 3 3 [120] [120],
    .createSegment (some firstFile) (some (.ofPostings (yPostings [1, 3]))) 1 3 [121] [121],
    .createSegment (some secondFile) (some (.ofPostings (yPostings [7]))) 7 7 [121] [121],
    .attach "a" [] [xSegment], .attach "b" [] [ySegment, farSegment]] {}

def isX : Condition := ⟨"a", .text, some 0, .eq [120]⟩

def isY : Condition := ⟨"b", .text, some 1, .eq [121]⟩

def isNotZ : Condition := ⟨"b", .text, some 1, .notEq [122]⟩

def yAndX : Group := [isY, isNotZ, isX]

theorem served_of_text {i : IndexId} (hi : c.index = some i)
    (htype : e.indexes[i]?.map ColumnIndex.type = some .text) : c.Served e := by
  obtain ⟨index, hindex, htext⟩ := Option.map_eq_some_iff.1 htype
  refine ⟨i, index, hi, hindex, ?_⟩
  rw [htext]
  exact ⟨fun _ _ => nofun, fun _ _ => nofun⟩

theorem crossing_narrowed : Reachable crossing ∧
    (∀ c ∈ yAndX, c.eligible → c.Served crossing) ∧ yAndX.Aligned ∧ Covered crossing yAndX ∧
      ∃ primary ds, Candidate.primary crossing [firstFile, secondFile] yAndX = .ok primary ∧
        ofGroup crossing [firstFile, secondFile] .and yAndX = .ok ds ∧
        Conjoined crossing [firstFile, secondFile] yAndX primary ds ∧
        Complete crossing [firstFile, secondFile] primary ds ∧
        primary.map (·.condition.column) = some "a" ∧
          ds.map segments = [[ySegment], [xSegment]] := by
  have hreach : Reachable crossing := Reachable.start.steps _
  have hserved : ∀ c ∈ yAndX, c.eligible → c.Served crossing := by
    refine List.forall_mem_cons.2 ⟨fun _ => ?_, List.forall_mem_cons.2 ⟨nofun, ?_⟩⟩
    · exact served_of_text rfl (by decide +kernel)
    · exact List.forall_mem_singleton.2 fun _ => served_of_text rfl (by decide +kernel)
  have hgroup : yAndX.Aligned := by
    unfold Group.Aligned
    decide
  have hcovered : Covered crossing yAndX := by
    unfold Covered
    decide +kernel
  obtain ⟨primary, ds, hprimary, hds, hconjoined, hcomplete⟩ :=
    conjoined_ofGroup hreach [firstFile, secondFile] hserved hgroup
  have hlead : (Candidate.primary crossing [firstFile, secondFile] yAndX).toOption.map
      (Option.map (·.condition.column)) = some (some "a") := by decide +kernel
  have hsegments : (ofGroup crossing [firstFile, secondFile] .and yAndX).toOption.map
      (List.map segments) = some [[ySegment], [xSegment]] := by decide +kernel
  rw [hprimary] at hlead
  rw [hds] at hsegments
  exact ⟨hreach, hserved, hgroup, hcovered, primary, ds, hprimary, hds, hconjoined,
    hcomplete hcovered, Option.some.inj hlead, Option.some.inj hsegments⟩

end Candidate
end SecondaryIndex
