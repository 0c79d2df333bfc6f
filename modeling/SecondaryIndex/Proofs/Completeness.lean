import SecondaryIndex.Proofs.Delivering
import SecondaryIndex.Proofs.Filling
import SecondaryIndex.Proofs.Narrowing

namespace SecondaryIndex

variable {e : Engine} {scope : List DataFile} {k : Connective} {group : Group} {c : Condition}
  {t : Token}

theorem Condition.Answerable.served (h : c.Answerable e) (he : e.Searchable) : c.Served e := by
  obtain ⟨index, hcarries⟩ := h.carries he
  obtain ⟨i, hi, hindex, -⟩ := hcarries.carried
  refine ⟨i, index, hi, hindex, ?_⟩
  rw [← hcarries.type]
  exact h.wellFormed.fits

theorem Segment.OpenedOver.keys {type : ValueType} {s : Segment} {p : Postings}
    (h : s.OpenedOver e type p) (ht : t ∈ p.tokens) : s.minKey ≤ t ∧ t ≤ s.maxKey := by
  obtain ⟨⟨pairs, hp⟩, hspans, -⟩ := h
  obtain ⟨-, hleast, hgreatest⟩ := (Postings.counted_empty type).addAll hp
  rw [hspans.minKey] at hleast
  rw [hspans.maxKey] at hgreatest
  exact ⟨hleast.2 t ht, hgreatest.2 t ht⟩

theorem Condition.Answerable.keys (h : c.Answerable e) (he : e.Searchable) {s : Segment}
    (hs : s ∈ e.viewed c) (ht : t ∈ e.stored c s) : s.minKey ≤ t ∧ t ≤ s.maxKey := by
  obtain ⟨index, hcarries⟩ := h.carries he
  rw [hcarries.viewed] at hs
  obtain ⟨p, hp, -⟩ := hcarries.exists_inMemory hs
  obtain ⟨entry, hentry, -, ht⟩ := hp.opened.has_iff.1 ((hcarries.mem_stored hs).1 ht).2
  exact hp.opened.keys (List.mem_flatMap.2 ⟨entry, hentry, ht⟩)

def Candidate.leading (e : Engine) (scope : List DataFile) (group : Group) : Option Candidate :=
  (primary e scope group).toOption.join

namespace Engine

/-- A row strays from a condition of a conjunction if the memtable does not have it for the
condition, and the segments in scope that do lie apart from all segments of the leading one. -/
def Strays (e : Engine) (scope : List DataFile) (group : Group) (c : Condition) (t : Token) :
    Prop :=
  ∃ p ∈ Candidate.leading e scope group, p.segments ≠ [] ∧ ¬ p.condition.same c ∧
    t ∉ e.entered c ∧ ∀ s ∈ e.viewed c, s.file ∈ scope → t ∈ e.stored c s →
      ∀ q ∈ p.segments, ¬ (s.minKey ≤ q.maxKey ∧ q.minKey ≤ s.maxKey)

instance (e : Engine) (scope : List DataFile) (group : Group) (c : Condition) (t : Token) :
    Decidable (e.Strays scope group c t) := inferInstanceAs (Decidable (∃ p ∈ _, _))

/-- Whether a condition has a row in scope, where it is searched for beside the others. -/
def Reaches (e : Engine) (scope : List DataFile) (t : Token) (k : Connective) (group : Group)
    (c : Condition) : Prop :=
  e.Hits scope c t ∧ (k = .and → ¬ e.Strays scope group c t)

instance (e : Engine) (scope : List DataFile) (t : Token) (k : Connective) (group : Group)
    (c : Condition) : Decidable (e.Reaches scope t k group c) := inferInstanceAs (Decidable (_ ∧ _))

/-- The leading condition of a group has no segments, or has the row in one of them. -/
def Led (e : Engine) (scope : List DataFile) (group : Group) (t : Token) : Prop :=
  ∀ p ∈ Candidate.leading e scope group,
    p.segments = [] ∨ ∃ q ∈ p.segments, t ∈ e.stored p.condition q

end Engine

namespace Candidate

variable {d : Candidate} {primary : Option Candidate} {ds : List Candidate}

theorem leading_of_ok (h : Candidate.primary e scope group = .ok primary) :
    leading e scope group = primary := by
  rw [leading, h]
  rfl

theorem own_complete (h : c.Answerable e) (he : e.Searchable) {segments : List Segment}
    (hown : own e scope c = .ok segments) (hhits : e.Hits scope c t) :
    (⟨c, segments⟩ : Candidate).Holds e t := by
  obtain ⟨index, hcarries⟩ := h.carries he
  have hgroup : Group.Consistent [c] :=
    Condition.consistent_of_current (List.forall_mem_singleton.2 h.current)
  have hc : c ∈ [c] := List.mem_singleton_self c
  obtain ⟨d, hd, -, hcomplete⟩ := direct_complete hcarries hgroup hc scope
  rw [direct_eq_own hgroup.aligned hc h.eligible, hown] at hd
  cases hd
  exact hcomplete t hhits

section

variable (h : Conjoined e scope group primary ds)
  (hprimary : Candidate.primary e scope group = .ok primary)
include h hprimary

/-- Nothing that the candidate of a condition finds strays from it. -/
theorem Conjoined.not_strays (hd : d ∈ ds) (hholds : d.Holds e t) :
    ¬ e.Strays scope group d.condition t := by
  rintro ⟨p, hp, hsome, hother, hentered, hapart⟩
  rw [leading_of_ok hprimary] at hp
  obtain ⟨s, hs, ht⟩ := hholds.resolve_left hentered
  obtain ⟨hviewed, hscope, q, hq, hkeys⟩ :=
    (((h.follow p hp d hd).narrowed hsome hother).mem_iff s).1 hs
  exact hapart s hviewed hscope ht q hq hkeys

theorem Conjoined.holds (hanswer : ∀ c ∈ group, c.Answerable e) (he : e.Searchable) (hd : d ∈ ds)
    (hmem : d.condition ∈ group) (hhits : e.Hits scope d.condition t)
    (hstrays : ¬ e.Strays scope group d.condition t) : d.Holds e t := by
  have hanswerable := hanswer d.condition hmem
  cases primary with
  | none =>
    have hnil : group.filter Condition.eligible = [] := h.leads
    have hnone := List.filter_eq_nil_iff.1 hnil d.condition hmem
    exact absurd hanswerable.eligible hnone
  | some p =>
    have hfollows := h.follow p rfl d hd
    -- Only a candidate beside a leading one with segments is narrowed.
    by_cases hsome : p.segments = []
    · exact own_complete hanswerable he (hfollows.unnarrowed hsome) hhits
    by_cases hsame : p.condition.same d.condition
    · obtain ⟨hp, hown⟩ := h.leads.own_leading
      have heq := (hanswer _ hp).current.eq_of_same hanswerable.current hsame
      rw [heq, ← hfollows.leading hsome hsame] at hown
      exact own_complete hanswerable he hown hhits
    · by_contra hmissed
      obtain ⟨hentered, hstored⟩ := not_or.1 hmissed
      refine hstrays ⟨p, leading_of_ok hprimary, hsome, hsame, hentered, ?_⟩
      intro s hs hscope ht q hq hkeys
      have hsearched := ((hfollows.narrowed hsome hsame).mem_iff s).2 ⟨hs, hscope, q, hq, hkeys⟩
      exact hstored ⟨s, hsearched, ht⟩

end

end Candidate

/-- How many rows a condition has in its memtable and in its segments in scope. -/
def Engine.matchCount (e : Engine) (scope : List DataFile) (c : Condition) : Nat :=
  (e.entered c).length +
    (((e.viewed c).filter (·.file ∈ scope)).map fun s => (e.stored c s).length).sum

namespace Candidate

variable {d : Candidate} (hgroup : group.Consistent) (hd : d.condition ∈ group)
  (h : Drawn e scope group d)
include hgroup hd h

theorem volume_le : d.volume e ≤ e.matchCount scope d.condition := by
  have hviewed : d.segments ⊆ (e.viewed d.condition).filter (·.file ∈ scope) := by
    intro s hs
    obtain ⟨hscope, v, hv, hsegment⟩ := h.drawn s hs
    rw [List.mem_filter, viewed_of_snapshotFor hgroup hd hv]
    exact ⟨hsegment, decide_eq_true hscope⟩
  obtain ⟨l, hperm, hl⟩ := (SegmentSet.nodup_of_pairwise h.sorted).subperm hviewed
  unfold volume Engine.matchCount
  rw [← (hperm.map fun s => (e.stored d.condition s).length).sum_eq]
  exact Nat.add_le_add_left ((hl.map _).sum_le_sum fun _ _ => Nat.zero_le _) _

theorem answers_of_drawn (hanswer : d.condition.Answerable e) (he : e.Searchable)
    (hsmall : e.matchCount scope d.condition < 2 ^ 64) : d.Answers e := by
  have hvolume : d.volume e < 2 ^ 64 := (volume_le hgroup hd h).trans_lt hsmall
  obtain ⟨index, hcarries⟩ := hanswer.carries he
  refine ⟨fun i index' hi hindex' => ?_, fun s hs => ?_, hvolume⟩
  · obtain ⟨i', hi', hindex, -⟩ := hcarries.carried
    rw [hi] at hi'
    cases hi'
    rw [hindex] at hindex'
    cases hindex'
    exact hcarries.searched.1
  · obtain ⟨-, v, hv, hsegment⟩ := h.drawn s hs
    rw [← viewed_of_snapshotFor hgroup hd hv, hcarries.viewed] at hsegment
    apply hcarries.answers hsegment
    have hpart : (e.stored d.condition s).length ≤ d.volume e :=
      (List.le_sum_of_mem (List.mem_map_of_mem (f := fun s => (e.stored d.condition s).length)
        hs)).trans (Nat.le_add_left _ _)
    exact hpart.trans_lt hvolume

end Candidate

section

variable (hanswer : ∀ c ∈ group, c.Answerable e) (he : e.Searchable)
include hanswer he

theorem Group.exists_conjoined (scope : List DataFile) : ∃ primary ds,
    Candidate.primary e scope group = .ok primary ∧ Candidate.ofGroup e scope .and group = .ok ds ∧
      Candidate.Conjoined e scope group primary ds := by
  have hgroup := Condition.consistent_of_current fun c hc => (hanswer c hc).current
  exact Candidate.exists_conjoined he.orderly scope (fun c hc _ => (hanswer c hc).served he)
    hgroup.aligned

theorem Group.exists_candidates (scope : List DataFile) (k : Connective) :
    ∃ cands, Candidate.ofGroup e scope k group = .ok cands := by
  cases k with
  | and =>
    obtain ⟨-, ds, -, hds, -⟩ := Group.exists_conjoined hanswer he scope
    exact ⟨ds, hds⟩
  | or =>
    obtain ⟨cands, hcands, -⟩ := Group.exists_disjoined hanswer he scope
    exact ⟨cands, hcands⟩

theorem Group.exists_candidate {cands : List Candidate}
    (hcands : Candidate.ofGroup e scope k group = .ok cands) (hc : c ∈ group) :
    ∃ d ∈ cands, d.condition = c := by
  have hstand := Group.stand_eligible group
  have hconditions := (Candidate.drawn_ofGroup he.indexed hcands).1
  obtain ⟨c', hc', hsame⟩ := hstand.stands c hc (hanswer c hc).eligible
  have hcurrent := (hanswer c' (hstand.mem c' hc').1).current
  rw [hcurrent.eq_of_same (hanswer c hc).current hsame, ← hconditions] at hc'
  exact List.mem_map.1 hc'

/-- For each condition the candidates find just the rows that it reaches. -/
theorem Engine.finds_iff_reaches (hc : c ∈ group) :
    e.Finds scope t k group c ↔ e.Reaches scope t k group c := by
  have hgroup := Condition.consistent_of_current fun c hc => (hanswer c hc).current
  have hhits : e.Finds scope t k group c → e.Hits scope c t :=
    fun hfinds => hfinds.hits he.indexed hgroup hc
  cases k with
  | and =>
    obtain ⟨primary, ds, hprimary, hds, hconjoined⟩ := Group.exists_conjoined hanswer he scope
    obtain ⟨d, hd, rfl⟩ := Group.exists_candidate hanswer he hds hc
    have hconditions := (Candidate.drawn_ofGroup he.indexed hds).1
    constructor
    · intro hfinds
      have hholds := (finds_iff hconditions hds hd d.condition.same_refl).1 hfinds
      exact ⟨hhits hfinds, fun _ => hconjoined.not_strays hprimary hd hholds⟩
    · intro ⟨hhits, hstrays⟩
      have hholds := hconjoined.holds hprimary hanswer he hd hc hhits (hstrays rfl)
      exact (finds_iff hconditions hds hd d.condition.same_refl).2 hholds
  | or =>
    refine ⟨fun hfinds => ⟨hhits hfinds, nofun⟩, fun ⟨hhits, _⟩ => ?_⟩
    obtain ⟨cands, hcands, hcomplete⟩ := Group.exists_disjoined hanswer he scope
    obtain ⟨d, hd, rfl⟩ := Group.exists_candidate hanswer he hcands hc
    obtain ⟨c', -, rfl, hholds⟩ := exists_left hcomplete d hd
    exact ⟨cands, hcands, d, hd, d.condition.same_refl, hholds t hhits⟩

/-- A row that is in a segment of the leading condition does not stray: it is what that segment has
in common with all others that have the row. -/
theorem Engine.Led.not_strays (hled : e.Led scope group t) (hc : c ∈ group)
    (hhits : e.Hits scope c t) : ¬ e.Strays scope group c t := by
  rintro ⟨p, hp, hsome, -, hentered, hapart⟩
  obtain ⟨s, hs, hscope, ht⟩ := hhits.resolve_left hentered
  obtain ⟨q, hq, ht'⟩ := (hled p hp).resolve_left hsome
  obtain ⟨primary, ds, hprimary, -, hconjoined⟩ := Group.exists_conjoined hanswer he scope
  rw [Candidate.leading_of_ok hprimary] at hp
  obtain rfl := Option.mem_def.1 hp
  obtain ⟨hpmem, hown⟩ := hconjoined.leads.own_leading
  have hviewed := (Candidate.mem_own he.orderly hown hq).1
  have hkeys := (hanswer c hc).keys he hs ht
  have hkeys' := (hanswer p.condition hpmem).keys he hviewed ht'
  exact hapart s hs hscope ht q hq ⟨hkeys.1.trans hkeys'.2, hkeys'.1.trans hkeys.2⟩

theorem Group.candidates_answer (scope : List DataFile) (k : Connective)
    (hsmall : (group.eligible.map (e.matchCount scope)).sum < 2 ^ 64) :
    ∃ cands, Candidate.ofGroup e scope k group = .ok cands ∧ (∀ d ∈ cands, d.Answers e) ∧
      (cands.map fun d => d.volume e).sum ≤ (group.eligible.map (e.matchCount scope)).sum := by
  have hgroup := Condition.consistent_of_current fun c hc => (hanswer c hc).current
  obtain ⟨cands, hcands⟩ := Group.exists_candidates hanswer he scope k
  obtain ⟨hconditions, hdrawn⟩ := Candidate.drawn_ofGroup he.indexed hcands
  have hmem : ∀ d ∈ cands, d.condition ∈ group.eligible := fun d hd =>
    hconditions ▸ List.mem_map_of_mem hd
  have hseen : ∀ d ∈ cands, d.condition ∈ group := fun d hd =>
    ((Group.stand_eligible group).mem _ (hmem d hd)).1
  refine ⟨cands, hcands, fun d hd => ?_, ?_⟩
  · have hcount : e.matchCount scope d.condition ≤ (group.eligible.map (e.matchCount scope)).sum :=
      List.le_sum_of_mem (List.mem_map_of_mem (hmem d hd))
    exact Candidate.answers_of_drawn hgroup (hseen d hd) (hdrawn d hd) (hanswer _ (hseen d hd)) he
      (hcount.trans_lt hsmall)
  · rw [← hconditions, List.map_map]
    exact List.sum_le_sum fun d hd => Candidate.volume_le hgroup (hseen d hd) (hdrawn d hd)

end

namespace Query

variable {q : Query} {id : SessionId}

/-- Each condition is up to an index, and made of a column of the catalog. -/
def Posed (e : Engine) (q : Query) : Prop := ∀ group ∈ q.groups, ∀ c ∈ group, c.Posed e

/-- The columns that are asked for hold well-formed values, in segments of their own types. -/
def Stocked (e : Engine) (q : Query) : Prop := ∀ group ∈ q.groups, ∀ c ∈ group, e.Stocked c.column

def Answerable (e : Engine) (q : Query) : Prop := ∀ group ∈ q.groups, ∀ c ∈ group, c.Answerable e

theorem Posed.answerable (h : q.Posed e) (hstocked : q.Stocked e) : q.Answerable e :=
  fun group hgroup c hc => ⟨h group hgroup c hc, hstocked group hgroup c hc⟩

def matchCount (e : Engine) (scope : List DataFile) (q : Query) : Nat :=
  (q.groups.map fun group => (group.eligible.map (e.matchCount scope)).sum).sum

theorem mem_groups_node {k : Connective} {group : Group} {left right : Query} {P : Group → Prop}
    (hnil : P []) : (∀ g ∈ (node k group left right).groups, P g) ↔
      P group ∧ (∀ g ∈ left.groups, P g) ∧ ∀ g ∈ right.groups, P g := by
  rw [groups, List.forall_mem_append, List.forall_mem_append]
  cases group with
  | nil => simp [hnil]
  | cons c rest => simp

theorem Every.and {P P' : Connective → Group → Query → Query → Prop} (h : q.Every P)
    (h' : q.Every P') : q.Every fun k group left right =>
      P k group left right ∧ P' k group left right := by
  induction q with
  | absent => trivial
  | node k group left right ihl ihr => exact ⟨⟨h.1, h'.1⟩, ihl h.2.1 h'.2.1, ihr h.2.2 h'.2.2⟩

theorem every_of_groups {P : Group → Prop} (hnil : P []) (h : ∀ group ∈ q.groups, P group) :
    q.Every fun _ group _ _ => P group := by
  induction q with
  | absent => trivial
  | node k group left right ihl ihr =>
    obtain ⟨hgroup, hl, hr⟩ := (mem_groups_node hnil).1 h
    exact ⟨hgroup, ihl hl, ihr hr⟩

theorem Answerable.every (h : q.Answerable e) :
    q.Every fun _ group _ _ => ∀ c ∈ group, c.Answerable e := every_of_groups nofun h

theorem Answerable.eligible (h : q.Answerable e) : q.Eligible :=
  every_of_groups nofun fun group hgroup c hc => (h group hgroup c hc).eligible

theorem matchCount_node {k : Connective} {group : Group} {left right : Query} :
    (node k group left right).matchCount e scope = (group.eligible.map (e.matchCount scope)).sum +
      (left.matchCount e scope + right.matchCount e scope) := by
  unfold matchCount
  rw [groups, List.map_append, List.sum_append, List.map_append, List.sum_append]
  cases group with
  | nil => rfl
  | cons c rest => simp

/-- Whether a row is what a query asks for and does not stray from its conjunctions. -/
def Reached (e : Engine) (scope : List DataFile) (q : Query) (t : Token) : Prop :=
  q.Holds (e.Reaches scope t)

instance (e : Engine) (scope : List DataFile) (q : Query) (t : Token) :
    Decidable (q.Reached e scope t) := decidableHolds q

theorem Reached.meets (h : q.Reached e scope t) : q.Meets e scope t :=
  h.imp (every_of_groups trivial fun _ _ => trivial) fun _ _ _ _ _ _ _ hreaches => hreaches.1

section

variable (ha : q.Answerable e) (he : e.Searchable)
include ha he

theorem finds_iff_reached : q.Finds e scope t ↔ q.Reached e scope t := by
  constructor
  · exact fun h => h.imp ha.every fun _ _ _ _ hgroup _ hc =>
      (Engine.finds_iff_reaches hgroup he hc).1
  · exact fun h => h.imp ha.every fun _ _ _ _ hgroup _ hc =>
      (Engine.finds_iff_reaches hgroup he hc).2

/-- A row that meets a query is reached if each conjunction is led by a condition without segments,
or with one that has the row. -/
theorem Meets.reached (h : q.Meets e scope t)
    (hled : q.Every fun k group _ _ => k = .and → e.Led scope group t) : q.Reached e scope t := by
  refine h.imp (ha.every.and hled) fun _ _ _ _ hgroup _ hc hhits => ⟨hhits, fun hk => ?_⟩
  exact (hgroup.2 hk).not_strays hgroup.1 he hc hhits

theorem answered (hsmall : q.matchCount e scope < 2 ^ 64) :
    (q.Every fun k group _ _ => ∃ cands, Candidate.ofGroup e scope k group = .ok cands ∧
      ∀ d ∈ cands, d.Answers e) ∧ q.volume e scope ≤ q.matchCount e scope := by
  induction q with
  | absent => exact ⟨trivial, Nat.zero_le _⟩
  | node k group left right ihl ihr =>
    obtain ⟨hgroup, hal, har⟩ := (mem_groups_node nofun).1 ha
    rw [matchCount_node] at hsmall
    obtain ⟨cands, hcands, hanswers, hvolume⟩ :=
      Group.candidates_answer hgroup he scope k (by omega)
    obtain ⟨heveryl, hvolumel⟩ := ihl hal (by omega)
    obtain ⟨heveryr, hvolumer⟩ := ihr har (by omega)
    refine ⟨⟨⟨cands, hcands, hanswers⟩, heveryl, heveryr⟩, ?_⟩
    rw [volume, matchCount_node, hcands]
    exact Nat.add_le_add hvolume (Nat.add_le_add hvolumel hvolumer)

theorem served (hproper : q.Proper) (hsmall : q.matchCount e scope < 2 ^ 64) :
    q.Served e scope where
  answered := (answered ha he hsmall).1
  proper := hproper
  small := (answered ha he hsmall).2.trans_lt hsmall

/-- What is built for a query brings all rows that it reaches, and only these unless a conjunction
leaves out a part. -/
theorem brings_build (ho : e.Ordered) (hproper : q.Proper) (hready : e.Ready id q.groups)
    (hsmall : q.matchCount e (e.session id).scope < 2 ^ 64) :
    Ensures (q.build id) e fun r e' => ∃ cursor ts, r = .ok cursor ∧
      Request.Brings e'.cursors ts cursor ∧ Rising ts ∧
      (∀ t, q.Reached e (e.session id).scope t → t ∈ ts) ∧
        (q.Kept id e → ∀ t ∈ ts, q.Reached e (e.session id).scope t) := by
  have hyields := yields_build q (Loan.Borrowed.start (fun _ => True) e) ho (Loan.allows_true e)
    he.indexed ha.eligible (rfl : (e.session id).scope = _)
  have hfull := And.intro (served ha he hproper hsmall) hready
  have hfinds : q.Finds e (e.session id).scope = q.Reached e (e.session id).scope :=
    funext fun t => propext (finds_iff_reached ha he)
  rw [hfinds] at hyields
  refine hyields.mono ?_
  rintro (f | _ | x) e' hyield
  · exact absurd hfull hyield
  · exact ⟨none, [], rfl, rfl, .nil, fun t ht => (hyield.2 hfull t ht).elim,
      fun _ _ ht => (List.not_mem_nil ht).elim⟩
  · obtain ⟨-, part, hopened, hsound, hall⟩ := hyield
    exact ⟨some x, part.tokens, rfl, ⟨part, hopened.streams, rfl⟩, hopened.streams.rising,
      (hall hfull).1, hsound⟩

end

/-- What is drained from a cursor. Where there is none, nothing is. -/
def Drains (cs : Array Cursor) (ts : List Token) : Option CursorId → Prop
  | none => ts = []
  | some x => ∀ n, (Cursor.drain x n cs).1 = .ok (ts.take n)

theorem drains_some {cs : Array Cursor} {ts : List Token} {x : CursorId} :
    Drains cs ts (some x) ↔ ∀ n, (Cursor.drain x n cs).1 = .ok (ts.take n) := Iff.rfl

theorem Request.Brings.drains {cs : Array Cursor} {ts : List Token} {cursor : Option CursorId}
    (h : Brings cs ts cursor) : Drains cs ts cursor := by
  cases cursor with
  | none => exact h
  | some x =>
    obtain ⟨part, hstreams, rfl⟩ := h
    exact fun n => (hstreams.drain n).1

/-- Building succeeds, and all rows that the query reaches are drained, in rising order. No others
are, unless a conjunction leaves out a part. -/
theorem complete_of_reached {e : Engine} (h : Reachable e) (ordered : e.Ordered) {q : Query}
    {session : SessionId} (answerable : q.Answerable e) (proper : q.Proper)
    (ready : e.Ready session q.groups)
    (small : q.matchCount e (e.session session).scope < 2 ^ 64) :
    Ensures (q.build session) e fun r e' => ∃ cursor ts, r = .ok cursor ∧
      Drains e'.cursors ts cursor ∧ Rising ts ∧
      (∀ t, q.Reached e (e.session session).scope t → t ∈ ts) ∧
        (q.Kept session e → ∀ t ∈ ts, q.Reached e (e.session session).scope t) := by
  refine (brings_build answerable h.searchable ordered proper ready small).mono ?_
  intro r e' ⟨cursor, ts, hr, hbrings, hrest⟩
  exact ⟨cursor, ts, hr, hbrings.drains, hrest⟩

/-- The columns of `crossing`, with live files. A second row of the leading column is in the
memtable, and for the other column in the far segment. -/
def crossingLive : Engine :=
  Operation.effects [.replaceFiles [] [Candidate.firstFile, Candidate.secondFile],
    .enter 7 "a" [120], .openSession 0 (some .full) 0] Candidate.crossing

def xAndY : Query := .node .and [Candidate.isX, Candidate.isY] .absent .absent

def crossingSegments : List Segment :=
  [Candidate.xSegment, Candidate.ySegment, Candidate.farSegment]

def crossingStates : Array SegmentState :=
  #[{ reader := .ofPostings Candidate.xPostings, refs := 1 },
    { reader := .ofPostings (Candidate.yPostings [1, 3]), refs := 1 },
    { reader := .ofPostings (Candidate.yPostings [7]), refs := 1 }]

theorem segments_crossingLive : crossingLive.segments = crossingStates := rfl

theorem inMemory_crossingLive : ∀ s ∈ crossingSegments, ∃ p, s.InMemory crossingLive .text p := by
  have hstate (s : Segment) : crossingLive.segment? s = crossingStates[s.id]? :=
    congrArg (·[s.id]?) segments_crossingLive
  refine List.forall_mem_cons.2 ⟨?_, List.forall_mem_cons.2 ⟨?_, List.forall_mem_singleton.2 ?_⟩⟩
  · exact ⟨_, .of_state [([120], 3)] rfl ⟨rfl, rfl, rfl, rfl⟩ (hstate _) rfl (fun _ => rfl)
      (by decide)⟩
  · exact ⟨_, .of_state [([121], 1), ([121], 3)] rfl ⟨rfl, rfl, rfl, rfl⟩ (hstate _) rfl
      (fun _ => rfl) (by decide)⟩
  · exact ⟨_, .of_state [([121], 7)] rfl ⟨rfl, rfl, rfl, rfl⟩ (hstate _) rfl (fun _ => rfl)
      (by decide)⟩

theorem ordered_crossingLive : crossingLive.Ordered := by
  apply Engine.ordered_of_memory
  intro i state hi
  have hall : ∀ state ∈ crossingLive.segments, ∃ p, state.reader.store = .memory p := by
    rw [segments_crossingLive]
    simp [crossingStates, Reader.ofPostings]
  exact hall state (Array.mem_of_getElem? hi)

theorem answerable_xAndY : xAndY.Answerable crossingLive := by
  have hindexes : ∀ index ∈ crossingLive.indexes.toList, index.type = .text ∧
      ∀ s ∈ index.snapshot.segments, s ∈ crossingSegments := by decide +kernel
  have hstocked : ∀ column, crossingLive.Stocked column := by
    apply Engine.stocked_of_text
    intro index hindex
    obtain ⟨htype, hviewed⟩ := hindexes index hindex
    exact ⟨htype, fun s hs => inMemory_crossingLive s (hviewed s hs)⟩
  intro group hgroup c hc
  obtain rfl := List.mem_singleton.1 hgroup
  rcases List.mem_pair.1 hc with rfl | rfl
  · exact ⟨⟨rfl, Condition.wellFormed_of_text rfl, ⟨"a", some .text, some 0⟩, rfl, rfl⟩,
      hstocked "a"⟩
  · exact ⟨⟨rfl, Condition.wellFormed_of_text rfl, ⟨"b", some .text, some 1⟩, rfl, rfl⟩,
      hstocked "b"⟩

/-- The row that the leading segment has is drained. The other one meets the query as well, but
strays. -/
theorem crossing_misses_far : Reachable crossingLive ∧ xAndY.Answerable crossingLive ∧
    (xAndY.build 0 crossingLive).1 = .ok (some 6) ∧ ∃ ts : List Token,
      (∀ n, (Cursor.drain 6 n (xAndY.build 0 crossingLive).2.cursors).1 = .ok (ts.take n)) ∧
        3 ∈ ts ∧ 7 ∉ ts ∧ xAndY.Meets crossingLive (crossingLive.session 0).scope 7 := by
  have hreach : Reachable crossingLive := (Reachable.start.steps _).steps _
  have hready : crossingLive.Ready 0 xAndY.groups :=
    ⟨by decide +kernel, by decide +kernel, List.pairwise_singleton _ _⟩
  have hbuilt : (xAndY.build 0 crossingLive).1 = .ok (some 6) := by decide +kernel
  have hcomplete := complete_of_reached hreach ordered_crossingLive answerable_xAndY (by decide)
    hready (by decide +kernel)
  rw [Ensures, hbuilt] at hcomplete
  obtain ⟨cursor, ts, hcursor, hdrains, -, hreached, hnone⟩ := hcomplete
  obtain rfl := Except.ok.inj hcursor
  refine ⟨hreach, answerable_xAndY, hbuilt, ts, drains_some.1 hdrains, ?_, fun h => ?_, ?_⟩
  · exact hreached 3 (by decide +kernel)
  · have hseven : ¬ xAndY.Reached crossingLive (crossingLive.session 0).scope 7 := by
      decide +kernel
    exact hseven (hnone (by decide +kernel) 7 h)
  · decide +kernel

end Query
end SecondaryIndex
