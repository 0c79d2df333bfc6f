import Mathlib.Data.List.Pairwise
import SecondaryIndex.Proofs.Answers
import SecondaryIndex.Proofs.Candidates

namespace SecondaryIndex

namespace Engine

/-- The segments in the snapshot of the index that a condition carries. -/
def viewed (e : Engine) (c : Condition) : List Segment :=
  ((c.index.bind (e.indexes[·]?)).map fun index => index.snapshot.segments).getD []

theorem viewed_eq {e : Engine} {c : Condition} {i : IndexId} {index : ColumnIndex}
    (hi : c.index = some i) (hindex : e.indexes[i]? = some index) :
    e.viewed c = index.snapshot.segments := by
  rw [viewed, hi, Option.bind_some, hindex, Option.map_some, Option.getD_some]

/-- Whether a row has an entry that meets a condition, in the memtable or in a segment in scope. -/
def Hits (e : Engine) (scope : List DataFile) (c : Condition) (t : Token) : Prop :=
  t ∈ e.entered c ∨ ∃ s ∈ e.viewed c, s.file ∈ scope ∧ t ∈ e.stored c s

instance (e : Engine) (scope : List DataFile) (c : Condition) (t : Token) :
    Decidable (e.Hits scope c t) := inferInstanceAs (Decidable (_ ∨ _))

end Engine

/-- The conditions of a group on one column carry the same type and the same index. -/
def Group.Consistent (group : Group) : Prop :=
  ∀ c ∈ group, ∀ d ∈ group, c.column = d.column → c.type = d.type ∧ c.index = d.index

instance (group : Group) : Decidable group.Consistent :=
  inferInstanceAs (Decidable (∀ c ∈ group, ∀ d ∈ group, _ → _ ∧ _))

/-- The eligible conditions of a group on one column carry the same index. -/
def Group.Aligned (group : Group) : Prop := ∀ c ∈ group, c.eligible → ∀ d ∈ group, d.eligible →
  c.column = d.column → c.index = d.index

/-- The index that a group reads for a column: that of its first eligible condition there. -/
def Group.indexOn (group : Group) (column : String) : Option IndexId :=
  (group.find? fun d => d.eligible && d.column = column).bind Condition.index

theorem Group.Aligned.indexOn_eq {group : Group} (hgroup : group.Aligned) {c : Condition}
    (hc : c ∈ group) (heligible : c.eligible) : group.indexOn c.column = c.index := by
  unfold indexOn
  cases hfirst : group.find? fun d => d.eligible && d.column = c.column with
  | none =>
    have hnone := List.find?_eq_none.1 hfirst c hc
    simp [heligible] at hnone
  | some first =>
    have hsome := List.find?_some hfirst
    rw [Bool.and_eq_true, decide_eq_true_eq] at hsome
    exact hgroup first (List.mem_of_find?_eq_some hfirst) hsome.1 c hc heligible hsome.2

theorem Group.Consistent.aligned {group : Group} (h : group.Consistent) : group.Aligned :=
  fun c hc _ d hd _ hcolumn => (h c hc d hd hcolumn).2

namespace Query

/-- The truth of a query, if `ask` tells which conditions of which groups are true. -/
def Holds (ask : Connective → Group → Condition → Prop) : Query → Prop
  | absent => False
  | node .and group left right => (∀ c ∈ group, ask .and group c) ∧
      (¬ left.isAbsent → left.Holds ask) ∧ (¬ right.isAbsent → right.Holds ask)
  | node .or group left right => (∃ c ∈ group, ask .or group c) ∨ left.Holds ask ∨ right.Holds ask

/-- Whether a row is what a query asks for. -/
def Meets (e : Engine) (scope : List DataFile) (q : Query) (t : Token) : Prop :=
  q.Holds fun _ _ c => e.Hits scope c t

/-- Whether every node with its group and its parts has a property. -/
def Every (P : Connective → Group → Query → Query → Prop) : Query → Prop
  | absent => True
  | node connective group left right =>
    P connective group left right ∧ left.Every P ∧ right.Every P

def Eligible : Query → Prop := Every fun _ group _ _ => ∀ c ∈ group, c.eligible

/-- The conditions of each group that are on one column agree. -/
def Consistent : Query → Prop := Every fun _ group _ _ => group.Consistent

def Proper : Query → Prop := Every fun k group left right =>
  k = .and → group ≠ [] ∨ ¬ left.isAbsent ∨ ¬ right.isAbsent

instance decidableHolds {ask : Connective → Group → Condition → Prop}
    [∀ k group c, Decidable (ask k group c)] : ∀ q : Query, Decidable (q.Holds ask)
  | absent => .isFalse (fun h => h)
  | node .and _ left right =>
    have : Decidable (left.Holds ask) := decidableHolds left
    have : Decidable (right.Holds ask) := decidableHolds right
    inferInstanceAs (Decidable (_ ∧ _ ∧ _))
  | node .or _ left right =>
    have : Decidable (left.Holds ask) := decidableHolds left
    have : Decidable (right.Holds ask) := decidableHolds right
    inferInstanceAs (Decidable (_ ∨ _ ∨ _))

instance (e : Engine) (scope : List DataFile) (q : Query) (t : Token) :
    Decidable (q.Meets e scope t) := decidableHolds q

instance decidableEvery {P : Connective → Group → Query → Query → Prop}
    [∀ k group left right, Decidable (P k group left right)] : ∀ q : Query, Decidable (q.Every P)
  | absent => .isTrue trivial
  | node _ _ left right =>
    have := decidableEvery (P := P) left
    have := decidableEvery (P := P) right
    inferInstanceAs (Decidable (_ ∧ _ ∧ _))

instance (q : Query) : Decidable q.Eligible := decidableEvery q

instance (q : Query) : Decidable q.Consistent := decidableEvery q

instance (q : Query) : Decidable q.Proper := decidableEvery q

theorem Holds.imp {ask ask' : Connective → Group → Condition → Prop} {q : Query}
    {P : Connective → Group → Query → Query → Prop} (h : q.Holds ask) (hq : q.Every P)
    (himp : ∀ k group left right, P k group left right → ∀ c ∈ group, ask k group c →
      ask' k group c) : q.Holds ask' := by
  induction q with
  | absent => exact h
  | node k group left right ihl ihr =>
    obtain ⟨hP, hl, hr⟩ := hq
    have hgroup := himp k group left right hP
    cases k with
    | and =>
      obtain ⟨hall, hleft, hright⟩ := h
      exact ⟨fun c hc => hgroup c hc (hall c hc), fun hp => ihl (hleft hp) hl,
        fun hp => ihr (hright hp) hr⟩
    | or =>
      rcases h with ⟨c, hc, hask⟩ | h | h
      · exact .inl ⟨c, hc, hgroup c hc hask⟩
      · exact .inr (.inl (ihl h hl))
      · exact .inr (.inr (ihr h hr))

end Query

namespace Condition

theorem same_iff {a b : Condition} :
    a.same b ↔ a.column = b.column ∧ a.predicate = b.predicate := by
  rw [same, decide_eq_true_eq]

theorem same_refl (a : Condition) : a.same a := same_iff.2 ⟨rfl, rfl⟩

theorem same_symm {a b : Condition} (h : a.same b) : b.same a := by
  rw [same_iff] at h ⊢
  exact ⟨h.1.symm, h.2.symm⟩

end Condition

namespace Group

/-- Some eligible conditions, no two of them the same, that stand for all that were seen. -/
structure Stand (seen eligible : List Condition) : Prop where
  mem : ∀ c ∈ eligible, c ∈ seen ∧ c.eligible
  apart : eligible.Pairwise fun c d => ¬ c.same d
  stands : ∀ c ∈ seen, c.eligible → ∃ d ∈ eligible, d.same c

theorem stand_eligible (g : Group) : Stand g g.eligible := by
  have hfold : ∀ (rest seen eligible : List Condition), Stand seen eligible →
      Stand (seen ++ rest) (rest.foldl (fun seen c =>
        if c.eligible && !seen.any c.same then seen ++ [c] else seen) eligible) := by
    intro rest
    induction rest with
    | nil =>
      intro seen eligible h
      rwa [List.append_nil]
    | cons c rest ih =>
      intro seen eligible h
      rw [List.foldl_cons, ← List.singleton_append, ← List.append_assoc]
      refine ih _ _ ?_
      split
      next hnew =>
        rw [Bool.and_eq_true, Bool.not_eq_true', List.any_eq_false] at hnew
        refine ⟨?_, ?_, ?_⟩
        · refine List.forall_mem_append.2
            ⟨fun d hd => ?_, List.forall_mem_singleton.2 ⟨by simp, hnew.1⟩⟩
          exact ⟨List.mem_append_left _ (h.mem d hd).1, (h.mem d hd).2⟩
        · refine List.pairwise_append.2
            ⟨h.apart, List.pairwise_singleton _ _, fun d hd c' hc' => ?_⟩
          obtain rfl := List.mem_singleton.1 hc'
          exact fun hsame => hnew.2 d hd (Condition.same_symm hsame)
        · refine List.forall_mem_append.2
            ⟨fun d hd hel => ?_, List.forall_mem_singleton.2 fun _ => ?_⟩
          · obtain ⟨d', hd', hsame⟩ := h.stands d hd hel
            exact ⟨d', List.mem_append_left _ hd', hsame⟩
          · exact ⟨c, by simp, c.same_refl⟩
      next hold =>
        refine ⟨fun d hd => ⟨List.mem_append_left _ (h.mem d hd).1, (h.mem d hd).2⟩, h.apart, ?_⟩
        refine List.forall_mem_append.2 ⟨h.stands, List.forall_mem_singleton.2 fun hel => ?_⟩
        rw [hel, Bool.true_and, Bool.not_eq_true', Bool.not_eq_false, List.any_eq_true] at hold
        obtain ⟨d, hd, hsame⟩ := hold
        exact ⟨d, hd, Condition.same_symm hsame⟩
  have h := hfold g [] [] ⟨nofun, .nil, nofun⟩
  rwa [List.nil_append] at h

/-- The eligible conditions without repeats, in the order in which they come first. -/
theorem eligible_eq (g : Group) :
    g.eligible = (g.filter Condition.eligible).eraseDupsBy Condition.same := by
  have hfold : ∀ (rest : Group) (seen : List Condition),
      List.eraseDupsBy.loop Condition.same (rest.filter Condition.eligible) seen.reverse =
        rest.foldl (fun seen c =>
          if c.eligible && !seen.any c.same then seen ++ [c] else seen) seen := by
    intro rest
    induction rest with
    | nil => exact fun seen => List.reverse_reverse seen
    | cons c rest ih =>
      intro seen
      rw [List.filter_cons, List.foldl_cons]
      cases heligible : c.eligible with
      | false => exact ih seen
      | true =>
        rw [if_pos rfl, List.eraseDupsBy.loop, List.any_reverse, Bool.true_and]
        cases hseen : seen.any c.same with
        | true => exact ih seen
        | false =>
          have hnext := ih (seen ++ [c])
          rw [List.reverse_concat] at hnext
          exact hnext
  exact (hfold g []).symm

end Group

namespace Candidate

variable {e e' : Engine}

theorem snapshotFor_eq_indexOn (e : Engine) (group : Group) (c : Condition) :
    snapshotFor e group c =
      ((group.indexOn c.column).bind (e.indexes[·]?)).map ColumnIndex.snapshot := by
  unfold snapshotFor Group.indexOn
  cases group.find? fun d => d.eligible && d.column = c.column with
  | none => rfl
  | some first =>
    dsimp only [bind, Option.bind, pure]
    cases first.index with
    | none => rfl
    | some i =>
      dsimp only
      cases e.indexes[i]? <;> rfl

theorem snapshotFor_eligible {group group' : Group} (hindexes : e'.indexes = e.indexes)
    (heligible : group'.filter Condition.eligible = group.filter Condition.eligible) :
    snapshotFor e' group' = snapshotFor e group := by
  have hfirst : ∀ (g : Group) column, (g.find? fun d => d.eligible && d.column = column) =
      (g.filter Condition.eligible).find? (·.column = column) := by
    intro g column
    rw [List.find?_filter]
    simp
  funext c
  rw [snapshotFor, snapshotFor, hfirst, heligible, ← hfirst, hindexes]

theorem ofGroup_congr {group group' : Group} (hindexes : e'.indexes = e.indexes)
    (heligible : group'.filter Condition.eligible = group.filter Condition.eligible)
    (scope : List DataFile) (k : Connective) :
    ofGroup e' scope k group' = ofGroup e scope k group := by
  have hsnapshot : snapshotFor e' group' = snapshotFor e group :=
    snapshotFor_eligible hindexes heligible
  have hdirect : direct e' scope group' = direct e scope group := by
    funext c
    rw [direct, direct, hsnapshot]
  have hnarrowed : narrowed e' scope group' = narrowed e scope group := by
    funext primary c
    rw [narrowed, narrowed, hsnapshot]
  have hbeside : beside e' scope group' = beside e scope group := by
    funext primary c
    rw [beside.eq_def, beside.eq_def, hdirect, hnarrowed]
  have hprimary : ∀ cs best,
      primaryOf e' scope group' best cs = primaryOf e scope group best cs := by
    intro cs
    induction cs with
    | nil => exact fun _ => rfl
    | cons c rest ih =>
      intro best
      simp only [primaryOf, hdirect, ih]
  have hall : ∀ primary cs,
      allBeside e' scope group' primary cs = allBeside e scope group primary cs := by
    intro primary cs
    induction cs with
    | nil => rfl
    | cons c rest ih => simp only [allBeside, hbeside, ih]
  have hdistinct : group'.eligible = group.eligible := by
    rw [Group.eligible_eq, Group.eligible_eq, heligible]
  cases k <;> simp only [ofGroup, primary, heligible, hprimary, hdistinct, hall]

theorem ofGroup_indexes (h : e'.indexes = e.indexes) (scope : List DataFile) (k : Connective)
    (group : Group) : ofGroup e' scope k group = ofGroup e scope k group :=
  ofGroup_congr h rfl scope k

end Candidate

namespace Engine

/-- Whether a candidate of the group finds the row for a condition. -/
def Finds (e : Engine) (scope : List DataFile) (t : Token) (k : Connective) (group : Group)
    (c : Condition) : Prop :=
  ∃ cands, Candidate.ofGroup e scope k group = .ok cands ∧
    ∃ d ∈ cands, d.condition.same c ∧ d.Holds e t

/-- Whether the candidates of a group find the row for all its conditions, or for any. -/
def FindsGroup (e : Engine) (scope : List DataFile) (k : Connective) (group : Group) (t : Token) :
    Prop :=
  match k with
  | .and => ∀ c ∈ group, e.Finds scope t .and group c
  | .or => ∃ c ∈ group, e.Finds scope t .or group c

variable {e : Engine} {scope : List DataFile} {k : Connective} {group : Group} {t : Token}
  {cands : List Candidate}

theorem finds_iff (hconditions : cands.map Candidate.condition = group.eligible)
    (hcands : Candidate.ofGroup e scope k group = .ok cands) {d : Candidate} (hd : d ∈ cands)
    {c : Condition} (hsame : d.condition.same c) : e.Finds scope t k group c ↔ d.Holds e t := by
  constructor
  · rintro ⟨cands', hok, d', hd', hsame', hholds⟩
    rw [hcands] at hok
    cases hok
    have hapart := (Group.stand_eligible group).apart
    rw [← hconditions, List.pairwise_map] at hapart
    have hboth : d.condition.same d'.condition := by
      rw [Condition.same_iff] at hsame hsame' ⊢
      exact ⟨hsame.1.trans hsame'.1.symm, hsame.2.trans hsame'.2.symm⟩
    have hsymm : Std.Symm fun a b : Candidate => ¬ a.condition.same b.condition :=
      ⟨fun _ _ h hs => h (Condition.same_symm hs)⟩
    have heq : d = d' := by
      by_contra hne
      exact hapart.forall hd hd' hne hboth
    rwa [heq]
  · exact fun hholds => ⟨cands, hcands, d, hd, hsame, hholds⟩

theorem findsGroup_and (heligible : ∀ c ∈ group, c.eligible)
    (hconditions : cands.map Candidate.condition = group.eligible)
    (hcands : Candidate.ofGroup e scope .and group = .ok cands) :
    e.FindsGroup scope .and group t ↔ ∀ d ∈ cands, d.Holds e t := by
  have hstand := Group.stand_eligible group
  constructor
  · intro h d hd
    have hd' : d.condition ∈ group.eligible := hconditions ▸ List.mem_map_of_mem hd
    exact (finds_iff hconditions hcands hd d.condition.same_refl).1 (h _ (hstand.mem _ hd').1)
  · intro h c hc
    obtain ⟨c', hc', hsame⟩ := hstand.stands c hc (heligible c hc)
    rw [← hconditions] at hc'
    obtain ⟨d, hd, rfl⟩ := List.mem_map.1 hc'
    exact ⟨cands, hcands, d, hd, hsame, h d hd⟩

theorem findsGroup_or (hconditions : cands.map Candidate.condition = group.eligible)
    (hcands : Candidate.ofGroup e scope .or group = .ok cands) :
    e.FindsGroup scope .or group t ↔ ∃ d ∈ cands, d.Holds e t := by
  constructor
  · rintro ⟨c, hc, cands', hok, d, hd, -, hholds⟩
    rw [hcands] at hok
    cases hok
    exact ⟨d, hd, hholds⟩
  · rintro ⟨d, hd, hholds⟩
    have hd' : d.condition ∈ group.eligible := hconditions ▸ List.mem_map_of_mem hd
    exact ⟨d.condition, ((Group.stand_eligible group).mem _ hd').1, cands, hcands, d, hd,
      d.condition.same_refl, hholds⟩

end Engine
end SecondaryIndex
