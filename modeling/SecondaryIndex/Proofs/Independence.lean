import SecondaryIndex.Proofs.Narrowing

namespace SecondaryIndex

namespace Candidate

variable {e : Engine} {scope : List DataFile} {group : Group}

theorem forall₂_of_allBeside {cs : List Condition} {ds : List Candidate}
    (h : allBeside e scope group none cs = .ok ds) : List.Forall₂
      (fun c d => c = d.condition ∧ own e scope (c.readIn group) = .ok d.segments) cs ds := by
  induction cs generalizing ds with
  | nil =>
    cases h
    exact .nil
  | cons c rest ih =>
    obtain ⟨d, hd, h⟩ := bind_eq_ok.1 h
    obtain ⟨more, hmore, h⟩ := bind_eq_ok.1 h
    cases h
    replace hd : direct e scope group c = .ok d := hd
    rw [direct_eq] at hd
    obtain ⟨segments, hown, hd⟩ := bind_eq_ok.1 hd
    cases hd
    exact .cons ⟨rfl, hown⟩ (ih hmore)

/-- What comes out for a disjunction: the segments of each condition as the group reads it, or a
fault if one of them has none. -/
def Disjoined (e : Engine) (scope : List DataFile) (group : Group) :
    Except Fault (List Candidate) → Prop
  | .error _ => ∃ c ∈ group, c.eligible ∧
      ∀ segments, own e scope (c.readIn group) ≠ .ok segments
  | .ok ds =>
    ds.map condition = (group.filter Condition.eligible).eraseDupsBy Condition.same ∧
      ∀ d ∈ ds, own e scope (d.condition.readIn group) = .ok d.segments ∧
        (group.Aligned → own e scope d.condition = .ok d.segments)

/-- The candidates of a disjunction depend on the rest of the group only where it knows another
index for the same column. -/
theorem disjoined_ofGroup (e : Engine) (scope : List DataFile) (group : Group) :
    Disjoined e scope group (ofGroup e scope .or group) := by
  have hmem : ∀ c ∈ group.eligible, c ∈ group ∧ c.eligible := (Group.stand_eligible group).mem
  cases h : ofGroup e scope .or group with
  | error f =>
    by_contra hnone
    have hdirect : ∀ c ∈ group.eligible, ∃ d, direct e scope group c = .ok d ∧ True := by
      intro c hc
      obtain ⟨hc, heligible⟩ := hmem c hc
      by_contra hfails
      refine hnone ⟨c, hc, heligible, fun segments hown => hfails ⟨⟨c, segments⟩, ?_, trivial⟩⟩
      rw [direct_eq, hown]
      rfl
    obtain ⟨ds, hds, -⟩ := ofGroup_or hdirect
    rw [h] at hds
    cases hds
  | ok ds =>
    have hall := forall₂_of_allBeside h
    constructor
    · have hconditions : List.Forall₂ Eq group.eligible (ds.map condition) :=
        List.forall₂_map_right_iff.2 (hall.imp fun _ _ h => h.1)
      rw [List.forall₂_eq_eq_eq] at hconditions
      rw [← hconditions, group.eligible_eq]
    · intro d hd
      obtain ⟨c, hc, rfl, hown⟩ := exists_left hall d hd
      obtain ⟨hc, heligible⟩ := hmem _ hc
      refine ⟨hown, fun hgroup => ?_⟩
      rwa [Condition.readIn_of_aligned hgroup hc heligible] at hown

-- A column whose index was dropped while a query held it, and indexed again, and a column of
-- numbers with one number in it.
def five : Bytes := Bigint.encode 5

def fivePostings : Postings := { type := .bigint, entries := [⟨five, [3]⟩] }

def fiveSegment : Segment := ⟨1, firstFile, 3, 3, five, five⟩

def reopened : Engine :=
  Operation.effects [.register "a" (some .text), .createIndex "a", .createFile 1 "f" 0 5,
    .createSegment (some firstFile) (some (.ofPostings xPostings)) 3 3 [120] [120],
    .attach "a" [] [xSegment], .openSession 0 (some .full) 1000, .plan 0 .or [isX],
    .dropIndex "a", .createIndex "a", .register "n" (some .bigint), .createIndex "n",
    .createSegment (some firstFile) (some (.ofPostings fivePostings)) 3 3 five five,
    .attach "n" [] [fiveSegment]] {}

/-- A condition on the new index, which holds nothing yet. -/
def startsX : Condition := ⟨"a", .text, some 1, .startsWith [120]⟩

def isFive : Condition := ⟨"n", .bigint, some 2, .eq five⟩

def isNoNumber : Condition := ⟨"n", .bigint, some 2, .eq [120]⟩

/-- What is found for a condition alone may be lost to it in a group: beside a condition on the new
index the one on the old index loses its segment, and a value that is no number leaves nothing to
any condition. -/
theorem reopened_reads_other : Reachable reopened ∧
    (∃ ds, ofGroup reopened [firstFile] .or [startsX, isX] = .ok ds ∧
      ∃ d ∈ ds, own reopened [firstFile] d.condition ≠ .ok d.segments) ∧
    (ofGroup reopened [firstFile] .or [startsX, isX]).toOption.map (List.map segments) =
      some [[], []] ∧
    (ofGroup reopened [firstFile] .or [isX]).toOption.map (List.map segments) =
      some [[xSegment]] ∧
    (ofGroup reopened [firstFile] .or [isFive]).toOption.map (List.map segments) =
      some [[fiveSegment]] ∧
    (ofGroup reopened [firstFile] .or [isFive, isNoNumber]).toOption.map (List.map segments) =
      none := by
  refine ⟨Reachable.start.steps _, ?_, by decide +kernel, by decide +kernel, by decide +kernel,
    by decide +kernel⟩
  have hother : (ofGroup reopened [firstFile] .or [startsX, isX]).toOption.any (fun ds =>
      ds.any fun d => (own reopened [firstFile] d.condition).toOption ≠ some d.segments) := by
    decide +kernel
  cases h : ofGroup reopened [firstFile] .or [startsX, isX] with
  | error f =>
    rw [h] at hother
    cases hother
  | ok ds =>
    rw [h] at hother
    obtain ⟨d, hd, hne⟩ := List.any_eq_true.1 hother
    refine ⟨ds, rfl, d, hd, fun hown => ?_⟩
    rw [hown] at hne
    exact of_decide_eq_true hne rfl

end Candidate
end SecondaryIndex
