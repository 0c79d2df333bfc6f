import Mathlib.Data.List.Basic
import Mathlib.Data.List.Pairwise
import Mathlib.Order.Nat
import SecondaryIndex.Proofs.Candidates

namespace SecondaryIndex

section

variable {α : Type} {l : List α} {p : α → Bool}

theorem takeWhile_eq_filter (h : l.Pairwise fun a b => p b = true → p a = true) :
    l.takeWhile p = l.filter p := by
  induction l with
  | nil => rfl
  | cons a rest ih =>
    have hrest := List.pairwise_cons.1 h
    by_cases ha : p a = true
    · rw [List.takeWhile_cons_of_pos ha, List.filter_cons_of_pos ha, ih hrest.2]
    · have hnone : rest.filter p = [] :=
        List.filter_eq_nil_iff.2 fun b hb hpb => ha (hrest.1 b hb hpb)
      rw [List.takeWhile_cons_of_neg ha, List.filter_cons_of_neg ha, hnone]

end

namespace IntervalTree

variable {α β γ : Type}

structure Weak (before : γ → γ → Bool) (D : γ → Prop) : Prop where
  asymm : ∀ {a b}, D a → D b → before a b = true → before b a = false
  cotrans : ∀ {a b c}, D a → D b → D c → before a c = true → before a b = true ∨ before b c = true

namespace Weak

variable {before : γ → γ → Bool} {D : γ → Prop} {a b c : γ}

theorem irrefl (h : Weak before D) (ha : D a) : before a a = false := by
  cases haa : before a a with
  | false => rfl
  | true => exact haa.symm.trans (h.asymm ha ha haa)

theorem trans (h : Weak before D) (ha : D a) (hb : D b) (hc : D c) (hab : before a b = true)
    (hbc : before b c = true) : before a c = true := by
  rcases h.cotrans ha hc hb hab with hac | hcb
  · exact hac
  · rw [h.asymm hb hc hbc] at hcb
    cases hcb

theorem not_before_trans (h : Weak before D) (ha : D a) (hb : D b) (hc : D c)
    (hab : before a b = false) (hbc : before b c = false) : before a c = false := by
  cases hac : before a c with
  | false => rfl
  | true =>
    rcases h.cotrans ha hb hc hac with h' | h'
    · exact h'.symm.trans hab
    · exact h'.symm.trans hbc

theorem flip (h : Weak before D) : Weak (fun a b => before b a) D where
  asymm ha hb := h.asymm hb ha
  cotrans ha hb hc hac := (h.cotrans hc hb ha hac).symm

theorem comap {δ : Type} (h : Weak before D) (g : δ → γ) :
    Weak (fun a b => before (g a) (g b)) fun a => D (g a) where
  asymm ha hb := h.asymm ha hb
  cotrans ha hb hc := h.cotrans ha hb hc

end Weak

theorem mem_insertBy {before : γ → γ → Bool} {a b : γ} {l : List γ} :
    b ∈ insertBy before a l ↔ b = a ∨ b ∈ l := by
  rw [(insertBy_perm before a l).mem_iff, List.mem_cons]

theorem mem_sortBy {before : γ → γ → Bool} {a : γ} {l : List γ} : a ∈ sortBy before l ↔ a ∈ l :=
  (sortBy_perm before l).mem_iff

theorem pairwise_insertBy {before : γ → γ → Bool} {D : γ → Prop} (h : Weak before D) {a : γ}
    {l : List γ} (ha : D a) (hl : ∀ b ∈ l, D b)
    (hsorted : l.Pairwise fun a b => before b a = false) :
    (insertBy before a l).Pairwise fun a b => before b a = false := by
  induction l with
  | nil => exact List.pairwise_singleton _ a
  | cons b rest ih =>
    have hb := hl b List.mem_cons_self
    have hrest : ∀ c ∈ rest, D c := fun c hc => hl c (List.mem_cons_of_mem b hc)
    have hsorted' := List.pairwise_cons.1 hsorted
    rw [insertBy]
    split
    next hba =>
      refine List.pairwise_cons.2 ⟨fun c hc => ?_, ih hrest hsorted'.2⟩
      rcases mem_insertBy.1 hc with hca | hc
      · rw [hca]
        exact h.asymm hb ha hba
      · exact hsorted'.1 c hc
    next hba =>
      refine List.pairwise_cons.2 ⟨fun c hc => ?_, hsorted⟩
      rw [Bool.not_eq_true] at hba
      rcases List.mem_cons.1 hc with hcb | hc
      · rw [hcb]
        exact hba
      · exact h.not_before_trans (hrest c hc) hb ha (hsorted'.1 c hc) hba

theorem pairwise_sortBy {before : γ → γ → Bool} {D : γ → Prop} (h : Weak before D) {l : List γ}
    (hl : ∀ a ∈ l, D a) : (sortBy before l).Pairwise fun a b => before b a = false := by
  induction l with
  | nil => exact .nil
  | cons a rest ih =>
    have hrest : ∀ b ∈ rest, D b := fun b hb => hl b (List.mem_cons_of_mem a hb)
    exact pairwise_insertBy h (hl a List.mem_cons_self) (fun b hb => hrest b (mem_sortBy.1 hb))
      (ih hrest)

theorem takeWhile_sortBy_perm {δ : Type} {before : γ → γ → Bool} {D : γ → Prop}
    (h : Weak before D) {g : δ → γ} {l : List δ} {bound : γ} (hl : ∀ a ∈ l, D (g a))
    (hbound : D bound) :
    ((sortBy (fun a b => before (g a) (g b)) l).takeWhile fun a => !before bound (g a)).Perm
      (l.filter fun a => !before bound (g a)) := by
  rw [takeWhile_eq_filter]
  · exact (sortBy_perm _ l).filter _
  · refine (pairwise_sortBy (h.comap g) hl).imp_of_mem fun {a b} ha hb hab hstays => ?_
    rw [Bool.not_eq_true'] at hstays ⊢
    exact h.not_before_trans hbound (hl b (mem_sortBy.1 hb)) (hl a (mem_sortBy.1 ha)) hstays hab

/-- Whether an interval overlaps the one from `low` to `high`. -/
def overlaps (lt : α → α → Bool) (low high : α) (i : Interval α β) : Bool :=
  !lt high i.low && !lt i.high low

variable {lt : α → α → Bool} {D : α → Prop} {intervals : List (Interval α β)}
  {low centre high : α} {i : Interval α β}

theorem mem_ends {a : α} : a ∈ ends intervals ↔ ∃ i ∈ intervals, a = i.low ∨ a = i.high := by
  simp [ends]

theorem low_mem_ends (hi : i ∈ intervals) : i.low ∈ ends intervals :=
  mem_ends.2 ⟨i, hi, .inl rfl⟩

theorem high_mem_ends (hi : i ∈ intervals) : i.high ∈ ends intervals :=
  mem_ends.2 ⟨i, hi, .inr rfl⟩

def before (lt : α → α → Bool) (centre : α) (intervals : List (Interval α β)) :
    List (Interval α β) := intervals.filter fun i => lt i.high centre

def after (lt : α → α → Bool) (centre : α) (intervals : List (Interval α β)) :
    List (Interval α β) := intervals.filter fun i => !lt i.high centre && lt centre i.low

def around (lt : α → α → Bool) (centre : α) (intervals : List (Interval α β)) :
    List (Interval α β) := intervals.filter fun i => !lt i.high centre && !lt centre i.low

theorem grow_succ (h : Weak lt D) (hD : ∀ a ∈ ends intervals, D a) (hsome : intervals ≠ [])
    (fuel : Nat) : ∃ least centre greatest, centre ∈ ends intervals ∧
      (∀ a ∈ ends intervals, lt a least = false) ∧ (∀ a ∈ ends intervals, lt greatest a = false) ∧
      D least ∧ D greatest ∧
      grow lt (fuel + 1) intervals = .node least centre greatest
        (sortBy (fun a b => lt a.low b.low) (around lt centre intervals))
        (sortBy (fun a b => lt b.high a.high) (around lt centre intervals))
        (grow lt fuel (before lt centre intervals)) (grow lt fuel (after lt centre intervals)) := by
  have hmem : ∀ a, a ∈ sortBy lt (ends intervals) ↔ a ∈ ends intervals := fun a => mem_sortBy
  have hsorted := pairwise_sortBy h hD
  have hpoints : sortBy lt (ends intervals) ≠ [] := by
    obtain ⟨i, rest, rfl⟩ := List.exists_cons_of_ne_nil hsome
    exact List.ne_nil_of_mem ((hmem i.low).2 (low_mem_ends List.mem_cons_self))
  rw [grow]
  generalize sortBy lt (ends intervals) = points at hmem hsorted hpoints
  have hhalf : points.length / 2 < points.length := by
    have := List.length_pos_iff.2 hpoints
    omega
  refine ⟨points.head hpoints, points[points.length / 2], points.getLast hpoints,
    (hmem _).1 (List.getElem_mem hhalf), fun a ha => ?_, fun a ha => ?_,
    hD _ ((hmem _).1 (List.head_mem hpoints)), hD _ ((hmem _).1 (List.getLast_mem hpoints)), ?_⟩
  · obtain ⟨first, rest, rfl⟩ := List.exists_cons_of_ne_nil hpoints
    rcases List.mem_cons.1 ((hmem a).2 ha) with hfirst | hrest
    · rw [hfirst]
      exact h.irrefl (hD first ((hmem first).1 List.mem_cons_self))
    · exact (List.pairwise_cons.1 hsorted).1 a hrest
  · have hlast := List.dropLast_concat_getLast hpoints
    have ha' := (hmem a).2 ha
    rw [← hlast] at ha' hsorted
    rcases List.mem_append.1 ha' with hinit | hlast
    · exact (List.pairwise_append.1 hsorted).2.2 a hinit _ (List.mem_singleton_self _)
    · rw [List.mem_singleton.1 hlast]
      exact h.irrefl (hD _ ((hmem _).1 (List.getLast_mem hpoints)))
  · rw [List.head?_eq_some_head hpoints, List.getElem?_eq_getElem hhalf,
      List.getLast?_eq_some_getLast hpoints]
    rfl

theorem length_split (h : Weak lt D) (hD : ∀ a ∈ ends intervals, D a)
    (hright : ∀ i ∈ intervals, lt i.high i.low = false) (hcentre : centre ∈ ends intervals) :
    (before lt centre intervals).length < intervals.length ∧
      (after lt centre intervals).length < intervals.length := by
  obtain ⟨i, hi, hend⟩ := mem_ends.1 hcentre
  have hlow := hD _ (low_mem_ends hi)
  have hhigh := hD _ (high_mem_ends hi)
  have hstays : lt i.high centre = false ∧ lt centre i.low = false := by
    rcases hend with hend | hend
    · rw [hend]
      exact ⟨hright i hi, h.irrefl hlow⟩
    · rw [hend]
      exact ⟨h.irrefl hhigh, hright i hi⟩
  constructor
  · apply List.length_filter_lt_length_iff_exists.2
    exact ⟨i, hi, by simp [hstays.1]⟩
  · apply List.length_filter_lt_length_iff_exists.2
    exact ⟨i, hi, by simp [hstays.2]⟩

theorem overlapping_perm (h : Weak lt D) (hD : ∀ a ∈ ends intervals, D a) (hlow : D low)
    (hhigh : D high) (hcentre : D centre) (hask : lt high low = false) :
    (overlapping lt low high centre
      (sortBy (fun a b => lt a.low b.low) (around lt centre intervals))
      (sortBy (fun a b => lt b.high a.high) (around lt centre intervals))).Perm
      ((around lt centre intervals).filter (overlaps lt low high)) := by
  have hhere : ∀ i ∈ around lt centre intervals, D i.low ∧ D i.high ∧ lt i.high centre = false ∧
      lt centre i.low = false := by
    intro i hi
    simp only [around, List.mem_filter, Bool.and_eq_true, Bool.not_eq_true'] at hi
    exact ⟨hD _ (low_mem_ends hi.1), hD _ (high_mem_ends hi.1), hi.2.1, hi.2.2⟩
  generalize around lt centre intervals = here at hhere
  have hlasts : lt centre low = false → ∀ i ∈ here, lt i.high low = false := fun hc i hi =>
    h.not_before_trans (hhere i hi).2.1 hcentre hlow (hhere i hi).2.2.1 hc
  have hbegins : lt high centre = false → ∀ i ∈ here, lt high i.low = false := fun hc i hi =>
    h.not_before_trans hhigh hcentre (hhere i hi).1 hc (hhere i hi).2.2.2
  rw [overlapping]
  split
  next hbefore =>
    -- All of them last beyond `low`, so those count that begin in time.
    have hc : lt centre low = false := by
      cases hc : lt centre low with
      | false => rfl
      | true => exact (h.trans hhigh hcentre hlow hbefore hc).symm.trans hask
    refine (takeWhile_sortBy_perm h (fun i hi => (hhere i hi).1) hhigh).trans ?_
    refine .of_eq (List.filter_congr fun i hi => ?_)
    rw [overlaps, hlasts hc i hi, Bool.not_false, Bool.and_true]
  next hbefore =>
    rw [Bool.not_eq_true] at hbefore
    split
    next hafter =>
      -- All of them begin before `high`, so those count that last long enough.
      refine (takeWhile_sortBy_perm h.flip (fun i hi => (hhere i hi).2.1) hlow).trans ?_
      refine .of_eq (List.filter_congr fun i hi => ?_)
      rw [overlaps, hbegins hbefore i hi, Bool.not_false, Bool.true_and]
    next hafter =>
      rw [Bool.not_eq_true] at hafter
      have hall : here.filter (overlaps lt low high) = here := by
        apply List.filter_eq_self.2
        intro i hi
        rw [overlaps, hbegins hbefore i hi, hlasts hafter i hi]
        rfl
      rw [hall]
      exact sortBy_perm _ here

theorem split_perm (lt : α → α → Bool) (centre : α) (intervals : List (Interval α β)) :
    (around lt centre intervals ++ before lt centre intervals ++ after lt centre intervals).Perm
      intervals := by
  have hrest : (around lt centre intervals ++ after lt centre intervals).Perm
      (intervals.filter fun i => !lt i.high centre) := by
    have h := List.filter_append_perm (fun i : Interval α β => lt centre i.low)
      (intervals.filter fun i => !lt i.high centre)
    simp only [List.filter_filter] at h
    refine (List.perm_append_comm.trans ?_).trans h
    rw [around, after]
    simp only [Bool.and_comm]
    rfl
  have h := List.filter_append_perm (fun i : Interval α β => lt i.high centre) intervals
  refine (List.Perm.trans ?_ (hrest.append_left (before lt centre intervals))).trans h
  rw [← List.append_assoc]
  exact List.perm_append_comm.append_right _

section

variable (h : Weak lt D) (hlow : D low) (hhigh : D high) (hD : ∀ a ∈ ends intervals, D a)
include h hD

include hlow hhigh in
theorem filter_eq_nil_of_beyond {least greatest : α} (hDleast : D least) (hDgreatest : D greatest)
    (hleast : ∀ a ∈ ends intervals, lt a least = false)
    (hgreatest : ∀ a ∈ ends intervals, lt greatest a = false)
    (hout : (lt high least || lt greatest low) = true) :
    intervals.filter (overlaps lt low high) = [] := by
  apply List.filter_eq_nil_iff.2
  intro i hi hover
  simp only [overlaps, Bool.and_eq_true, Bool.not_eq_true'] at hover
  have hDlow := hD _ (low_mem_ends hi)
  have hDhigh := hD _ (high_mem_ends hi)
  rw [Bool.or_eq_true] at hout
  rcases hout with hout | hout
  · rw [h.not_before_trans hhigh hDlow hDleast hover.1 (hleast _ (low_mem_ends hi))] at hout
    cases hout
  · rw [h.not_before_trans hDgreatest hDhigh hlow (hgreatest _ (high_mem_ends hi)) hover.2] at hout
    cases hout

include hlow in
theorem filter_before_eq_nil {centre : α} (hDcentre : D centre) (hafter : lt low centre = false) :
    (before lt centre intervals).filter (overlaps lt low high) = [] := by
  apply List.filter_eq_nil_iff.2
  intro i hi hover
  obtain ⟨hi, hend⟩ := List.mem_filter.1 hi
  simp only [overlaps, Bool.and_eq_true, Bool.not_eq_true'] at hover
  rw [h.not_before_trans (hD _ (high_mem_ends hi)) hlow hDcentre hover.2 hafter] at hend
  cases hend

include hhigh in
theorem filter_after_eq_nil {centre : α} (hDcentre : D centre) (hbefore : lt centre high = false) :
    (after lt centre intervals).filter (overlaps lt low high) = [] := by
  apply List.filter_eq_nil_iff.2
  intro i hi hover
  obtain ⟨hi, hbegin⟩ := List.mem_filter.1 hi
  simp only [overlaps, Bool.and_eq_true, Bool.not_eq_true'] at hover hbegin
  have hnot := h.not_before_trans hDcentre hhigh (hD _ (low_mem_ends hi)) hbefore hover.1
  rw [hnot] at hbegin
  cases hbegin.2

end

/-- A search in a grown tree finds what overlaps, and each as often as it was put in. -/
theorem search_grow_perm (h : Weak lt D) (hlow : D low) (hhigh : D high)
    (hask : lt high low = false) {fuel : Nat} (hfuel : intervals.length ≤ fuel)
    (hD : ∀ a ∈ ends intervals, D a) (hright : ∀ i ∈ intervals, lt i.high i.low = false) :
    ((grow lt fuel intervals).search lt low high).Perm
      ((intervals.filter (overlaps lt low high)).map Interval.data) := by
  induction fuel generalizing intervals with
  | zero =>
    rw [List.eq_nil_of_length_eq_zero (Nat.le_zero.1 hfuel)]
    rfl
  | succ fuel ih =>
    by_cases hsome : intervals = []
    · rw [hsome]
      rfl
    obtain ⟨least, centre, greatest, hcentre, hleast, hgreatest, hDleast, hDgreatest, hgrow⟩ :=
      grow_succ h hD hsome fuel
    have hDcentre := hD centre hcentre
    rw [hgrow, Node.search]
    split
    next hout =>
      rw [filter_eq_nil_of_beyond h hlow hhigh hD hDleast hDgreatest hleast hgreatest hout]
      rfl
    next hin =>
      have hsub : ∀ {part : List (Interval α β)}, part ⊆ intervals →
          part.length < intervals.length → ((grow lt fuel part).search lt low high).Perm
            ((part.filter (overlaps lt low high)).map Interval.data) := by
        intro part hpart hlength
        refine ih (by omega) (fun a ha => ?_) fun i hi => hright i (hpart hi)
        obtain ⟨i, hi, ha⟩ := mem_ends.1 ha
        exact hD a (mem_ends.2 ⟨i, hpart hi, ha⟩)
      obtain ⟨hlengthBefore, hlengthAfter⟩ := length_split h hD hright hcentre
      have hleft : (if lt low centre then
          (grow lt fuel (before lt centre intervals)).search lt low high else []).Perm
            (((before lt centre intervals).filter (overlaps lt low high)).map Interval.data) := by
        split
        · exact hsub (List.filter_subset_self _) hlengthBefore
        next hafter =>
          rw [filter_before_eq_nil h hlow hD hDcentre (Bool.not_eq_true _ ▸ hafter)]
          rfl
      have hrightPart : (if lt centre high then
          (grow lt fuel (after lt centre intervals)).search lt low high else []).Perm
            (((after lt centre intervals).filter (overlaps lt low high)).map Interval.data) := by
        split
        · exact hsub (List.filter_subset_self _) hlengthAfter
        next hbefore =>
          rw [filter_after_eq_nil h hhigh hD hDcentre (Bool.not_eq_true _ ▸ hbefore)]
          rfl
      have hhere := (overlapping_perm h hD hlow hhigh hDcentre hask).map Interval.data
      refine ((hhere.append hleft).append hrightPart).trans ?_
      rw [← List.map_append, ← List.map_append, ← List.filter_append, ← List.filter_append]
      exact ((split_perm lt centre intervals).filter _).map _

theorem check_eq_ok {less : α → α → Except Fault Bool} :
    check less intervals = .ok () ↔ ∀ i ∈ intervals, less i.high i.low = .ok false := by
  induction intervals with
  | nil => exact ⟨fun _ _ h => (List.not_mem_nil h).elim, fun _ => rfl⟩
  | cons i rest ih =>
    rw [List.forall_mem_cons, ← ih, check, bind_eq_ok]
    constructor
    · intro ⟨inverted, hi, hrest⟩
      cases inverted with
      | true => cases hrest
      | false => exact ⟨hi, hrest⟩
    · intro ⟨hi, hrest⟩
      exact ⟨false, hi, hrest⟩

theorem build_eq_ok {less : α → α → Except Fault Bool} {t : IntervalTree α β} :
    build less intervals = .ok t ↔ (∀ i ∈ intervals, less i.high i.low = .ok false) ∧
      t = ⟨less, intervals.length, grow (holds less) intervals.length intervals⟩ := by
  rw [build, bind_eq_ok]
  constructor
  · intro ⟨_, hcheck, ht⟩
    cases ht
    exact ⟨check_eq_ok.1 hcheck, rfl⟩
  · intro ⟨hall, ht⟩
    rw [ht]
    exact ⟨(), check_eq_ok.2 hall, rfl⟩

/-- In a tree that was built, a search finds what overlaps, each as often as it was put in; an
inverted interval overlaps nothing. -/
theorem search_perm {less : α → α → Except Fault Bool} {t : IntervalTree α β} (low high : α)
    (h : Weak (holds less) D) (hless : ∀ {a b}, D a → D b → less a b = .ok (holds less a b))
    (hD : ∀ a ∈ ends intervals, D a) (hbuild : build less intervals = .ok t) (hlow : D low)
    (hhigh : D high) : ∃ found, t.search low high = .ok found ∧ found.Perm
      (if holds less high low then []
      else (intervals.filter (overlaps (holds less) low high)).map Interval.data) := by
  obtain ⟨hright, ht⟩ := build_eq_ok.1 hbuild
  have hsearch : t.search low high = .ok (if holds less high low then []
      else (grow (holds less) intervals.length intervals).search (holds less) low high) := by
    rw [ht, search]
    dsimp only
    rw [hless hhigh hlow]
    cases holds less high low <;> rfl
  refine ⟨_, hsearch, ?_⟩
  split
  · exact .refl _
  next hask =>
    have hright' : ∀ i ∈ intervals, holds less i.high i.low = false := by
      intro i hi
      rw [holds, hright i hi]
    exact search_grow_perm h hlow hhigh (Bool.not_eq_true _ ▸ hask) le_rfl hD hright'

end IntervalTree
end SecondaryIndex
