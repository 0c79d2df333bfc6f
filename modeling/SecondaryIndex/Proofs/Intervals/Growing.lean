import Mathlib.Order.Defs.Unbundled
import SecondaryIndex.Proofs.Intervals

namespace SecondaryIndex.IntervalTree

variable {α β : Type} {lt : α → α → Bool} {D : α → Prop} {intervals : List (Interval α β)}

/-- The ends at which intervals are split, in rising order. -/
def points (lt : α → α → Bool) (intervals : List (Interval α β)) : List α :=
  sortBy lt (ends intervals)

/-- The tree that splitting leads to, with no bound on its depth. A tree is finite, so intervals
whose splits went on for ever would lead to none. -/
inductive Grown (lt : α → α → Bool) : List (Interval α β) → Node α β → Prop
  | leaf : Grown lt [] .leaf
  | split {intervals : List (Interval α β)} {low centre high : α} {left right : Node α β}
      (least : (points lt intervals).head? = some low)
      (middle : (points lt intervals)[(points lt intervals).length / 2]? = some centre)
      (greatest : (points lt intervals).getLast? = some high)
      (lefts : Grown lt (before lt centre intervals) left)
      (rights : Grown lt (after lt centre intervals) right) :
      Grown lt intervals (.node low centre high
        (sortBy (fun a b => lt a.low b.low) (around lt centre intervals))
        (sortBy (fun a b => lt b.high a.high) (around lt centre intervals)) left right)

/-- Splits lead to no more than one tree. -/
theorem Grown.unique {root root' : Node α β} (h : Grown lt intervals root)
    (h' : Grown lt intervals root') : root = root' := by
  induction h generalizing root' with
  | leaf =>
    cases h' with
    | leaf => rfl
    | split least => cases least
  | split least middle greatest _ _ ihl ihr =>
    cases h' with
    | leaf => cases least
    | split least' middle' greatest' lefts' rights' =>
      cases least.symm.trans least'
      cases middle.symm.trans middle'
      cases greatest.symm.trans greatest'
      rw [ihl lefts', ihr rights']

theorem points_ne_nil (lt : α → α → Bool) (h : intervals ≠ []) : points lt intervals ≠ [] := by
  obtain ⟨i, rest, rfl⟩ := List.exists_cons_of_ne_nil h
  exact List.ne_nil_of_mem (mem_sortBy.2 (low_mem_ends List.mem_cons_self))

/-- The bound on the levels of a tree is never met: each split leaves an interval at the node. -/
theorem grown_grow (h : Weak lt D) {fuel : Nat} (hfuel : intervals.length ≤ fuel)
    (hD : ∀ a ∈ ends intervals, D a) (hright : ∀ i ∈ intervals, lt i.high i.low = false) :
    Grown lt intervals (grow lt fuel intervals) := by
  induction fuel generalizing intervals with
  | zero =>
    rw [List.eq_nil_of_length_eq_zero (Nat.le_zero.1 hfuel)]
    exact .leaf
  | succ fuel ih =>
    by_cases hsome : intervals = []
    · rw [hsome]
      exact .leaf
    have hpoints := points_ne_nil lt hsome
    have hhalf : (points lt intervals).length / 2 < (points lt intervals).length := by
      have := List.length_pos_iff.2 hpoints
      omega
    have hleast := List.head?_eq_some_head hpoints
    have hmiddle := List.getElem?_eq_getElem hhalf
    have hgreatest := List.getLast?_eq_some_getLast hpoints
    have hcentre : (points lt intervals)[(points lt intervals).length / 2] ∈ ends intervals :=
      mem_sortBy.1 (List.getElem_mem hhalf)
    have hpart : ∀ {part : List (Interval α β)}, part ⊆ intervals →
        part.length < intervals.length → Grown lt part (grow lt fuel part) := by
      intro part hsub hlength
      refine ih (by omega) (fun a ha => ?_) fun i hi => hright i (hsub hi)
      obtain ⟨i, hi, ha⟩ := mem_ends.1 ha
      exact hD a (mem_ends.2 ⟨i, hsub hi, ha⟩)
    obtain ⟨hlefts, hrights⟩ := length_split h hD hright hcentre
    have hsplit := Grown.split hleast hmiddle hgreatest
      (hpart (List.filter_subset_self _) hlefts) (hpart (List.filter_subset_self _) hrights)
    rw [grow]
    unfold points at hleast hmiddle hgreatest hsplit
    rw [hleast, hmiddle, hgreatest]
    exact hsplit

theorem Weak.of_isStrictWeakOrder [IsStrictWeakOrder α fun a b => lt a b = true] :
    Weak lt fun _ => True where
  asymm {a b} _ _ hab := Bool.eq_false_iff.2 (asymm_of (fun a b => lt a b = true) hab)
  cotrans {a b c} _ _ _ hac := by
    by_contra hnone
    obtain ⟨hab, hbc⟩ := not_or.1 hnone
    have hba : ¬ lt b a = true := fun hba => hbc (trans_of (fun a b => lt a b = true) hba hac)
    have hcb : ¬ lt c b = true := fun hcb => hab (trans_of (fun a b => lt a b = true) hac hcb)
    have hincomparable := @IsStrictWeakOrder.incomp_trans α (fun a b => lt a b = true) _ a b c
      ⟨hab, hba⟩ ⟨hbc, hcb⟩
    exact hincomparable.1 hac

theorem check_eq_invertedInterval : check (fun a b => .ok (lt a b)) intervals =
    .error .invertedInterval ↔ ∃ i ∈ intervals, lt i.high i.low = true := by
  induction intervals with
  | nil => simp [check]
  | cons i rest ih =>
    rw [List.exists_mem_cons_iff, ← ih, check]
    cases lt i.high i.low with
    | true => exact ⟨fun _ => .inl rfl, fun _ => rfl⟩
    | false => exact ⟨.inr, fun h => h.resolve_left Bool.false_ne_true⟩

/-- Over a strict weak order of the ends a construction fails just at an inverted interval. Else the
splits come to an end, with the tree that is built, and a search in it finds what overlaps, each as
often as it was put in; nothing overlaps what ends before it begins. -/
theorem build_exact (lt : α → α → Bool) [IsStrictWeakOrder α fun a b => lt a b = true]
    (intervals : List (Interval α β)) :
    (build (fun a b => .ok (lt a b)) intervals = .error .invertedInterval ↔
      ∃ i ∈ intervals, lt i.high i.low = true) ∧
    ((∀ i ∈ intervals, lt i.high i.low = false) → ∃ t,
      build (fun a b => .ok (lt a b)) intervals = .ok t ∧ t.count = intervals.length ∧
      (∀ root, Grown lt intervals root ↔ root = t.root) ∧
      ∀ low high, ∃ found, t.search low high = .ok found ∧
        (lt high low = true → found = []) ∧
        (lt high low = false → found.Perm
          ((intervals.filter fun i => !lt high i.low && !lt i.high low).map Interval.data))) := by
  have hweak : Weak lt fun _ => True := .of_isStrictWeakOrder
  constructor
  · rw [← check_eq_invertedInterval, build]
    cases check (fun a b => .ok (lt a b)) intervals with
    | error f =>
      constructor
      · rintro ⟨⟩
        rfl
      · rintro ⟨⟩
        rfl
    | ok _ =>
      constructor
      · rintro ⟨⟩
      · rintro ⟨⟩
  · intro hright
    have hholds : holds (fun a b => .ok (lt a b)) = lt := rfl
    have hbuild : build (fun a b => .ok (lt a b)) intervals =
        .ok ⟨fun a b => .ok (lt a b), intervals.length, grow lt intervals.length intervals⟩ :=
      build_eq_ok.2 ⟨fun i hi => congrArg Except.ok (hright i hi), rfl⟩
    refine ⟨_, hbuild, rfl, fun root => ?_, fun low high => ?_⟩
    · have hgrown : Grown lt intervals (grow lt intervals.length intervals) :=
        grown_grow hweak le_rfl (fun _ _ => trivial) hright
      exact ⟨fun hroot => hroot.unique hgrown, fun hroot => hroot ▸ hgrown⟩
    · obtain ⟨found, hfound, hperm⟩ := search_perm low high (hholds ▸ hweak)
        (fun _ _ => rfl) (fun _ _ => trivial) hbuild trivial trivial
      refine ⟨found, hfound, fun hinverted => ?_, fun hasked => ?_⟩
      · rw [hholds, if_pos hinverted] at hperm
        exact List.perm_nil.1 hperm
      · rw [hholds, if_neg (Bool.eq_false_iff.1 hasked)] at hperm
        exact hperm

/-- Numbers in the order of their tens, so that some different ones are not told apart. -/
def byTens (a b : Nat) : Bool := decide (a / 10 < b / 10)

theorem isStrictWeakOrder_byTens : IsStrictWeakOrder Nat fun a b => byTens a b = true where
  irrefl a := by simp [byTens]
  trans a b c hab hbc := by
    simp only [byTens, decide_eq_true_eq] at *
    omega
  incomp_trans a b c hab hbc := by
    simp only [byTens, decide_eq_true_eq] at *
    omega

def spread : List (Interval Nat Nat) :=
  [⟨3, 47, 1⟩, ⟨12, 18, 2⟩, ⟨15, 15, 3⟩, ⟨60, 75, 4⟩, ⟨15, 15, 3⟩, ⟨0, 9, 5⟩]

theorem build_spread : (∀ i ∈ spread, byTens i.high i.low = false) ∧
    ∃ t, build (fun a b => .ok (byTens a b)) spread = .ok t ∧ t.count = 6 ∧
      (∃ found, t.search 19 11 = .ok found ∧ found.Perm [1, 2, 3, 3]) ∧
      t.search 20 11 = .ok [] := by
  have := isStrictWeakOrder_byTens
  have hright : ∀ i ∈ spread, byTens i.high i.low = false := by decide
  obtain ⟨t, hbuild, hcount, -, hsearch⟩ := (build_exact byTens spread).2 hright
  refine ⟨hright, t, hbuild, hcount, ?_, ?_⟩
  · obtain ⟨found, hfound, -, hperm⟩ := hsearch 19 11
    exact ⟨found, hfound, hperm (by decide)⟩
  · obtain ⟨found, hfound, hnone, -⟩ := hsearch 20 11
    rw [hfound, hnone (by decide)]

end SecondaryIndex.IntervalTree
