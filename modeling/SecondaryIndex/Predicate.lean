import SecondaryIndex.Bytes

namespace SecondaryIndex

structure Bound where
  value : Bytes
  inclusive : Bool
  deriving DecidableEq

namespace Bound

/-- A lower value comes first, and of two equal ones the exclusive bound. -/
instance : Ord Bound := ⟨compareLex (compareOn value) (compareOn inclusive)⟩

instance : Std.TransOrd Bound :=
  inferInstanceAs (Std.TransCmp (compareLex (compareOn value) (compareOn inclusive)))

instance : Std.LawfulEqOrd Bound where
  compare_self := Std.ReflCmp.compare_self
  eq_of_compare {a b} h := by
    have h' : (Ord.compare a.value b.value).then (Ord.compare a.inclusive b.inclusive) = .eq := h
    rw [Ordering.then_eq_eq, Std.LawfulEqOrd.compare_eq_iff_eq,
      Std.LawfulEqOrd.compare_eq_iff_eq] at h'
    cases a
    cases b
    cases h'.1
    cases h'.2
    rfl

end Bound

inductive Predicate
  | eq (value : Bytes)
  | notEq (value : Bytes)
  | range (lower upper : Option Bound)
  | startsWith (start : Bytes)
  | contains (part : Bytes)
  deriving DecidableEq

namespace Predicate

def name : Predicate → String
  | eq _ => "EQ"
  | notEq _ => "NOT_EQ"
  | range _ _ => "RANGE"
  | startsWith _ => "PREFIX"
  | contains _ => "CONTAINS"

def rank : Predicate → Nat
  | eq _ => 0
  | notEq _ => 1
  | range _ _ => 2
  | startsWith _ => 3
  | contains _ => 4

/-- The bound that a predicate sets from below. A single value counts as an inclusive one. -/
def lower : Predicate → Option Bound
  | eq v | notEq v | startsWith v | contains v => some ⟨v, true⟩
  | range lower _ => lower

def upper : Predicate → Option Bound
  | eq v | notEq v => some ⟨v, true⟩
  | range _ upper => upper
  | startsWith _ | contains _ => none

/-- Predicates are ordered by kind, then by lower and by upper bound, an absent one first. -/
instance : Ord Predicate :=
  ⟨compareLex (compareOn rank) (compareLex (compareOn lower) (compareOn upper))⟩

instance : Std.TransOrd Predicate :=
  inferInstanceAs (Std.TransCmp
    (compareLex (compareOn rank) (compareLex (compareOn lower) (compareOn upper))))

/-- Kind and bounds tell two predicates apart. -/
theorem eq_of_rank_of_bounds {p q : Predicate} (hr : p.rank = q.rank) (hl : p.lower = q.lower)
    (hu : p.upper = q.upper) : p = q := by
  cases p <;> cases q <;> simp_all [rank, lower, upper]

instance : Std.LawfulEqOrd Predicate where
  compare_self := Std.ReflCmp.compare_self
  eq_of_compare {p q} h := by
    have h' : (Ord.compare p.rank q.rank).then
        ((Ord.compare p.lower q.lower).then (Ord.compare p.upper q.upper)) = .eq := h
    simp only [Ordering.then_eq_eq, Std.LawfulEqOrd.compare_eq_iff_eq] at h'
    exact eq_of_rank_of_bounds h'.1 h'.2.1 h'.2.2

end Predicate
end SecondaryIndex
