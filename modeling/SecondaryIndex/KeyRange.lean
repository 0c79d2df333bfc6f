namespace SecondaryIndex

/-- The key of a row, a signed number of 64 bits. -/
abbrev Token := Int

/-- The tokens from `left` to `right`, none if `left` is the greater one. -/
structure KeyRange where
  left : Token
  right : Token
  deriving DecidableEq

namespace KeyRange

def full : KeyRange := ⟨Int64.minValue.toInt, Int64.maxValue.toInt⟩

def isEmpty (r : KeyRange) : Bool := r.right < r.left

def contains (r : KeyRange) (t : Token) : Bool := r.left ≤ t && t ≤ r.right

/-- Whether the range shares a token with those from `low` to `high`. -/
def meets (r : KeyRange) (low high : Token) : Bool := !r.isEmpty && low ≤ r.right && r.left ≤ high

def text (r : KeyRange) : String := s!"[{r.left}, {r.right}]"

theorem isEmpty_iff {r : KeyRange} : r.isEmpty ↔ ∀ t, ¬ r.contains t := by
  simp only [isEmpty, contains, decide_eq_true_eq, Bool.and_eq_true]
  exact ⟨fun h t => by lia, fun h => by have := h r.left; lia⟩

theorem meets_iff {r : KeyRange} {low high : Token} (h : low ≤ high) :
    r.meets low high ↔ ∃ t, r.contains t ∧ low ≤ t ∧ t ≤ high := by
  simp only [meets, isEmpty, contains, Bool.and_eq_true, Bool.not_eq_true', decide_eq_true_eq,
    decide_eq_false_iff_not]
  constructor
  · intro ⟨⟨h₁, h₂⟩, h₃⟩
    by_cases hl : low ≤ r.left
    · exact ⟨r.left, by lia⟩
    · exact ⟨low, by lia⟩
  · rintro ⟨t, _⟩
    lia

end KeyRange
end SecondaryIndex
