import Mathlib.Data.List.Induction
import SecondaryIndex.Proofs.Order

namespace SecondaryIndex.Bytes

/-- Takes bytes 0xFF off the end, one after the other, until another byte or none stands there. -/
inductive Trims : Bytes → Bytes → Prop
  | stop {b : Bytes} (h : b.getLast? ≠ some 0xFF) : Trims b b
  | drop {b t : Bytes} (h : Trims b t) : Trims (b ++ [0xFF]) t

def raised (b : Bytes) : Option Bytes := b.getLast?.map fun x => b.dropLast ++ [x + 1]

variable {b s above : Bytes} {x y : UInt8}

theorem successor_concat (b : Bytes) (x : UInt8) :
    (b ++ [x]).successor = if x = 0xFF then b.successor else some (b ++ [x + 1]) := by
  induction b with
  | nil => rfl
  | cons y rest ih =>
    rw [List.cons_append, successor, ih]
    by_cases hx : x = 0xFF
    · rw [if_pos hx, if_pos hx, successor]
    · rw [if_neg hx, if_neg hx]
      rfl

/-- The successor is what comes of trimming the string and raising the last byte that is left. -/
theorem exists_trims (b : Bytes) : ∃ t, Trims b t ∧ b.successor = raised t := by
  induction b using List.reverseRecOn with
  | nil => exact ⟨[], .stop (by simp), rfl⟩
  | append_singleton rest x ih =>
    by_cases hx : x = 0xFF
    · obtain ⟨t, ht, hsuccessor⟩ := ih
      refine ⟨t, hx ▸ .drop ht, ?_⟩
      rw [successor_concat, if_pos hx, hsuccessor]
    · refine ⟨rest ++ [x], .stop (by simpa using hx), ?_⟩
      rw [successor_concat, if_neg hx]
      simp [raised]

theorem successor_eq_none_iff : b.successor = none ↔ ∀ x ∈ b, x = 0xFF := by
  induction b using List.reverseRecOn with
  | nil => simp [successor]
  | append_singleton rest x ih =>
    rw [successor_concat, List.forall_mem_append, List.forall_mem_singleton]
    by_cases hx : x = 0xFF
    · rw [if_pos hx, ih, and_iff_left hx]
    · simp [hx]

theorem eq_of_le_of_le (hxy : (Ord.compare x y).isLE) (hyx : (Ord.compare y x).isLE) : x = y :=
  Std.LawfulEqOrd.eq_of_compare (Std.OrientedCmp.isLE_antisymm hxy hyx)

theorem isLE_max (x : UInt8) : (Ord.compare x 0xFF).isLE := by
  rw [Std.isLE_compare, UInt8.le_iff_toNat_le]
  have := x.toNat_lt
  change x.toNat ≤ 255
  omega

theorem isLE_of_lt_add_one (h : Ord.compare y (x + 1) = .lt) : (Ord.compare y x).isLE := by
  rw [Std.isLE_compare]
  have hlt : y < x + 1 := Std.compare_eq_lt.1 h
  grind

theorem prefix_of_max (hmax : ∀ x ∈ b, x = 0xFF) (h : (Ord.compare b s).isLE) : b <+: s := by
  induction b generalizing s with
  | nil => exact List.nil_prefix
  | cons x rest ih =>
    obtain ⟨hx, hrest⟩ := List.forall_mem_cons.1 hmax
    cases s with
    | nil => cases h
    | cons y s =>
      rw [compare_cons] at h
      have hxy : x = y := by
        apply eq_of_le_of_le
        · exact Ordering.isLE_left_of_isLE_then h
        · rw [hx]
          exact isLE_max y
      subst hxy
      rw [compare_self, Ordering.eq_then] at h
      exact (List.prefix_cons_inj x).2 (ih hrest h)

theorem prefix_of_lt_successor (hle : (Ord.compare b s).isLE) (habove : b.successor = some above)
    (hlt : Ord.compare s above = .lt) : b <+: s := by
  induction b generalizing s above with
  | nil => cases habove
  | cons x rest ih =>
    cases s with
    | nil => cases hle
    | cons y s =>
      rw [compare_cons] at hle
      have hxy : (Ord.compare x y).isLE := Ordering.isLE_left_of_isLE_then hle
      rw [successor] at habove
      cases hrest : successor rest with
      | some raised =>
        rw [hrest] at habove
        cases habove
        rw [compare_cons] at hlt
        have hyx : (Ord.compare y x).isLE := by
          apply Ordering.isLE_left_of_isLE_then
          rw [hlt]
          rfl
        have heq : x = y := eq_of_le_of_le hxy hyx
        subst heq
        rw [compare_self, Ordering.eq_then] at hle hlt
        exact (List.prefix_cons_inj x).2 (ih hle hrest hlt)
      | none =>
        rw [hrest] at habove
        dsimp only at habove
        split at habove
        · cases habove
        next =>
          cases habove
          rw [compare_cons] at hlt
          -- Nothing stands below the end of a string, so the first byte decides.
          have hyx : Ord.compare y (x + 1) = .lt := by
            cases hy : Ord.compare y (x + 1) with
            | lt => rfl
            | eq =>
              rw [hy, Ordering.eq_then] at hlt
              cases s <;> cases hlt
            | gt =>
              rw [hy] at hlt
              cases hlt
          have heq : x = y := eq_of_le_of_le hxy (isLE_of_lt_add_one hyx)
          subst heq
          rw [compare_self, Ordering.eq_then] at hle
          exact (List.prefix_cons_inj x).2 (prefix_of_max (successor_eq_none_iff.1 hrest) hle)

/-- Between a string and its successor there are its extensions, and nothing else. -/
theorem startsWith_iff_between (habove : b.successor = some above) (s : Bytes) :
    s.startsWith b ↔ (Ord.compare b s).isLE ∧ Ord.compare s above = .lt := by
  rw [startsWith_iff]
  constructor
  · intro h
    refine ⟨?_, lt_successor h habove⟩
    exact isLE_of_prefix h
  · intro h
    exact prefix_of_lt_successor h.1 habove h.2

theorem startsWith_iff_isLE (hnone : b.successor = none) (s : Bytes) :
    s.startsWith b ↔ (Ord.compare b s).isLE := by
  rw [startsWith_iff]
  constructor
  · intro h
    exact isLE_of_prefix h
  · intro h
    exact prefix_of_max (successor_eq_none_iff.1 hnone) h

/-- Whether a string stands above all extensions of another. -/
def Caps (bound b : Bytes) : Prop := ∀ s : Bytes, s.startsWith b → Ord.compare s bound = .lt

theorem Caps.lt {bound : Bytes} (h : Caps bound b) : Ord.compare b bound = .lt :=
  h b (startsWith_iff.2 List.prefix_rfl)

theorem Caps.not_startsWith {bound : Bytes} (h : Caps bound b) : ¬ bound.startsWith b := by
  intro hbound
  have hself : Ord.compare bound bound = .eq := Std.ReflOrd.compare_self
  rw [h bound hbound] at hself
  cases hself

theorem caps_iff (habove : b.successor = some above) (bound : Bytes) :
    Caps bound b ↔ (Ord.compare above bound).isLE := by
  constructor
  · intro h
    by_contra hlt
    have hbelow : Ord.compare bound above = .lt := by
      rw [← Std.OrientedCmp.gt_iff_lt]
      simpa using hlt
    apply h.not_startsWith
    rw [startsWith_iff_between habove, h.lt]
    exact ⟨rfl, hbelow⟩
  · intro hle s hs
    rw [startsWith_iff_between habove] at hs
    exact Std.TransCmp.lt_of_lt_of_isLE hs.2 hle

theorem not_caps (hnone : b.successor = none) (bound : Bytes) : ¬ Caps bound b := by
  intro h
  apply h.not_startsWith
  rw [startsWith_iff_isLE hnone, h.lt]
  rfl

/-- A string that is not made of bytes 0xFF alone has a successor, found by trimming it and raising
its last byte: its extensions are all that stands between the two, and nothing less is above them
all. The extensions of the other strings are all that stands from there on, and no string is above
them all. -/
theorem successor_least (b : Bytes) : (∃ t, Trims b t ∧ b.successor = raised t) ∧
    (b.successor = none ↔ ∀ x ∈ b, x = 0xFF) ∧
    match b.successor with
    | some above =>
      (∀ s : Bytes, s.startsWith b ↔ (Ord.compare b s).isLE ∧ Ord.compare s above = .lt) ∧
        ∀ bound, Caps bound b ↔ (Ord.compare above bound).isLE
    | none =>
      (∀ s : Bytes, s.startsWith b ↔ (Ord.compare b s).isLE) ∧ ∀ bound, ¬ Caps bound b := by
  refine ⟨exists_trims b, successor_eq_none_iff, ?_⟩
  cases h : b.successor with
  | some above => exact ⟨startsWith_iff_between h, caps_iff h⟩
  | none => exact ⟨startsWith_iff_isLE h, not_caps h⟩

example : successor [0x61, 0x7F, 0xFF] = some [0x61, 0x80] := by decide

end SecondaryIndex.Bytes
