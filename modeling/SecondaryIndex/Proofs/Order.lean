import SecondaryIndex.Condition
import SecondaryIndex.Proofs.Intervals

namespace SecondaryIndex

namespace Bigint

def number (b : Bytes) : Int := (Int64.ofInt (value b + Int64.minValue.toInt)).toInt

end Bigint

namespace ValueType

variable {type : ValueType} {a b c : Bytes}

def WellFormed (type : ValueType) (b : Bytes) : Prop := type = bigint → b.length = 8

instance (type : ValueType) (b : Bytes) : Decidable (type.WellFormed b) :=
  inferInstanceAs (Decidable (type = bigint → b.length = 8))

def order : ValueType → Bytes → Bytes → Ordering
  | bigint, a, b => Ord.compare (Bigint.number a) (Bigint.number b)
  | _, a, b => Ord.compare a b

instance (type : ValueType) : Std.TransCmp type.order := by
  cases type with
  | bigint => exact inferInstanceAs (Std.TransCmp (compareOn Bigint.number))
  | text => exact inferInstanceAs (Std.TransCmp (Ord.compare : Bytes → Bytes → Ordering))
  | ascii => exact inferInstanceAs (Std.TransCmp (Ord.compare : Bytes → Bytes → Ordering))
  | blob => exact inferInstanceAs (Std.TransCmp (Ord.compare : Bytes → Bytes → Ordering))

theorem order_of_ne_bigint (h : type ≠ bigint) : type.order a b = Ord.compare a b := by
  cases type with
  | bigint => exact absurd rfl h
  | text | ascii | blob => rfl

/-- A comparison succeeds just for two well-formed values, and tells their order. -/
theorem compare_eq_ok {o : Ordering} :
    type.compare a b = .ok o ↔ type.WellFormed a ∧ type.WellFormed b ∧ type.order a b = o := by
  by_cases htype : type = bigint
  · subst htype
    change Bigint.compare a b = _ ↔ _
    by_cases ha : a.length = 8
    · by_cases hb : b.length = 8
      · rw [Bigint.compare, Bigint.decode, if_pos ha, Bigint.decode, if_pos hb]
        change Except.ok _ = Except.ok o ↔ _
        rw [Except.ok.injEq]
        exact ⟨fun h => ⟨fun _ => ha, fun _ => hb, h⟩, fun h => h.2.2⟩
      · rw [Bigint.compare, Bigint.decode, if_pos ha, Bigint.decode, if_neg hb]
        exact ⟨nofun, fun h => absurd (h.2.1 rfl) hb⟩
    · rw [Bigint.compare, Bigint.decode, if_neg ha]
      exact ⟨nofun, fun h => absurd (h.1 rfl) ha⟩
  · rw [compare_of_ne_bigint htype, Except.ok.injEq, order_of_ne_bigint htype]
    exact ⟨fun h => ⟨fun h => absurd h htype, fun h => absurd h htype, h⟩, fun h => h.2.2⟩

theorem compare_of_wellFormed (ha : type.WellFormed a) (hb : type.WellFormed b) :
    type.compare a b = .ok (type.order a b) := compare_eq_ok.2 ⟨ha, hb, rfl⟩

def below (type : ValueType) (a b : Bytes) : Bool := (type.order a b).isLT

theorem less_of_wellFormed (ha : type.WellFormed a) (hb : type.WellFormed b) :
    type.less a b = .ok (type.below a b) := by
  rw [less, compare_of_wellFormed ha hb]
  rfl

theorem less_eq_ok {r : Bool} :
    type.less a b = .ok r ↔ type.WellFormed a ∧ type.WellFormed b ∧ type.below a b = r := by
  rw [less, bind_eq_ok]
  constructor
  · intro ⟨o, ho, hr⟩
    cases hr
    obtain ⟨ha, hb, horder⟩ := compare_eq_ok.1 ho
    exact ⟨ha, hb, by rw [below, horder]⟩
  · intro ⟨ha, hb, hr⟩
    exact ⟨type.order a b, compare_of_wellFormed ha hb, by rw [← hr]; rfl⟩

theorem holds_less (ha : type.WellFormed a) (hb : type.WellFormed b) :
    IntervalTree.holds type.less a b = type.below a b := by
  rw [IntervalTree.holds, less_of_wellFormed ha hb]

theorem below_eq_false : type.below a b = false ↔ (type.order b a).isLE := by
  rw [below, ← Std.OrientedCmp.isGT_eq_isLT]
  cases type.order b a <;> decide

theorem weak_below (type : ValueType) : IntervalTree.Weak type.below fun _ => True where
  asymm {a b} _ _ hab := by
    have hab' : type.order a b = .lt := Ordering.isLT_iff_eq_lt.1 hab
    apply below_eq_false.2
    rw [hab']
    rfl
  cotrans {a b c} _ _ _ hac := by
    have hac' : type.order a c = .lt := Ordering.isLT_iff_eq_lt.1 hac
    by_cases hab : type.below a b = true
    · exact .inl hab
    · have hba : (type.order b a).isLE := below_eq_false.1 (Bool.not_eq_true _ ▸ hab)
      exact .inr (Ordering.isLT_iff_eq_lt.2 (Std.TransCmp.lt_of_isLE_of_lt hba hac'))

theorem weak_less (type : ValueType) :
    IntervalTree.Weak (IntervalTree.holds type.less) type.WellFormed where
  asymm {a b} ha hb hab := by
    rw [holds_less ha hb] at hab
    rw [holds_less hb ha]
    exact (weak_below type).asymm trivial trivial hab
  cotrans {a b c} ha hb hc hac := by
    rw [holds_less ha hc] at hac
    rw [holds_less ha hb, holds_less hb hc]
    exact (weak_below type).cotrans trivial trivial trivial hac

end ValueType

namespace Bytes

theorem compare_cons (x y : UInt8) (a b : Bytes) :
    Ord.compare (x :: a) (y :: b) = (Ord.compare x y).then (Ord.compare a b) :=
  List.compareLex_cons_cons

theorem compare_self (x : UInt8) : Ord.compare x x = .eq := Std.ReflOrd.compare_self

theorem isLE_of_prefix {start b : Bytes} (h : start <+: b) : (Ord.compare start b).isLE := by
  induction start generalizing b with
  | nil => cases b <;> rfl
  | cons x rest ih =>
    obtain ⟨tail, rfl⟩ := h
    rw [List.cons_append, compare_cons, compare_self, Ordering.eq_then]
    exact ih (List.prefix_append rest tail)

theorem lt_successor {start b above : Bytes} (h : start <+: b)
    (habove : start.successor = some above) : Ord.compare b above = .lt := by
  induction start generalizing b above with
  | nil => cases habove
  | cons x rest ih =>
    obtain ⟨tail, rfl⟩ := h
    rw [successor] at habove
    cases hrest : successor rest with
    | some raised =>
      rw [hrest] at habove
      cases habove
      rw [List.cons_append, compare_cons, compare_self, Ordering.eq_then]
      exact ih (List.prefix_append rest tail) hrest
    | none =>
      rw [hrest] at habove
      dsimp only at habove
      split at habove
      · cases habove
      next hx =>
        cases habove
        have hlt : Ord.compare x (x + 1) = .lt := Std.compare_eq_lt.2 (by grind)
        rw [List.cons_append, compare_cons, hlt]
        rfl

theorem prefix_of_between {start a b : Bytes} (ha : (Ord.compare start a).isLE)
    (hab : (Ord.compare a b).isLE) (hb : start <+: b) : start <+: a := by
  induction start generalizing a b with
  | nil => exact List.nil_prefix
  | cons x rest ih =>
    obtain ⟨tail, rfl⟩ := hb
    cases a with
    | nil => cases ha
    | cons y a =>
      rw [compare_cons] at ha
      rw [List.cons_append, compare_cons] at hab
      have hxy : x = y := by
        apply Std.LawfulEqOrd.eq_of_compare
        apply Std.OrientedCmp.isLE_antisymm
        · exact Ordering.isLE_left_of_isLE_then ha
        · exact Ordering.isLE_left_of_isLE_then hab
      subst hxy
      rw [compare_self, Ordering.eq_then] at ha hab
      exact (List.prefix_cons_inj x).2 (ih ha hab (List.prefix_append rest tail))

end Bytes
end SecondaryIndex
