import Mathlib.Algebra.GroupWithZero.Nat
import Mathlib.Algebra.Ring.Int.Defs
import Mathlib.Data.List.Induction
import SecondaryIndex.Proofs.Order

namespace SecondaryIndex

namespace Bigint

variable {a b : Bytes}

theorem value_concat (b : Bytes) (x : UInt8) : value (b ++ [x]) = 256 * value b + x.toNat := by
  simp [value, List.foldl_append]

theorem value_lt (b : Bytes) : value b < 256 ^ b.length := by
  induction b using List.reverseRecOn with
  | nil => decide
  | append_singleton b x ih =>
    have hx : x.toNat < 256 := x.toNat_lt
    rw [value_concat, List.length_append, List.length_singleton, Nat.pow_succ]
    omega

theorem value_injective (hlength : a.length = b.length) (h : value a = value b) : a = b := by
  induction a using List.reverseRecOn generalizing b with
  | nil => exact (List.length_eq_zero_iff.1 hlength.symm).symm
  | append_singleton a x ih =>
    obtain rfl | ⟨b, y, rfl⟩ := b.eq_nil_or_concat'
    · simp at hlength
    have hx : x.toNat < 256 := x.toNat_lt
    have hy : y.toNat < 256 := y.toNat_lt
    rw [value_concat, value_concat] at h
    have hhigh : value a = value b := by omega
    have hlow : x.toNat = y.toNat := by omega
    rw [ih (by simpa using hlength) hhigh, UInt8.toNat_inj.1 hlow]

theorem number_eq (hb : b.length = 8) : number b = value b - 2 ^ 63 := by
  have hvalue := value_lt b
  have hleast : Int64.minValue.toInt = -2 ^ 63 := Int64.toInt_minValue
  rw [hb] at hvalue
  rw [number, hleast, Int64.toInt_ofInt_of_le]
  · omega
  · omega
  · omega

theorem number_injective (ha : a.length = 8) (hb : b.length = 8) (h : number a = number b) :
    a = b := by
  apply value_injective (ha.trans hb.symm)
  rw [number_eq ha, number_eq hb] at h
  omega

end Bigint

theorem ValueType.eq_of_order_eq {type : ValueType} {a b : Bytes} (ha : type.WellFormed a)
    (hb : type.WellFormed b) (h : type.order a b = .eq) : a = b := by
  by_cases htype : type = .bigint
  · subst htype
    apply Bigint.number_injective (ha rfl) (hb rfl)
    exact Std.LawfulEqOrd.eq_of_compare h
  · rw [order_of_ne_bigint htype] at h
    exact Std.LawfulEqOrd.eq_of_compare h

end SecondaryIndex
