import SecondaryIndex.Bytes
import SecondaryIndex.Fault

namespace SecondaryIndex.Bigint

/-- The lowest `k` digits of `n` to base 256, the highest first. -/
def digits : Nat → Nat → Bytes
  | 0, _ => []
  | k + 1, n => digits k (n / 256) ++ [UInt8.ofNat n]

def value (b : Bytes) : Nat := b.foldl (fun n x => 256 * n + x.toNat) 0

def encode (v : Int64) : Bytes := digits 8 (v.toInt - Int64.minValue.toInt).toNat

def decode (b : Bytes) : Except Fault Int64 :=
  if b.length = 8 then .ok (Int64.ofInt (value b + Int64.minValue.toInt))
  else .error (.badWidth b.length)

/-- The order of two stored numbers. The first is read before the second. -/
def compare (a b : Bytes) : Except Fault Ordering := do
  let x ← decode a
  let y ← decode b
  return Ord.compare x.toInt y.toInt

theorem length_digits (k n : Nat) : (digits k n).length = k := by
  induction k generalizing n with
  | zero => rfl
  | succ k ih => simp [digits, ih]

theorem length_encode (v : Int64) : (encode v).length = 8 := length_digits 8 _

theorem decode_of_length_ne {b : Bytes} (h : b.length ≠ 8) :
    decode b = .error (.badWidth b.length) := if_neg h

end SecondaryIndex.Bigint
