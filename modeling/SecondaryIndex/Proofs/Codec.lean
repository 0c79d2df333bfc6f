import SecondaryIndex.Proofs.Numbers

namespace SecondaryIndex

namespace Bigint

variable {a b : Bytes} {v : Int64}

theorem value_digits (k n : Nat) : value (digits k n) = n % 256 ^ k := by
  induction k generalizing n with
  | zero => exact (Nat.mod_one n).symm
  | succ k ih =>
    have hlow : (UInt8.ofNat n).toNat = n % 256 := UInt8.toNat_ofNat'
    rw [digits, value_concat, ih, hlow, Nat.pow_succ', Nat.mod_mul]
    omega

theorem value_encode (v : Int64) : (value (encode v) : Int) = v.toInt + 2 ^ 63 := by
  have hleast : Int64.minValue.toInt = -2 ^ 63 := Int64.toInt_minValue
  have hlow : -2 ^ 63 ≤ v.toInt := v.le_toInt
  have hhigh : v.toInt < 2 ^ 63 := v.toInt_lt
  rw [encode, value_digits, hleast]
  omega

example : encode Int64.minValue = List.replicate 8 0 := by decide

theorem number_encode (v : Int64) : number (encode v) = v.toInt := by
  rw [number_eq (length_encode v), value_encode]
  omega

theorem decode_of_number (hb : b.length = 8) (hv : number b = v.toInt) : decode b = .ok v := by
  have hread : Int64.ofInt (value b + Int64.minValue.toInt) = v := Int64.toInt_inj.1 hv
  rw [decode, if_pos hb, hread]

theorem decode_encode (v : Int64) : decode (encode v) = .ok v :=
  decode_of_number (length_encode v) (number_encode v)

theorem encode_decode (hb : b.length = 8) : (decode b).map encode = .ok b := by
  rw [decode, if_pos hb, Except.map]
  congr 1
  apply number_injective (length_encode _) hb
  exact number_encode _

theorem value_cons (x : UInt8) (b : Bytes) :
    value (x :: b) = x.toNat * 256 ^ b.length + value b := by
  induction b using List.reverseRecOn with
  | nil => simp [value]
  | append_singleton b y ih =>
    rw [← List.cons_append, value_concat, value_concat, ih, List.length_append,
      List.length_singleton, Nat.pow_succ', Nat.mul_add, Nat.mul_left_comm, Nat.add_assoc]

theorem compare_mul_add {m x y p q : Nat} (hp : p < m) (hq : q < m) :
    Ord.compare (x * m + p) (y * m + q) = (Ord.compare x y).then (Ord.compare p q) := by
  obtain hxy | rfl | hxy := Nat.lt_trichotomy x y
  · have hle : (x + 1) * m ≤ y * m := Nat.mul_le_mul_right m hxy
    rw [Nat.succ_mul] at hle
    have hlt : x * m + p < y * m + q := by omega
    rw [Nat.compare_eq_lt.2 hlt, Nat.compare_eq_lt.2 hxy]
    rfl
  · rw [Nat.compare_eq_eq.2 rfl, Ordering.eq_then]
    simp [Nat.compare_eq_ite_lt]
  · have hle : (y + 1) * m ≤ x * m := Nat.mul_le_mul_right m hxy
    rw [Nat.succ_mul] at hle
    have hlt : y * m + q < x * m + p := by omega
    rw [Nat.compare_eq_gt.2 hlt, Nat.compare_eq_gt.2 hxy]
    rfl

theorem compare_toNat (x y : UInt8) : Ord.compare x.toNat y.toNat = Ord.compare x y := by
  change compareOfLessAndEq x.toNat y.toNat = compareOfLessAndEq x y
  simp only [compareOfLessAndEq, UInt8.lt_iff_toNat_lt, UInt8.toNat_inj]

theorem compare_value (h : a.length = b.length) :
    Ord.compare (value a) (value b) = Ord.compare a b := by
  induction a generalizing b with
  | nil =>
    rw [List.length_eq_zero_iff.1 h.symm]
    rfl
  | cons x a ih =>
    cases b with
    | nil => cases h
    | cons y b =>
      have htail : a.length = b.length := Nat.succ.inj h
      have ha : value a < 256 ^ b.length := htail ▸ value_lt a
      rw [value_cons, value_cons, htail, compare_mul_add ha (value_lt b), compare_toNat, ih htail,
        Bytes.compare_cons]

theorem order_eq (ha : a.length = 8) (hb : b.length = 8) :
    ValueType.bigint.order a b = Ord.compare a b := by
  change Ord.compare (number a) (number b) = _
  rw [number_eq ha, number_eq hb, ← compare_value (ha.trans hb.symm)]
  change compareOfLessAndEq _ _ = compareOfLessAndEq _ _
  simp [compareOfLessAndEq]

theorem compare_bytewise (ha : a.length = 8) (hb : b.length = 8) (type : ValueType) :
    type.compare a b = .ok (Ord.compare a b) := by
  by_cases htype : type = .bigint
  · subst htype
    rw [ValueType.compare_of_wellFormed (fun _ => ha) (fun _ => hb), order_eq ha hb]
  · exact ValueType.compare_of_ne_bigint htype a b

theorem compare_encode (v w : Int64) :
    Ord.compare (encode v) (encode w) = Ord.compare v.toInt w.toInt := by
  rw [← order_eq (length_encode v) (length_encode w), ← number_encode v, ← number_encode w]
  rfl

theorem encode_lt_encode_iff (v w : Int64) :
    Ord.compare (encode v) (encode w) = .lt ↔ v < w := by
  rw [compare_encode, Int.compare_eq_lt, Int64.lt_iff_toInt_lt]

def flipSign (w : UInt64) : UInt64 := w ^^^ ((1 : UInt64) <<< 63)

/-- Fills the places below `k`, the last one first, each with the lowest byte of the word, which is
then shifted out. -/
def pour : Nat → UInt64 → Bytes → Bytes
  | 0, _, out => out
  | k + 1, w, out => pour k (w >>> 8) (out.set k (w &&& 0xFF).toUInt8)

/-- Shifts the bytes into a word, the first one first. -/
def gather (b : Bytes) : UInt64 := b.foldl (fun w x => (w <<< 8) ||| x.toUInt64) 0

theorem flipSign_flipSign (w : UInt64) : flipSign (flipSign w) = w := by
  rw [flipSign, flipSign, UInt64.xor_assoc, UInt64.xor_self, UInt64.xor_zero]

/-- Turning the sign bit over adds its weight, without a carry. -/
theorem toNat_flipSign (w : UInt64) : (flipSign w).toNat = (w.toNat + 2 ^ 63) % 2 ^ 64 := by
  have hw : w.toNat < 2 ^ 64 := w.toNat_lt
  have hlow : (w.toNat ^^^ 2 ^ 63) % 2 ^ 63 = w.toNat % 2 ^ 63 := by
    rw [Nat.xor_mod_two_pow, Nat.mod_self, Nat.xor_zero]
  have hhigh : (w.toNat ^^^ 2 ^ 63) / 2 ^ 63 = w.toNat / 2 ^ 63 ^^^ 1 := by
    rw [Nat.xor_div_two_pow, Nat.div_self (Nat.two_pow_pos 63)]
  change w.toNat ^^^ 2 ^ 63 = _
  obtain hbit | hbit : w.toNat / 2 ^ 63 = 0 ∨ w.toNat / 2 ^ 63 = 1 := by omega
  · rw [hbit, Nat.zero_xor] at hhigh
    omega
  · rw [hbit, Nat.xor_self] at hhigh
    omega

theorem toNat_flipSign_toUInt64 (v : Int64) :
    ((flipSign v.toUInt64).toNat : Int) = v.toInt + 2 ^ 63 := by
  have hv : v.toInt = (v.toUInt64.toNat : Int).bmod (2 ^ 64) := BitVec.toInt_eq_toNat_bmod _
  have hword : v.toUInt64.toNat < 2 ^ 64 := v.toUInt64.toNat_lt
  rw [toNat_flipSign, hv, Int.bmod_def]
  omega

theorem toInt_flipSign (w : UInt64) : (flipSign w).toInt64.toInt = w.toNat - 2 ^ 63 := by
  have hw := toNat_flipSign_toUInt64 (flipSign w).toInt64
  rw [UInt64.toUInt64_toInt64, flipSign_flipSign] at hw
  omega

theorem pour_eq {k : Nat} {out : Bytes} (w : UInt64) (hk : k ≤ out.length) :
    pour k w out = digits k w.toNat ++ out.drop k := by
  induction k generalizing w out with
  | zero => rfl
  | succ k ih =>
    have hlow : (w &&& 0xFF).toUInt8 = UInt8.ofNat w.toNat := by
      apply UInt8.toNat_inj.1
      rw [UInt64.toNat_toUInt8, UInt64.toNat_and, UInt8.toNat_ofNat']
      change (w.toNat &&& 2 ^ 8 - 1) % 2 ^ 8 = _
      rw [Nat.and_two_pow_sub_one_eq_mod, Nat.mod_mod]
    have hrest : (w >>> 8).toNat = w.toNat / 256 := by
      rw [UInt64.toNat_shiftRight]
      exact Nat.shiftRight_eq_div_pow _ 8
    have hset : (out.set k (UInt8.ofNat w.toNat)).drop k =
        UInt8.ofNat w.toNat :: out.drop (k + 1) := by
      rw [List.drop_eq_getElem_cons (by rwa [List.length_set]), List.getElem_set_self,
        List.drop_set_of_lt (Nat.lt_succ_self k)]
    rw [pour, hlow, ih _ (by rw [List.length_set]; omega), digits, hrest, hset, List.append_assoc,
      List.singleton_append]

theorem gather_concat (b : Bytes) (x : UInt8) :
    gather (b ++ [x]) = (gather b <<< 8) ||| x.toUInt64 := by
  simp [gather, List.foldl_append]

theorem toNat_gather (hb : b.length ≤ 8) : (gather b).toNat = value b := by
  induction b using List.reverseRecOn with
  | nil => rfl
  | append_singleton b x ih =>
    rw [List.length_append, List.length_singleton] at hb
    have hx : x.toNat < 2 ^ 8 := x.toNat_lt
    have hfits : value b < 256 ^ 7 :=
      Nat.lt_of_lt_of_le (value_lt b) (Nat.pow_le_pow_right (by decide) (by omega))
    have hshift : (gather b <<< 8).toNat = value b <<< 8 := by
      rw [UInt64.toNat_shiftLeft, ih (by omega)]
      apply Nat.mod_eq_of_lt
      change value b <<< 8 < _
      rw [Nat.shiftLeft_eq]
      omega
    rw [gather_concat, UInt64.toNat_or, hshift, UInt8.toNat_toUInt64,
      ← Nat.shiftLeft_add_eq_or_of_lt hx, Nat.shiftLeft_eq, value_concat, Nat.mul_comm]

theorem encode_eq_pour (v : Int64) :
    encode v = pour 8 (flipSign v.toUInt64) (List.replicate 8 0) := by
  have hleast : Int64.minValue.toInt = -2 ^ 63 := Int64.toInt_minValue
  have hword : (v.toInt - Int64.minValue.toInt).toNat = (flipSign v.toUInt64).toNat := by
    have hflip := toNat_flipSign_toUInt64 v
    omega
  rw [encode, hword, pour_eq _ (by decide)]
  exact (List.append_nil _).symm

theorem decode_eq_gather (hb : b.length = 8) : decode b = .ok (flipSign (gather b)).toInt64 := by
  apply decode_of_number hb
  rw [number_eq hb, toInt_flipSign, toNat_gather (Nat.le_of_eq hb)]

/-- Writing shifts a word out and reading shifts it in, and the two undo each other; a string of
another length than eight is refused. All types order eight bytes as bytes, and this is the order of
the numbers. -/
theorem encode_isomorphism :
    (∀ v : Int64, encode v = pour 8 (flipSign v.toUInt64) (List.replicate 8 0) ∧
      decode (encode v) = .ok v) ∧
    (∀ b : Bytes, b.length = 8 →
      decode b = .ok (flipSign (gather b)).toInt64 ∧ (decode b).map encode = .ok b) ∧
    (∀ b : Bytes, b.length ≠ 8 → decode b = .error (.badWidth b.length)) ∧
    (∀ a b : Bytes, a.length = 8 → b.length = 8 →
      ∀ type : ValueType, type.compare a b = .ok (Ord.compare a b)) ∧
    ∀ v w : Int64, Ord.compare (encode v) (encode w) = .lt ↔ v < w := by
  refine ⟨?_, ?_, ?_, ?_, ?_⟩
  · intro v
    exact ⟨encode_eq_pour v, decode_encode v⟩
  · intro b hb
    exact ⟨decode_eq_gather hb, encode_decode hb⟩
  · intro b hb
    exact decode_of_length_ne hb
  · intro a b ha hb type
    exact compare_bytewise ha hb type
  · exact encode_lt_encode_iff

def minusOne : Bytes := 0x7F :: List.replicate 7 0xFF

def zero : Bytes := 0x80 :: List.replicate 7 0

/-- The numbers on the two sides of the sign differ in all their bytes. -/
theorem acrossZero_isomorphism :
    (encode (-1) = minusOne ∧ encode 0 = zero ∧ zero.tail.length ≠ 8) ∧
    (decode minusOne).map encode = .ok minusOne ∧
    decode zero.tail = .error (.badWidth 7) ∧
    (∀ type : ValueType, type.compare minusOne zero = .ok .lt) ∧
    Ord.compare (encode (-1)) (encode 0) = .lt := by
  obtain ⟨-, hread, hrefuse, hcompare, horder⟩ := encode_isomorphism
  refine ⟨by decide, ?_, ?_, ?_, ?_⟩
  · exact (hread minusOne (by decide)).2
  · exact hrefuse zero.tail (by decide)
  · intro type
    exact hcompare minusOne zero (by decide) (by decide) type
  · exact (horder (-1) 0).2 (by decide)

end Bigint
end SecondaryIndex
