import Mathlib.Algebra.Group.Nat.Defs
/-!
# Bits of a word

Setting, clearing and testing bit `k` of a word of any width, and clearing its
lowest `k` bits.
-/
namespace X64k.Core.Bits

variable {w k j : Nat}

theorem getLsbD_bit (hj : j < w) : ((1#w) <<< k).getLsbD j = decide (j = k) := by
  rw [BitVec.getLsbD_shiftLeft, BitVec.getLsbD_one]
  by_cases h : j < k
  · have : j ≠ k := by omega
    simp [h, this]
  · by_cases h' : j = k
    · subst h'; simp [hj]; omega
    · have : j - k ≠ 0 := by omega
      simp [h', this]

/-- The bit `k` is clear in `x`. -/
theorem and_bit_eq_zero {x : BitVec w} (hk : k < w) :
    x &&& (1#w) <<< k = 0#w ↔ x.getLsbD k = false := by
  constructor
  · intro h
    have := congrArg (·.getLsbD k) h
    simpa [BitVec.getLsbD_and, getLsbD_bit hk] using this
  · intro h
    apply BitVec.eq_of_getLsbD_eq
    intro j hj
    rw [BitVec.getLsbD_and, getLsbD_bit hj, BitVec.getLsbD_zero]
    by_cases hjk : j = k
    · subst hjk; simp [h]
    · simp [hjk]

theorem getLsbD_or_bit {x : BitVec w} (hj : j < w) :
    (x ||| (1#w) <<< k).getLsbD j = (decide (j = k) || x.getLsbD j) := by
  rw [BitVec.getLsbD_or, getLsbD_bit hj, Bool.or_comm]

theorem getLsbD_and_not_bit {x : BitVec w} (hj : j < w) :
    (x &&& ~~~((1#w) <<< k)).getLsbD j = (!decide (j = k) && x.getLsbD j) := by
  rw [BitVec.getLsbD_and, BitVec.getLsbD_not, getLsbD_bit hj, Bool.and_comm]
  simp [hj]

/-! ## The lowest bits -/

theorem getLsbD_low (hk : k ≤ w) : (BitVec.ofNat w (2 ^ k - 1)).getLsbD j = decide (j < k) := by
  rw [BitVec.getLsbD_ofNat, Nat.testBit_two_pow_sub_one]
  by_cases h : j < k
  · simp [h]; omega
  · simp [h]

theorem toNat_clearLow (v : BitVec w) (hk : k ≤ w) :
    (v &&& ~~~BitVec.ofNat w (2 ^ k - 1)).toNat = v.toNat / 2 ^ k * 2 ^ k := by
  have h : v &&& ~~~BitVec.ofNat w (2 ^ k - 1) = (v >>> k) <<< k := by
    apply BitVec.eq_of_getLsbD_eq
    intro i hi
    rw [BitVec.getLsbD_and, BitVec.getLsbD_not, BitVec.getLsbD_shiftLeft,
      BitVec.getLsbD_ushiftRight, getLsbD_low hk]
    by_cases hik : i < k
    · simp [hik]
    · simp [hi, hik, show k + (i - k) = i by omega]
  have hle : v.toNat / 2 ^ k * 2 ^ k ≤ v.toNat := Nat.div_mul_le_self ..
  rw [h, BitVec.toNat_shiftLeft, BitVec.toNat_ushiftRight, Nat.shiftRight_eq_div_pow,
    Nat.shiftLeft_eq, Nat.mod_eq_of_lt (Nat.lt_of_le_of_lt hle v.isLt)]

/-- The lowest `k` bits are the remainder by `2^k`. -/
theorem toNat_and_low {x : BitVec w} (hx : x.toNat = 2 ^ k - 1) (v : BitVec w) :
    (v &&& x).toNat = v.toNat % 2 ^ k := by
  rw [BitVec.toNat_and, hx, Nat.and_two_pow_sub_one_eq_mod]

/-- The field of `k` bits from bit `i` on. -/
theorem toNat_field {x : BitVec w} (hx : x.toNat = 2 ^ k - 1) (v : BitVec w) (i : Nat) :
    ((v >>> i) &&& x).toNat = v.toNat / 2 ^ i % 2 ^ k := by
  rw [toNat_and_low hx, BitVec.toNat_ushiftRight, Nat.shiftRight_eq_div_pow]

/-- Negating a power of two leaves the mask of the bits from there on. -/
theorem neg_two_pow (w k : Nat) :
    -BitVec.ofNat w (2 ^ k) = ~~~BitVec.ofNat w (2 ^ k - 1) := by
  have h1 : 1 ≤ 2 ^ k := Nat.one_le_two_pow
  have h : BitVec.ofNat w (2 ^ k) = BitVec.ofNat w (2 ^ k - 1) + 1 := by
    rw [show (1 : BitVec w) = BitVec.ofNat w 1 from rfl, ← BitVec.ofNat_add,
      Nat.sub_add_cancel h1]
  rw [h, BitVec.neg_add, BitVec.not_eq_neg_add]
  rfl

end X64k.Core.Bits
