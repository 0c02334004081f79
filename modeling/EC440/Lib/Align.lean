import EC440.Lib.Words

/-!
# Rounding an address down

The multiple of `2 ^ k` at or below an address, the way C computes it: the address, of `v` bits,
is masked with the complement of a signed integer of `w` bits, which is sign-extended first.
The mask has the bits from `k` on, all the way up, because the integer `2 ^ k` is positive
(`getLsbD_pageMask`).
-/

namespace EC440.Lib

variable {v w k : Nat}

/-- `~(size - 1)`, converted to `v` bits. -/
def pageMask (v : Nat) (size : BitVec w) : BitVec v := (~~~(size - 1#w)).signExtend v

/-- The bits below `k` of `2 ^ k - 1` are set. -/
theorem getLsbD_two_pow_sub_one (hk : k < w) (i : Nat) :
    (BitVec.ofNat w (2 ^ k) - 1#w).getLsbD i = decide (i < k) := by
  have hpow : 2 ^ k < 2 ^ w := Nat.pow_lt_pow_right (by decide) hk
  have hpos : 0 < 2 ^ k := Nat.two_pow_pos k
  have hval : (BitVec.ofNat w (2 ^ k) - 1#w).toNat = 2 ^ k - 1 := by
    have hone : (1#w).toNat = 1 := by
      rw [BitVec.toNat_ofNat, Nat.mod_eq_of_lt (by omega)]
    have htwo : (BitVec.ofNat w (2 ^ k)).toNat = 2 ^ k := by
      rw [BitVec.toNat_ofNat, Nat.mod_eq_of_lt hpow]
    have hle : 1#w ≤ BitVec.ofNat w (2 ^ k) := by
      rw [BitVec.le_def, hone, htwo]
      exact hpos
    rw [BitVec.toNat_sub_of_le hle, htwo, hone]
  rw [← BitVec.testBit_toNat, hval, Nat.testBit_two_pow_sub_one]

/-- The mask has the bits from `k` on. -/
theorem getLsbD_pageMask (hk : k + 1 < w) (i : Nat) :
    (pageMask v (BitVec.ofNat w (2 ^ k))).getLsbD i = (decide (i < v) && decide (k ≤ i)) := by
  have hmsb : (BitVec.ofNat w (2 ^ k) - 1#w).msb = false := by
    rw [BitVec.msb_eq_getLsbD_last, getLsbD_two_pow_sub_one (by omega)]
    simp only [decide_eq_false_iff_not]
    omega
  rw [pageMask, BitVec.getLsbD_signExtend, BitVec.msb_not, hmsb, BitVec.getLsbD_not,
    getLsbD_two_pow_sub_one (by omega)]
  congr 1
  by_cases hi : i < w
  · have hlow : decide (k ≤ i) = !decide (i < k) := by
      rw [← decide_not, decide_eq_decide, Nat.not_lt]
    simp [hi, hlow]
  · have hki : k ≤ i := by omega
    have hw : 0 < w := by omega
    simp [hi, hki, hw]

/-- **Masking rounds down** to a multiple of `2 ^ k`. -/
theorem toNat_and_pageMask (a : BitVec v) (hk : k + 1 < w) :
    (a &&& pageMask v (BitVec.ofNat w (2 ^ k))).toNat = a.toNat / 2 ^ k * 2 ^ k := by
  refine Nat.eq_of_testBit_eq fun i => ?_
  rw [BitVec.testBit_toNat, BitVec.getLsbD_and, getLsbD_pageMask hk, Nat.mul_comm,
    Nat.testBit_two_pow_mul, Nat.testBit_div_two_pow, ← BitVec.testBit_toNat]
  by_cases hki : k ≤ i
  · have hsub : i - k + k = i := Nat.sub_add_cancel hki
    rw [hsub, decide_eq_true hki, Bool.and_true, Bool.true_and]
    by_cases hi : i < v
    · rw [decide_eq_true hi, Bool.and_true]
    · rw [BitVec.testBit_toNat, BitVec.getLsbD_of_ge a i (by omega), Bool.false_and]
  · simp [hki]

/-- An aligned address is the rounded one just when its page covers the other. -/
theorem div_mul_eq_iff {a b m : Nat} (hm : 0 < m) (hb : m ∣ b) :
    a / m * m = b ↔ b ≤ a ∧ a < b + m := by
  obtain ⟨q, rfl⟩ := hb
  rw [Nat.mul_comm, Nat.mul_right_inj (by omega), Nat.div_eq_iff hm, Nat.mul_comm q m]
  omega

end EC440.Lib
