import EC440.Lib.Arr
import Mathlib.Algebra.Ring.Int.Defs
import Mathlib.Algebra.Ring.Nat

/-!
# Little-endian words in byte arrays

A 16- or 32-bit word is stored low byte first.  `byte16` and `byte32` give the
bytes of a word, `word16` and `word32` put a word together from the bytes at an
address, so that a stored word is read back (`word16_byte16`,
`word32_byte32`).  `get16` and `set16` view a byte array as an array of 16-bit
words, the way a `uint16_t *` into a block does.
-/

namespace EC440.Lib

/-- Byte `k` of a 16-bit word. -/
def byte16 (x : UInt16) (k : Nat) : UInt8 := UInt8.ofNat (x.toNat / 256 ^ k)

/-- Byte `k` of a 32-bit word. -/
def byte32 (x : UInt32) (k : Nat) : UInt8 := UInt8.ofNat (x.toNat / 256 ^ k)

/-- The 16-bit word at the start of the bytes `f`. -/
def word16 (f : Nat → UInt8) : UInt16 := UInt16.ofNat ((f 0).toNat + 256 * (f 1).toNat)

/-- The 32-bit word at the start of the bytes `f`. -/
def word32 (f : Nat → UInt8) : UInt32 :=
  UInt32.ofNat ((f 0).toNat + 256 * (f 1).toNat + 65536 * (f 2).toNat + 16777216 * (f 3).toNat)

theorem word16_byte16 (x : UInt16) : word16 (byte16 x) = x := by
  have hx := x.toNat_lt
  apply UInt16.toNat_inj.mp
  simp only [word16, byte16, UInt16.toNat_ofNat', UInt8.toNat_ofNat']
  omega

theorem word32_byte32 (x : UInt32) : word32 (byte32 x) = x := by
  have hx := x.toNat_lt
  apply UInt32.toNat_inj.mp
  simp only [word32, byte32, UInt32.toNat_ofNat', UInt8.toNat_ofNat']
  omega

/-- A word depends only on its own bytes. -/
theorem word16_congr {f g : Nat → UInt8} (h : ∀ k, k < 2 → f k = g k) : word16 f = word16 g := by
  simp only [word16, h 0 (by omega), h 1 (by omega)]

theorem word32_congr {f g : Nat → UInt8} (h : ∀ k, k < 4 → f k = g k) : word32 f = word32 g := by
  simp only [word32, h 0 (by omega), h 1 (by omega), h 2 (by omega), h 3 (by omega)]

/-! ### A byte array as an array of words -/

variable {n : Nat}

/-- Entry `k` of the array read as 16-bit words. -/
def get16 (a : Arr n UInt8) (k : Nat) : UInt16 := word16 (fun d => a.get (2 * k + d))

/-- Store `v` at entry `k` of the array written as 16-bit words. -/
def set16 (a : Arr n UInt8) (k : Nat) (v : UInt16) : Arr n UInt8 := a.blit (2 * k) (byte16 v) 2

theorem get16_set16 {m : Nat} (hn : n = 2 * m) (a : Arr n UInt8) (k j : Nat) (v : UInt16) :
    get16 (set16 a k v) j = if j = k ∧ k < m then v else get16 a j := by
  by_cases hj : j < m
  · by_cases hjk : j = k
    · subst hjk
      rw [if_pos ⟨rfl, hj⟩, get16, ← word16_byte16 v]
      apply word16_congr
      intro d hd
      rw [set16, Arr.get_blit _ _ _ _ (by omega), if_pos (by omega), word16_byte16]
      congr 1
      omega
    · rw [if_neg (fun h => hjk h.1), get16, get16]
      apply word16_congr
      intro d hd
      rw [set16, Arr.get_blit _ _ _ _ (by omega), if_neg (by omega)]
  · rw [if_neg (by omega), get16, get16]
    apply word16_congr
    intro d _
    rw [Arr.get_of_ge _ (by omega), Arr.get_of_ge _ (by omega)]

/-- The words past the end of the array read as `0`. -/
theorem get16_of_ge {m : Nat} (hn : n = 2 * m) (a : Arr n UInt8) {k : Nat} (hk : m ≤ k) :
    get16 a k = 0 := by
  have h : get16 a k = word16 (fun _ => 0) := by
    apply word16_congr
    intro d _
    exact Arr.get_of_ge _ (by omega)
  rw [h]
  rfl

@[simp] theorem get16_fill_zero (k : Nat) : get16 (Arr.fill 0 : Arr n UInt8) k = 0 := by
  have h : get16 (Arr.fill 0 : Arr n UInt8) k = word16 (fun _ => 0) := by
    apply word16_congr
    intro d _
    exact Arr.get_fill_default _
  rw [h]
  rfl

end EC440.Lib
