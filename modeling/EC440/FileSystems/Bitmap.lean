import EC440.FileSystems.Types
import EC440.Lib.Pool

/-!
# The bitmaps

`get_bit`, `set_bit`, `clear_bit` and `find_free_bit` of `fs.c`.  A bitmap is
known by its bits (`bitmap_ext`), and the lemmas below say which bits each
function changes: a store past the end of the bitmap changes none.
`findFreeBit` answers `0` both when every bit is set and when bit `0` is the first
clear one; `findFreeBit_spec` covers the answers that name a block, and
`findFreeBit_ne_zero` says when there is one.

`clearBlocks` is the loop shared by `fs_delete` and `fs_truncate`, which clears the
bit of every nonzero entry of a table of block numbers.
-/

namespace EC440.FileSystems

open EC440.Lib

variable {n : Nat}

def getBit (offset : Nat) (bitmap : Arr n UInt8) : Bool :=
  ((bitmap.get (offset / 8) >>> UInt8.ofNat (offset % 8)) &&& 1) != 0

def setBit (offset : Nat) (bitmap : Arr n UInt8) : Arr n UInt8 :=
  bitmap.set (offset / 8) (bitmap.get (offset / 8) ||| (1 <<< UInt8.ofNat (offset % 8)))

def clearBit (offset : Nat) (bitmap : Arr n UInt8) : Arr n UInt8 :=
  bitmap.set (offset / 8) (bitmap.get (offset / 8) &&& ~~~(1 <<< UInt8.ofNat (offset % 8)))

def findFreeBit (bitmap : Arr n UInt8) : UInt16 :=
  UInt16.ofNat (((List.range 8192).find? (fun i => !getBit i bitmap)).getD 0)

theorem findFreeBit_def (bitmap : Arr n UInt8) : findFreeBit bitmap =
    UInt16.ofNat (((List.range 8192).find? (fun i => !getBit i bitmap)).getD 0) := rfl

attribute [irreducible] findFreeBit

/-- `for (i = 0; i < count; ++i) if (blocks[i]) clear_bit(blocks[i], bitmap)`. -/
def clearBlocks (blocks : Nat → UInt16) : Nat → Arr n UInt8 → Arr n UInt8
  | 0, bitmap => bitmap
  | c + 1, bitmap =>
      let bitmap := clearBlocks blocks c bitmap
      if blocks c ≠ 0 then clearBit (blocks c).toNat bitmap else bitmap

/-! ### Bits of a byte -/

theorem testBit_mask : ∀ k, k < 8 → ∀ j, j < 8 →
    ((1 : UInt8) <<< UInt8.ofNat k).toNat.testBit j = decide (j = k) := by decide

theorem testBit_not_mask : ∀ k, k < 8 → ∀ j, j < 8 →
    (~~~((1 : UInt8) <<< UInt8.ofNat k)).toNat.testBit j = !decide (j = k) := by decide

theorem shiftRight_and_one (c : UInt8) : ∀ k, k < 8 →
    (((c >>> UInt8.ofNat k) &&& 1) != 0) = c.toNat.testBit k := by
  intro k hk
  have hmod : (UInt8.ofNat k).toNat % 8 = k := by
    rw [UInt8.toNat_ofNat']
    omega
  have hval : ((c >>> UInt8.ofNat k) &&& 1).toNat = c.toNat >>> k &&& 1 := by
    rw [UInt8.toNat_and, UInt8.toNat_shiftRight, hmod]
    rfl
  rw [Nat.testBit, Nat.and_comm, ← hval]
  rw [Bool.eq_iff_iff]
  simp only [bne_iff_ne, ne_eq, ← UInt8.toNat_inj]
  rfl

theorem getBit_eq_testBit (offset : Nat) (bitmap : Arr n UInt8) :
    getBit offset bitmap = (bitmap.get (offset / 8)).toNat.testBit (offset % 8) :=
  shiftRight_and_one _ _ (Nat.mod_lt _ (by decide))

/-! ### Bits of a bitmap -/

theorem getBit_setBit (o i : Nat) (bitmap : Arr n UInt8) :
    getBit i (setBit o bitmap) = ((decide (i = o) && decide (o < 8 * n)) || getBit i bitmap) := by
  rw [getBit_eq_testBit, getBit_eq_testBit, setBit, Arr.get_set]
  by_cases hio : i / 8 = o / 8 ∧ o / 8 < n
  · rw [if_pos hio, hio.1, UInt8.toNat_or, Nat.testBit_or,
      testBit_mask _ (by omega) _ (by omega), Bool.or_comm]
    congr 1
    rw [Bool.eq_iff_iff]
    simp only [decide_eq_true_eq, Bool.and_eq_true]
    omega
  · rw [if_neg hio]
    have hf : (decide (i = o) && decide (o < 8 * n)) = false := by
      simp only [Bool.and_eq_false_iff, decide_eq_false_iff_not]
      omega
    rw [hf, Bool.false_or]

theorem getBit_clearBit (o i : Nat) (bitmap : Arr n UInt8) :
    getBit i (clearBit o bitmap) = (!decide (i = o) && getBit i bitmap) := by
  rw [getBit_eq_testBit, getBit_eq_testBit, clearBit, Arr.get_set]
  by_cases hio : i / 8 = o / 8 ∧ o / 8 < n
  · rw [if_pos hio, hio.1, UInt8.toNat_and, Nat.testBit_and,
      testBit_not_mask _ (by omega) _ (by omega), Bool.and_comm]
    congr 2
    rw [Bool.eq_iff_iff]
    simp only [decide_eq_true_eq]
    omega
  · rw [if_neg hio]
    by_cases hi : i = o
    · -- past the end there is no bit to clear
      subst hi
      rw [Arr.get_of_ge _ (by omega)]
      simp only [decide_true, Bool.not_true, Bool.false_and]
      exact Nat.zero_testBit _
    · simp [hi]

theorem getBit_clearBlocks (blocks : Nat → UInt16) (count i : Nat) (bitmap : Arr n UInt8) :
    getBit i (clearBlocks blocks count bitmap) = true ↔
      getBit i bitmap = true ∧ ∀ k, k < count → blocks k ≠ 0 → (blocks k).toNat ≠ i := by
  induction count with
  | zero => simp [clearBlocks]
  | succ c ih =>
    rw [clearBlocks]
    by_cases hc : blocks c = 0
    · rw [if_neg (by simpa using hc), ih]
      refine and_congr_right fun _ => ⟨?_, fun h k hk => h k (by omega)⟩
      intro h k hk hne
      rcases Nat.lt_succ_iff_lt_or_eq.mp hk with hlt | rfl
      · exact h k hlt hne
      · exact absurd hc hne
    · rw [if_pos hc, getBit_clearBit, Bool.and_eq_true, ih]
      constructor
      · rintro ⟨h1, h2, h3⟩
        refine ⟨h2, ?_⟩
        intro k hk hne
        rcases Nat.lt_succ_iff_lt_or_eq.mp hk with hlt | rfl
        · exact h3 k hlt hne
        · simp only [Bool.not_eq_true', decide_eq_false_iff_not] at h1
          exact fun he => h1 he.symm
      · rintro ⟨h1, h2⟩
        have hci := h2 c (by omega) hc
        exact ⟨by simpa using fun he => hci he.symm, h1, fun k hk => h2 k (by omega)⟩

/-- **A bitmap is its bits.** -/
theorem bitmap_ext {a b : Arr n UInt8} (h : ∀ i, i < 8 * n → getBit i a = getBit i b) : a = b := by
  refine Arr.ext_get fun k hk => UInt8.toNat_inj.mp (Nat.eq_of_testBit_eq ?_)
  intro j
  by_cases hj : j < 8
  · have hi := h (8 * k + j) (by omega)
    rw [getBit_eq_testBit, getBit_eq_testBit] at hi
    have h1 : (8 * k + j) / 8 = k := by omega
    have h2 : (8 * k + j) % 8 = j := by omega
    rwa [h1, h2] at hi
  · have hsmall : ∀ c : UInt8, c.toNat.testBit j = false := by
      intro c
      refine Nat.testBit_lt_two_pow (lt_of_lt_of_le c.toNat_lt ?_)
      exact Nat.pow_le_pow_right (by decide) (by omega)
    rw [hsmall, hsmall]

/-! ### Finding a free bit -/

theorem findFreeBit_toNat (bitmap : Arr n UInt8) :
    (findFreeBit bitmap).toNat = ((List.range 8192).find? (fun i => !getBit i bitmap)).getD 0 := by
  rw [findFreeBit_def, UInt16.toNat_ofNat']
  refine Nat.mod_eq_of_lt ?_
  cases hf : (List.range 8192).find? (fun i => !getBit i bitmap) with
  | none => simp
  | some b =>
    have := (List.find?_range_eq_some.mp hf).2.1
    simp only [List.mem_range] at this
    simp only [Option.getD_some]
    omega

/-- **A block found by `find_free_bit` was free**, and the first free one. -/
theorem findFreeBit_spec {bitmap : Arr n UInt8} (h : findFreeBit bitmap ≠ 0) :
    (findFreeBit bitmap).toNat < 8192 ∧ getBit (findFreeBit bitmap).toNat bitmap = false ∧
      ∀ j, j < (findFreeBit bitmap).toNat → getBit j bitmap = true := by
  have hne : (findFreeBit bitmap).toNat ≠ 0 := fun he => h (UInt16.toNat_inj.mp he)
  rw [findFreeBit_toNat] at hne ⊢
  cases hf : (List.range 8192).find? (fun i => !getBit i bitmap) with
  | none => rw [hf] at hne; simp at hne
  | some b =>
    obtain ⟨h1, h2, h3⟩ := List.find?_range_eq_some.mp hf
    simp only [List.mem_range] at h2
    refine ⟨h2, by simpa using h1, ?_⟩
    intro j hj
    simpa using h3 j hj

def freeCount (bitmap : Arr 1024 UInt8) : Nat :=
  (freeCells (fun i => getBit i bitmap) 8192).card

theorem findFreeBit_ne_zero {bitmap : Arr 1024 UInt8} (h0 : getBit 0 bitmap = true)
    (hfree : 0 < freeCount bitmap) : findFreeBit bitmap ≠ 0 := by
  obtain ⟨b, hb⟩ := exists_find_free hfree
  have hb0 : b ≠ 0 := by
    rintro rfl
    have := (List.find?_range_eq_some.mp hb).1
    rw [h0] at this
    exact absurd this (by decide)
  intro he
  have := findFreeBit_toNat bitmap
  rw [he, hb] at this
  exact hb0 this.symm

theorem freeCount_of_findFreeBit_eq_zero {bitmap : Arr 1024 UInt8} (h0 : getBit 0 bitmap = true)
    (h : findFreeBit bitmap = 0) : freeCount bitmap = 0 := by
  by_contra hne
  exact findFreeBit_ne_zero h0 (Nat.pos_of_ne_zero hne) h

theorem freeCount_setBit {bitmap : Arr 1024 UInt8} {b : Nat} (hb : b < 8192)
    (hfree : getBit b bitmap = false) : freeCount (setBit b bitmap) + 1 = freeCount bitmap := by
  refine card_freeCells_take hb hfree ?_ ?_
  · simp only [getBit_setBit, decide_true, Bool.true_and, Bool.or_eq_true, decide_eq_true_eq]
    exact Or.inl (by omega)
  · intro i hi
    simp only [getBit_setBit, hi, decide_false, Bool.false_and, Bool.false_or]

end EC440.FileSystems
