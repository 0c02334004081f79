import EC440.FileSystems.Ownership

/-!
# The blocks that the bitmap hands out

`allocate` repeats what every caller of `find_free_bit` does with the answer: a block
that is not `0` is marked as used.  `clearBits` are the positions of the clear bits in
increasing order.  One round answers the head of the list and leaves the tail
(`findFreeBit_clearBits`), so `k` rounds hand out the first `k` positions.

The bits in front of the data blocks are set (`Reserved`), which `set_bit` keeps: only
for that reason does the answer `0` mean that the disk is full.
-/

namespace EC440.FileSystems

open EC440.Lib

variable {bitmap : Arr 1024 UInt8} {b k : Nat} {bs : List Nat}

/-- `b = find_free_bit(bitmap); if (b != 0) set_bit(b, bitmap)`, for `k` rounds: the answers
and the bitmap. -/
def allocate : Nat → Arr 1024 UInt8 → List UInt16 × Arr 1024 UInt8
  | 0, bitmap => ([], bitmap)
  | k + 1, bitmap =>
      let b := findFreeBit bitmap
      let rest := allocate k (if b ≠ 0 then setBit b.toNat bitmap else bitmap)
      (b :: rest.1, rest.2)

/-- The positions of the clear bits. -/
def clearBits (bitmap : Arr 1024 UInt8) : List Nat := freeList (fun i => getBit i bitmap) 8192

theorem mem_clearBits : b ∈ clearBits bitmap ↔ b < 8192 ∧ getBit b bitmap = false := mem_freeList

theorem Reserved.mem_clearBits (h : Reserved bitmap) :
    b ∈ clearBits bitmap ↔ 5 ≤ b ∧ b < 8192 ∧ getBit b bitmap = false := by
  rw [FileSystems.mem_clearBits]
  refine ⟨fun hb => ⟨?_, hb⟩, And.right⟩
  by_contra hlt
  have hset := h b (by omega)
  rw [hb.2] at hset
  cases hset

theorem clearBits_eq_nil_iff : clearBits bitmap = [] ↔ ∀ i, i < 8192 → getBit i bitmap = true := by
  rw [List.eq_nil_iff_forall_not_mem]
  simp only [FileSystems.mem_clearBits, not_and, Bool.not_eq_false]

/-! ### One round -/

theorem findFreeBit_eq_head? (bitmap : Arr 1024 UInt8) :
    (findFreeBit bitmap).toNat = (clearBits bitmap).head?.getD 0 := by
  rw [findFreeBit_toNat, find_free_eq_head?]
  rfl

/-- One round takes the first of the clear bits. -/
theorem findFreeBit_clearBits (h : clearBits bitmap = b :: bs) :
    (findFreeBit bitmap).toNat = b ∧ clearBits (setBit b bitmap) = bs := by
  have hlt : b < 8192 := (mem_clearBits.mp (h ▸ List.mem_cons_self)).1
  refine ⟨by rw [findFreeBit_eq_head?, h]; rfl, freeList_take h ?_ ?_⟩
  · simpa [getBit_setBit] using Or.inl hlt
  · intro i hi
    simp [getBit_setBit, hi]

/-- **The answer `0` means that all bits are set**, as long as block `0` is reserved. -/
theorem findFreeBit_eq_zero_iff (h : Reserved bitmap) :
    findFreeBit bitmap = 0 ↔ ∀ i, i < 8192 → getBit i bitmap = true := by
  rw [← clearBits_eq_nil_iff, ← UInt16.toNat_inj, findFreeBit_eq_head?]
  cases hlist : clearBits bitmap with
  | nil => simp
  | cons b bs =>
    have hb := h.mem_clearBits.mp (hlist ▸ List.mem_cons_self)
    refine iff_of_false ?_ (by simp)
    show b ≠ 0
    omega

/-! ### All rounds -/

theorem allocate_reserved (h : Reserved bitmap) (k : Nat) : Reserved (allocate k bitmap).2 := by
  induction k generalizing bitmap with
  | zero => exact h
  | succ k ih =>
    rw [allocate]
    split
    · exact ih (h.setBit _)
    · exact ih h

/-- The answers, and the bits that are set in the end. -/
theorem allocate_clearBits (h : Reserved bitmap) (k : Nat) :
    (allocate k bitmap).1.map UInt16.toNat =
        (clearBits bitmap).take k ++ List.replicate (k - (clearBits bitmap).length) 0 ∧
      ∀ i, getBit i (allocate k bitmap).2 =
        (getBit i bitmap || decide (i ∈ (clearBits bitmap).take k)) := by
  induction k generalizing bitmap with
  | zero => simp [allocate]
  | succ k ih =>
    cases hlist : clearBits bitmap with
    | nil =>
      have hzero := (findFreeBit_eq_zero_iff h).mpr (clearBits_eq_nil_iff.mp hlist)
      obtain ⟨hanswers, hbits⟩ := ih h
      rw [hlist] at hanswers hbits
      simp only [allocate, hzero, ne_eq, not_true_eq_false, if_false, List.map_cons, hanswers]
      exact ⟨by simp [List.replicate_succ], by simpa using hbits⟩
    | cons b bs =>
      obtain ⟨hb, hrest⟩ := findFreeBit_clearBits hlist
      obtain ⟨hmin, hlt, hclear⟩ := h.mem_clearBits.mp (hlist ▸ List.mem_cons_self)
      have hne : findFreeBit bitmap ≠ 0 := by
        rw [Ne, ← UInt16.toNat_inj, hb]
        show b ≠ 0
        omega
      obtain ⟨hanswers, hbits⟩ := ih (h.setBit b)
      rw [hrest] at hanswers hbits
      simp only [allocate, if_pos hne, hb, List.map_cons, hanswers]
      refine ⟨by simp, ?_⟩
      intro i
      rw [hbits, getBit_setBit, List.take_succ_cons]
      by_cases hi : i = b
      · simp [hi, hlt]
      · simp [hi]

theorem clearBit_setBit (hclear : getBit b bitmap = false) :
    clearBit b (setBit b bitmap) = bitmap := by
  refine bitmap_ext fun i _ => ?_
  rw [getBit_clearBit, getBit_setBit]
  by_cases hi : i = b
  · simp [hi, hclear]
  · simp [hi]

/-- **The bitmap hands out distinct free blocks**: `k` rounds answer the first `k` clear positions in
increasing order and mark no other, the answer is `0` just when all bits are set, and `clear_bit`
takes back what `set_bit` does to a clear position. -/
theorem allocate_hands_out (bitmap : Arr 1024 UInt8) (h : Reserved bitmap) (k : Nat) :
    (clearBits bitmap).Pairwise (· < ·) ∧
      (∀ b, b ∈ clearBits bitmap ↔ 5 ≤ b ∧ b < 8192 ∧ getBit b bitmap = false) ∧
      (allocate k bitmap).1.map UInt16.toNat =
        (clearBits bitmap).take k ++ List.replicate (k - (clearBits bitmap).length) 0 ∧
      (∀ i, getBit i (allocate k bitmap).2 =
        (getBit i bitmap || decide (i ∈ (clearBits bitmap).take k))) ∧
      (findFreeBit (allocate k bitmap).2 = 0 ↔
        ∀ i, i < 8192 → getBit i (allocate k bitmap).2 = true) ∧
      ∀ (bitmap : Arr 1024 UInt8) (b : Nat), b < 8192 → getBit b bitmap = false →
        clearBit b (setBit b bitmap) = bitmap := by
  obtain ⟨hanswers, hbits⟩ := allocate_clearBits h k
  refine ⟨pairwise_freeList _ _, fun b => h.mem_clearBits, hanswers, hbits, ?_, ?_⟩
  · exact findFreeBit_eq_zero_iff (allocate_reserved h k)
  · intro bitmap b _ hclear
    exact clearBit_setBit hclear

def formattedBitmap : Arr 1024 UInt8 := (Arr.fill 0).set 0 31

theorem allocate_formattedBitmap :
    (allocate 3 formattedBitmap).1.map UInt16.toNat = (clearBits formattedBitmap).take 3 ++
      List.replicate (3 - (clearBits formattedBitmap).length) 0 :=
  (allocate_hands_out formattedBitmap (by unfold Reserved; decide) 3).2.2.1

end EC440.FileSystems
