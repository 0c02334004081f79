import EC440.FileSystems.Ledger

/-!
# How a file lies on the disk

A file that has no holes has a simple shape: its blocks are the first so many slots, the
table is there when they go past the direct ones, and what is marked beyond the bitmap `m0`
it began with are exactly its blocks (`Laid`).  `byteAt` reads a byte of such a file and
`FileAt` says what all of them are.

A round of `fs_write` on the next slot takes a free block and fills it (`Laid.writeSlot`,
`Laid.appendBytes`).
-/

namespace EC440.FileSystems

open EC440.Lib

def blockSlot (b : Nat) : Slot := if b < 25 then .direct b else .entry (b - 25)

def blocksOf (len : Nat) : Nat := (len + 4095) / 4096

theorem blockSlot_inj {a b : Nat} (h : blockSlot a = blockSlot b) : a = b := by
  rw [blockSlot, blockSlot] at h
  split at h
  · split at h
    · cases h
      rfl
    · cases h
  · split at h
    · cases h
    · injection h with h
      omega

theorem blockSlot_ne_table (b : Nat) : blockSlot b ≠ .table := by
  rw [blockSlot]
  split <;> simp

/-- **The blocks of a file** of `B` blocks, with a table when `t` says so: they are its own,
and with the ones marked in `m0` they are all that is marked. -/
structure Laid (m0 bitmap : Arr 1024 UInt8) (ino : Inode) (tab : Nat → UInt16) (B : Nat)
    (t : Bool) : Prop where
  zero : getBit 0 m0 = true
  kept : ∀ b, getBit b m0 = true → getBit b bitmap = true
  owned : Owned (ino.names tab)
    (fun b => b < 8192 ∧ getBit b bitmap = true ∧ getBit b m0 = false)
  added : ∀ b, getBit b bitmap = true → getBit b m0 = true ∨ ∃ sl, ino.names tab sl = b
  mapped : ∀ b, ino.names tab (blockSlot b) ≠ 0 ↔ b < B
  table : ino.singleIndirectBlock ≠ 0 ↔ t = true
  count : freeCount bitmap + B + t.toNat = freeCount m0

variable {m0 bitmap : Arr 1024 UInt8} {ino ino' : Inode} {tab tab' : Nat → UInt16} {B : Nat}
  {t : Bool}

theorem Laid.claim (h : Laid m0 bitmap ino tab B t) (hf : findFreeBit bitmap ≠ 0) {sl : Slot}
    (hsl : ino.names tab sl = 0)
    (hnames : ino'.names tab' = Function.update (ino.names tab) sl (findFreeBit bitmap).toNat)
    {B' : Nat} {t' : Bool} (hmapped : ∀ b, ino'.names tab' (blockSlot b) ≠ 0 ↔ b < B')
    (htable : ino'.singleIndirectBlock ≠ 0 ↔ t' = true)
    (hcount : B' + t'.toNat = B + t.toNat + 1) :
    Laid m0 (setBit (findFreeBit bitmap).toNat bitmap) ino' tab' B' t' := by
  obtain ⟨hlt, hfree, -⟩ := findFreeBit_spec hf
  have hne : (findFreeBit bitmap).toNat ≠ 0 := fun he => hf (UInt16.toNat_inj.mp he)
  have hset : ∀ b, getBit b bitmap = true →
      getBit b (setBit (findFreeBit bitmap).toNat bitmap) = true := by
    intro b hb
    rw [getBit_setBit, hb, Bool.or_true]
  have hm0 : getBit (findFreeBit bitmap).toNat m0 = false := by
    refine Bool.eq_false_iff.mpr ?_
    intro hb
    rw [h.kept _ hb] at hfree
    cases hfree
  refine ⟨h.zero, fun b hb => hset b (h.kept b hb), ?_, ?_, hmapped, htable, ?_⟩
  · rw [hnames]
    refine h.owned.claim ?_ hne (fun b hb => ⟨hb.1, hset b hb.2.1, hb.2.2⟩)
      ⟨hlt, ?_, hm0⟩ sl
    · intro hu
      rw [hu.2.1] at hfree
      cases hfree
    · rw [getBit_setBit, decide_eq_true rfl, Bool.true_and,
        decide_eq_true (show (findFreeBit bitmap).toNat < 8 * 1024 by omega), Bool.true_or]
  · intro b hb
    rw [getBit_setBit, Bool.or_eq_true, Bool.and_eq_true, decide_eq_true_eq] at hb
    rcases hb with ⟨rfl, -⟩ | hb
    · exact Or.inr ⟨sl, by rw [hnames, Function.update_self]⟩
    · rcases h.added b hb with hm | ⟨sl', hsl'⟩
      · exact Or.inl hm
      · by_cases hs : sl' = sl
        · -- the slot was empty, so `b` is block `0`
          rw [hs, hsl] at hsl'
          rw [← hsl']
          exact Or.inl h.zero
        · exact Or.inr ⟨sl', by rw [hnames, Function.update_of_ne hs, hsl']⟩
  · have := freeCount_setBit hlt hfree
    have := h.count
    omega

theorem Laid.append (h : Laid m0 bitmap ino tab B t) (hf : findFreeBit bitmap ≠ 0)
    (hnames : ino'.names tab'
      = Function.update (ino.names tab) (blockSlot B) (findFreeBit bitmap).toNat) :
    Laid m0 (setBit (findFreeBit bitmap).toNat bitmap) ino' tab' (B + 1) t := by
  have hB : ino.names tab (blockSlot B) = 0 := by
    by_contra hne
    exact absurd ((h.mapped B).mp hne) (lt_irrefl B)
  refine h.claim hf hB hnames ?_ ?_ (by omega)
  · intro b
    rw [hnames]
    by_cases hb : b = B
    · rw [hb, Function.update_self]
      exact ⟨fun _ => by omega, fun _ he => hf (UInt16.toNat_inj.mp he)⟩
    · rw [Function.update_of_ne (fun he => hb (blockSlot_inj he)), h.mapped]
      omega
  · have hs : ino'.names tab' .table = ino.names tab .table := by
      rw [hnames, Function.update_of_ne (blockSlot_ne_table B).symm]
    rw [← h.table, show ino'.singleIndirectBlock = ino.singleIndirectBlock from
      UInt16.toNat_inj.mp hs]

theorem Laid.addTable (h : Laid m0 bitmap ino tab B false) (hf : findFreeBit bitmap ≠ 0)
    (hnames : ino'.names tab'
      = Function.update (ino.names tab) .table (findFreeBit bitmap).toNat) :
    Laid m0 (setBit (findFreeBit bitmap).toNat bitmap) ino' tab' B true := by
  have hT : ino.names tab .table = 0 := by
    by_contra hne
    have := h.table.mp fun he => hne (by rw [Inode.names, he]; rfl)
    cases this
  refine h.claim hf hT hnames ?_ ?_ rfl
  · intro b
    rw [hnames, Function.update_of_ne (blockSlot_ne_table b), h.mapped]
  · have hs : ino'.names tab' .table = (findFreeBit bitmap).toNat := by
      rw [hnames, Function.update_self]
    refine ⟨fun _ => rfl, fun _ h0 => hf ?_⟩
    rw [Inode.names, h0] at hs
    exact UInt16.toNat_inj.mp hs.symm

theorem tableOf_eq_zero {disk : Disk} (hs : ino.singleIndirectBlock = 0) :
    tableOf disk ino = fun _ => 0 := by
  funext k
  rw [tableOf, if_pos hs]

theorem Laid.single_eq_zero (h : Laid m0 bitmap ino tab B false) : ino.singleIndirectBlock = 0 := by
  by_contra hne
  have := h.table.mp hne
  cases this

/-! ### The bytes -/

def byteAt (disk : Disk) (ino : Inode) (tab : Nat → UInt16) (p : Nat) : UInt8 :=
  (disk.get (ino.names tab (blockSlot (p / 4096)))).get (p % 4096)

/-- Block `b` is written and the other blocks of the file stay. -/
theorem byteAt_set {disk : Disk} {b p : Nat} {x : Block} {used : Nat → Prop}
    (hown : Owned (ino'.names tab') used) (hb : ino'.names tab' (blockSlot b) < 8192)
    (hsame : ∀ c, c ≠ b → ino'.names tab' (blockSlot c) = ino.names tab (blockSlot c))
    (hne : p / 4096 ≠ b → ino.names tab (blockSlot (p / 4096)) ≠ 0) :
    byteAt (disk.set (ino'.names tab' (blockSlot b)) x) ino' tab' p
      = if p / 4096 = b then x.get (p % 4096) else byteAt disk ino tab p := by
  rw [byteAt]
  split
  · rename_i hpb
    rw [hpb, Arr.get_set_self _ hb]
  · rename_i hpb
    have hne' : ino'.names tab' (blockSlot (p / 4096)) ≠ 0 := by
      rw [hsame _ hpb]
      exact hne hpb
    rw [Arr.get_set_ne _ (hown.ne hne' fun he => hpb (blockSlot_inj he)), hsame _ hpb]
    rfl

/-- **A file of `len` bytes** that began with the bitmap `m0` and has the bytes `data`. -/
structure FileAt (m0 : Arr 1024 UInt8) (dev : Dev) (ino : Inode) (data : Nat → UInt8) (len : Nat) :
    Prop where
  laid : Laid m0 dev.blocksBitmap ino (tableOf dev.disk ino) (blocksOf len) (decide (102400 < len))
  bytes : ∀ p, p < len → byteAt dev.disk ino (tableOf dev.disk ino) p = data p

theorem FileAt.direct {dev : Dev} {data : Nat → UInt8} {len : Nat} (h : FileAt m0 dev ino data len)
    (hlen : len ≤ 102400) : ino.singleIndirectBlock = 0 ∧
      Laid m0 dev.blocksBitmap ino (fun _ => 0) (blocksOf len) false ∧
      ∀ p, p < len → byteAt dev.disk ino (fun _ => 0) p = data p := by
  have hlaid := h.laid
  have hbytes := h.bytes
  rw [decide_eq_false (show ¬ 102400 < len by omega)] at hlaid
  rw [tableOf_eq_zero hlaid.single_eq_zero] at hlaid hbytes
  exact ⟨hlaid.single_eq_zero, hlaid, hbytes⟩

theorem Laid.fileAt {dev : Dev} {data : Nat → UInt8} {len : Nat}
    (h : Laid m0 dev.blocksBitmap ino (fun _ => 0) (blocksOf len) false) (hlen : len ≤ 102400)
    (hbytes : ∀ p, p < len → byteAt dev.disk ino (fun _ => 0) p = data p) :
    FileAt m0 dev ino data len := by
  refine ⟨?_, ?_⟩
  · rw [tableOf_eq_zero h.single_eq_zero, decide_eq_false (show ¬ 102400 < len by omega)]
    exact h
  · rw [tableOf_eq_zero h.single_eq_zero]
    exact hbytes

/-! ### What a round writes -/

variable {buf data : Nat → UInt8} {nbyte cursor : Nat} {dev : Dev}

theorem get_wholeBlock (buf : Nat → UInt8) (pos : Nat) {k : Nat} (hk : k < 4096) :
    (wholeBlock buf pos).get k = buf (pos + k) := Arr.get_ofFn _ hk

theorem get_paddedBlock (buf : Nat → UInt8) (pos : Nat) {len k : Nat} (hk : k < 4096)
    (hlen : k < len) : (paddedBlock buf pos len).get k = buf (pos + k) := by
  rw [paddedBlock, Arr.get_blit _ _ _ _ hk, if_pos (by omega), Nat.sub_zero]

/-- Up to the end of the write, a block of data has the caller's bytes. -/
theorem get_directData {pos k : Nat} (hk : k < 4096)
    (hlt : pos + k < (directData buf nbyte pos).2) :
    (directData buf nbyte pos).1.get k = buf (pos + k) := by
  rw [directData] at hlt ⊢
  split at hlt
  · rename_i h
    rw [if_pos h]
    exact get_wholeBlock buf pos hk
  · rename_i h
    rw [if_neg h]
    simp only at hlt
    exact get_paddedBlock buf pos hk (by omega)

theorem get_tableData {needed idx pos k : Nat} (hk : k < 4096)
    (hlt : pos + k < (tableData buf nbyte needed idx pos).2) :
    (tableData buf nbyte needed idx pos).1.get k = buf (pos + k) := by
  rw [tableData] at hlt ⊢
  split at hlt
  · rename_i h
    rw [if_pos h]
    simp only at hlt
    exact get_paddedBlock buf pos hk (by omega)
  · rename_i h
    rw [if_neg h]
    exact get_wholeBlock buf pos hk

/-- A round that stops because no block is free for an empty slot has done nothing. -/
def NoBlockLeft (dev : Dev) (slot : UInt16) (r : Stop × Dev × UInt16) : Prop :=
  r = (.noSpace, dev.full, slot) ∧ slot = 0 ∧ freeCount dev.blocksBitmap = 0

/-- A round on an empty slot takes a free block and fills it, if there is one. -/
theorem Laid.writeSlot (h : Laid m0 dev.blocksBitmap ino tab B t) {firstBlock : Bool}
    (hfirst : firstBlock = false ∨ cursor % 4096 = 0) {slot : UInt16} (hslot : slot = 0)
    (pos : Nat) (blk : Block × Nat) {P : Dev × UInt16 × Nat → Prop}
    (hP : findFreeBit dev.blocksBitmap ≠ 0 →
      P ((dev.take (findFreeBit dev.blocksBitmap)).store (findFreeBit dev.blocksBitmap).toNat blk.1,
        findFreeBit dev.blocksBitmap, blk.2)) :
    Ensures (writeSlot buf nbyte cursor pos blk firstBlock dev slot) P (NoBlockLeft dev slot) := by
  rcases writeSlot_cases buf nbyte cursor pos blk firstBlock dev slot with
    ⟨h1, h2, -⟩ | ⟨-, -, hf, hr⟩ | ⟨-, hs, -⟩ | ⟨-, -, hf, hr⟩ | ⟨hb, -⟩
  · rcases hfirst with h0 | h0
    · rw [h1] at h0
      cases h0
    · exact absurd h0 h2
  · rw [hr]
    exact hP hf
  · exact absurd hslot hs
  · rw [hr]
    exact ⟨rfl, hslot, freeCount_of_findFreeBit_eq_zero (h.kept 0 h.zero) hf⟩
  · rw [hslot] at hb
    exact absurd hb (by decide)

/-- The next block of the file, filled with the caller's bytes from `pos` on. -/
theorem Laid.appendBytes (h : Laid m0 dev.blocksBitmap ino tab B t) (len : Nat)
    (hf : findFreeBit dev.blocksBitmap ≠ 0)
    (hnames : ino'.names tab' = Function.update (ino.names tab) (blockSlot B)
      (findFreeBit dev.blocksBitmap).toNat)
    (hbytes : ∀ p, p < 4096 * B → byteAt dev.disk ino tab p = data p) {x : Block}
    (hlen : len ≤ 4096 * (B + 1)) (hx : ∀ k, k < 4096 → 4096 * B + k < len →
      x.get k = data (4096 * B + k)) :
    Laid m0 (setBit (findFreeBit dev.blocksBitmap).toNat dev.blocksBitmap) ino' tab' (B + 1) t ∧
      ∀ p, p < len → byteAt (dev.disk.set (findFreeBit dev.blocksBitmap).toNat x) ino' tab' p
        = data p := by
  have hl := h.append hf hnames
  have hself : ino'.names tab' (blockSlot B) = (findFreeBit dev.blocksBitmap).toNat := by
    rw [hnames, Function.update_self]
  refine ⟨hl, ?_⟩
  intro p hp
  rw [← hself, byteAt_set hl.owned (by rw [hself]; exact (findFreeBit_spec hf).1) (fun c hc => by
    rw [hnames, Function.update_of_ne (fun he => hc (blockSlot_inj he))])
    (fun hpB => (h.mapped _).mpr (by omega))]
  split
  · rw [hx (p % 4096) (by omega) (by omega)]
    congr 1
    omega
  · exact hbytes p (by omega)

end EC440.FileSystems
