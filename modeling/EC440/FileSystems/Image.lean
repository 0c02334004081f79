import EC440.FileSystems.Mount

/-!
# What is on a disk

`Image disk t` says that the first five blocks of a disk hold the tables `t`, each
at the block the layout gives it.  `umount_fs` and `make_fs` write an image
(`umountBlocks_image`, `makeBlocks_image`) and `mount_fs` reads one
(`mountBlocks_image`), so what is left in the buffer from one structure to the next
never reaches the tables: every byte that is read was written by the structure it
is read as.
-/

namespace EC440.FileSystems

open EC440.Lib

/-- The tables `umount_fs` saves, besides the superblock. -/
structure Tables where
  dirTable : Arr 64 DirEntry
  inodesBitmap : Arr 8 UInt8
  blocksBitmap : Arr 1024 UInt8
  inodeTable : Arr 64 Inode

def State.tables (s : State) : Tables :=
  ⟨s.dirTable, s.inodesBitmap, s.dev.blocksBitmap, s.inodeTable⟩

/-- The disk holds the tables, laid out as `make_fs` lays them out. -/
structure Image (disk : Disk) (t : Tables) : Prop where
  superblock : ∀ k, k < 18 → (disk.get 0).get k = layout.byte k
  dirs : ∀ i, i < 64 → ∀ d, d < 20 → (disk.get 1).get (i * 20 + d) = (t.dirTable.get i).byte d
  inodesBitmap : ∀ k, k < 8 → (disk.get 2).get k = t.inodesBitmap.get k
  blocksBitmap : ∀ k, k < 1024 → (disk.get 3).get k = t.blocksBitmap.get k
  inodes : ∀ i, i < 64 → ∀ d, d < 60 →
    (disk.get 4).get (i * 60 + d) = (t.inodeTable.get i).byte d

theorem layout_blocks : layout.dirEntryOffset.toNat = 1 ∧ layout.inodeBitmapOffset.toNat = 2 ∧
    layout.blockBitmapOffset.toNat = 3 ∧ layout.inodeOffset.toNat = 4 ∧
    layout.dataBlockOffset.toNat = 5 := by decide

/-! ### Writing an image -/

theorem writeOr_of_lt (dev : Dev) {b : Nat} (h : b < 8192) (buf : Block) :
    writeOr dev b buf = .ok (dev.store b buf) := by
  rw [writeOr, blockWrite_of_lt dev h]

/-- Records laid end to end are read back one by one. -/
theorem get_records (block : Block) {size : Nat} (hs : 0 < size) (src : Nat → Nat → UInt8)
    {i d : Nat} (hi : i < 64) (hd : d < size) (hsize : 64 * size ≤ 4096) :
    (block.blitAll size src 64).get (i * size + d) = src i d := by
  have hle : (i + 1) * size ≤ 64 * size := Nat.mul_le_mul_right size hi
  rw [Nat.succ_mul] at hle
  have hdiv : (i * size + d) / size = i := by
    rw [Nat.mul_comm, Nat.mul_add_div hs, Nat.div_eq_of_lt hd, Nat.add_zero]
  have hmod : (i * size + d) % size = d := by
    rw [Nat.mul_comm, Nat.mul_add_mod, Nat.mod_eq_of_lt hd]
  rw [Arr.get_blitAll _ hs _ _ (by omega), if_pos (by omega), hdiv, hmod]

theorem get_prefix (block : Block) (src : Nat → UInt8) {len k : Nat} (hk : k < len)
    (hlen : len ≤ 4096) : (block.blit 0 src len).get k = src k := by
  rw [Arr.get_blit _ _ _ _ (by omega), if_pos (by omega), Nat.sub_zero]

def setFive (disk : Disk) (b₀ b₁ b₂ b₃ b₄ : Block) : Disk :=
  ((((disk.set 0 b₀).set 1 b₁).set 2 b₂).set 3 b₃).set 4 b₄

theorem get_setFive (disk : Disk) (b₀ b₁ b₂ b₃ b₄ : Block) :
    (setFive disk b₀ b₁ b₂ b₃ b₄).get 0 = b₀ ∧ (setFive disk b₀ b₁ b₂ b₃ b₄).get 1 = b₁ ∧
    (setFive disk b₀ b₁ b₂ b₃ b₄).get 2 = b₂ ∧ (setFive disk b₀ b₁ b₂ b₃ b₄).get 3 = b₃ ∧
    (setFive disk b₀ b₁ b₂ b₃ b₄).get 4 = b₄ ∧
    ∀ b, 5 ≤ b → (setFive disk b₀ b₁ b₂ b₃ b₄).get b = disk.get b := by
  refine ⟨?_, ?_, ?_, ?_, ?_, fun b hb => ?_⟩
  all_goals simp only [setFive, Arr.get_set]
  · simp
  · simp
  · simp
  · simp
  · simp
  · rw [if_neg (by omega), if_neg (by omega), if_neg (by omega), if_neg (by omega),
      if_neg (by omega)]

/-- **`umount_fs` writes an image** of the tables, and no other block. -/
theorem umountBlocks_image {s : State} (hsb : s.sb = layout) :
    ∃ dev, umountBlocks s = .ok dev ∧ Image dev.disk s.tables ∧
      dev.blocksBitmap = s.dev.blocksBitmap ∧
      ∀ b, 5 ≤ b → dev.disk.get b = s.dev.disk.get b := by
  obtain ⟨h1, h2, h3, h4, -⟩ := layout_blocks
  let b₀ : Block := (Arr.fill 0).blit 0 layout.byte 18
  let b₁ := (wipe b₀).blitAll 20 (fun i => (s.dirTable.get i).byte) 64
  let b₂ := (wipe b₁).blit 0 s.inodesBitmap.get 8
  let b₃ := (wipe b₂).blit 0 s.dev.blocksBitmap.get 1024
  let b₄ := (wipe b₃).blitAll 60 (fun i => (s.inodeTable.get i).byte) 64
  obtain ⟨g0, g1, g2, g3, g4, g5⟩ := get_setFive s.dev.disk b₀ b₁ b₂ b₃ b₄
  refine ⟨{ s.dev with
    disk := setFive s.dev.disk b₀ b₁ b₂ b₃ b₄
    trace := .wrote 4 :: .wrote 3 :: .wrote 2 :: .wrote 1 :: .wrote 0 :: s.dev.trace },
    ?_, ⟨?_, ?_, ?_, ?_, ?_⟩, rfl, g5⟩
  · rw [umountBlocks, hsb, h1, h2, h3, h4, writeOr_of_lt _ (by omega)]
    simp only [bind, Except.bind]
    rw [writeOr_of_lt _ (by omega)]
    simp only
    rw [writeOr_of_lt _ (by omega)]
    simp only
    rw [writeOr_of_lt _ (by omega)]
    simp only
    rw [writeOr_of_lt _ (by omega)]
    rfl
  · intro k hk
    rw [g0]
    exact get_prefix _ _ hk (by omega)
  · intro i hi d hd
    rw [g1]
    exact get_records _ (by omega) (fun i => (s.dirTable.get i).byte) hi hd (by omega)
  · intro k hk
    rw [g2]
    exact get_prefix _ _ hk (by omega)
  · intro k hk
    rw [g3]
    exact get_prefix _ _ hk (by omega)
  · intro i hi d hd
    rw [g4]
    exact get_records _ (by omega) (fun i => (s.inodeTable.get i).byte) hi hd (by omega)

/-- The tables of an empty file system, with the bitmap `make_fs` finds in memory and
marks the first five blocks of. -/
def emptyTables (bitmap : Arr 1024 UInt8) : Tables where
  dirTable := Arr.fill DirEntry.empty
  inodesBitmap := Arr.fill 0
  blocksBitmap := setBits 5 bitmap
  inodeTable := Arr.ofFn (fun i => Inode.empty (UInt16.ofNat i))

theorem empty_byte (k : Nat) : DirEntry.empty.byte k = 0 := by
  simp only [DirEntry.byte, DirEntry.empty]
  by_cases h : k < 17
  · by_cases h0 : k = 0
    · simp [h0]
    · simp only [h0, h, if_false, if_true]
      exact Arr.get_fill_default _
  · simp only [h, if_false, byte16]
    split
    · rfl
    · split <;> simp

/-- **`make_fs` writes an image** of empty tables, but with the bitmap that was in
memory, and no other block. -/
theorem makeBlocks_image (dev : Dev) :
    ∃ dev', makeBlocks dev = .ok dev' ∧ Image dev'.disk (emptyTables dev.blocksBitmap) ∧
      dev'.blocksBitmap = setBits 5 dev.blocksBitmap ∧
      ∀ b, 5 ≤ b → dev'.disk.get b = dev.disk.get b := by
  obtain ⟨h1, h2, h3, h4, h5⟩ := layout_blocks
  let b₀ : Block := (Arr.fill 0).blit 0 layout.byte 18
  let b₁ := (wipe b₀).blitAll 20 (fun _ => DirEntry.empty.byte) 64
  let b₂ := wipe b₁
  let b₃ := (wipe b₂).blit 0 (setBits 5 dev.blocksBitmap).get 1024
  let b₄ := (wipe b₃).blitAll 60 (fun i => (Inode.empty (UInt16.ofNat i)).byte) 64
  obtain ⟨g0, g1, g2, g3, g4, g5⟩ := get_setFive dev.disk b₀ b₁ b₂ b₃ b₄
  refine ⟨{
    disk := setFive dev.disk b₀ b₁ b₂ b₃ b₄
    blocksBitmap := setBits 5 dev.blocksBitmap
    trace := .wrote 4 :: .wrote 3 :: .wrote 2 :: .wrote 1 :: .wrote 0 :: dev.trace },
    ?_, ⟨?_, ?_, ?_, ?_, ?_⟩, rfl, g5⟩
  · rw [makeBlocks, h1, h2, h3, h4, h5, writeOr_of_lt _ (by omega)]
    simp only [bind, Except.bind]
    rw [writeOr_of_lt _ (by omega)]
    simp only
    rw [writeOr_of_lt _ (by omega)]
    simp only
    rw [writeOr_of_lt _ (by omega)]
    simp only
    rw [writeOr_of_lt _ (by omega)]
    rfl
  · intro k hk
    rw [g0]
    exact get_prefix _ _ hk (by omega)
  · intro i hi d hd
    rw [g1, show (emptyTables dev.blocksBitmap).dirTable.get i = DirEntry.empty from
      Arr.get_fill _ hi]
    exact get_records _ (by omega) (fun _ => DirEntry.empty.byte) hi hd (by omega)
  · -- the bitmap of inodes is never stored: it is what the empty entries left
    intro k hk
    rw [g2, show (emptyTables dev.blocksBitmap).inodesBitmap.get k = 0 from Arr.get_fill _ hk]
    show (b₁.blit 0 (fun _ => 0) 4).get k = 0
    rw [Arr.get_blit _ _ _ _ (by omega)]
    split
    · rfl
    · rw [Arr.get_blitAll _ (by omega) _ _ (by omega), if_pos (by omega)]
      exact empty_byte _
  · intro k hk
    rw [g3]
    exact get_prefix _ _ hk (by omega)
  · intro i hi d hd
    rw [g4, show (emptyTables dev.blocksBitmap).inodeTable.get i = Inode.empty (UInt16.ofNat i) from
      Arr.get_ofFn (fun i => Inode.empty (UInt16.ofNat i)) hi]
    exact get_records _ (by omega) (fun i => (Inode.empty (UInt16.ofNat i)).byte) hi hd (by omega)

/-! ### Reading an image -/

theorem readOr_of_lt (s : State) {b : Nat} (h : b < 8192) :
    readOr s b = .ok (s.dev.disk.get b) := by
  rw [readOr, blockRead_of_lt s.dev h]

/-- The state `mount_fs` sets up from the tables `t`. -/
def mounted (disk : Disk) (t : Tables) : State where
  sb := layout
  fdTable := Arr.fill FDesc.closed
  inodeTable := t.inodeTable
  dirTable := t.dirTable
  inodesBitmap := t.inodesBitmap
  isFsMounted := true
  dev := ⟨disk, t.blocksBitmap, []⟩

/-- **`mount_fs` reads an image**, whatever was in memory. -/
theorem mountBlocks_image {s : State} {t : Tables} (h : Image s.dev.disk t) :
    mountBlocks s = .ok (mounted s.dev.disk t) := by
  obtain ⟨h1, h2, h3, h4, -⟩ := layout_blocks
  have hsb : Superblock.ofBytes (s.dev.disk.get 0).get = layout :=
    Superblock.ofBytes_eq h.superblock
  have hdirs : (Arr.ofFn (fun i =>
      DirEntry.ofBytes (fun d => (s.dev.disk.get 1).get (i * 20 + d))) : Arr 64 DirEntry)
      = t.dirTable := by
    refine Arr.ext_get ?_
    intro i hi
    rw [Arr.get_ofFn _ hi]
    exact DirEntry.ofBytes_eq (h.dirs i hi)
  have hinodes : (Arr.ofFn (fun i =>
      Inode.ofBytes (fun d => (s.dev.disk.get 4).get (i * 60 + d))) : Arr 64 Inode)
      = t.inodeTable := by
    refine Arr.ext_get ?_
    intro i hi
    rw [Arr.get_ofFn _ hi]
    exact Inode.ofBytes_eq (h.inodes i hi)
  have hibm : (Arr.ofFn (s.dev.disk.get 2).get : Arr 8 UInt8) = t.inodesBitmap := by
    refine Arr.ext_get ?_
    intro k hk
    rw [Arr.get_ofFn _ hk, h.inodesBitmap k hk]
  have hbbm : (Arr.ofFn (s.dev.disk.get 3).get : Arr 1024 UInt8) = t.blocksBitmap := by
    refine Arr.ext_get ?_
    intro k hk
    rw [Arr.get_ofFn _ hk, h.blocksBitmap k hk]
  rw [mountBlocks, readOr_of_lt _ (by omega)]
  simp only [bind, Except.bind, hsb, h1, h2, h3, h4]
  rw [readOr_of_lt _ (by omega)]
  simp only [hdirs]
  rw [readOr_of_lt _ (by omega)]
  simp only [hibm]
  rw [readOr_of_lt _ (by omega)]
  simp only [hbbm]
  rw [readOr_of_lt _ (by omega)]
  simp only [hinodes]
  rfl

end EC440.FileSystems
