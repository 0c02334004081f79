import EC440.FileSystems.Store

/-!
# The bytes of a file in its blocks

`KeepsBytes` says that an inode is a file with given bytes, all of them in its direct blocks.  In a
state that owns its blocks, such a file began with the bitmap that `fs_delete` would leave
(`KeepsBytes.fileAt`), so what is known about files that were only written at their end holds for it,
however it was written.
-/

namespace EC440.FileSystems

open EC440.Lib

/-- **The inode is a file with the bytes `bytes`**, in its direct blocks. -/
structure KeepsBytes (disk : Disk) (ino : Inode) (bytes : List UInt8) : Prop where
  size : ino.fileSize.toNat = bytes.length
  short : bytes.length ≤ 102400
  single : ino.singleIndirectBlock = 0
  direct : ∀ j, j < 25 → (ino.directBlock.get j ≠ 0 ↔ j < blocksOf bytes.length)
  bytes : ∀ q, q < bytes.length → byteAt disk ino (fun _ => 0) q = bytes.getD q 0

variable {s : State} {i : Nat} {disk : Disk} {ino : Inode} {bytes : List UInt8}

theorem blocksOf_le_25 {len : Nat} (h : len ≤ 102400) : blocksOf len ≤ 25 := by
  rw [blocksOf]
  omega

theorem KeepsBytes.mapped (h : KeepsBytes disk ino bytes) (b : Nat) :
    ino.names (fun _ => 0) (blockSlot b) ≠ 0 ↔ b < blocksOf bytes.length := by
  have hle := blocksOf_le_25 h.short
  by_cases hb : b < 25
  · rw [names_direct _ _ hb, ← h.direct b hb]
    exact not_congr ⟨fun h0 => UInt16.toNat_inj.mp h0, fun h0 => by rw [h0]; rfl⟩
  · refine iff_of_false (fun hne => hne ?_) (by omega)
    rw [blockSlot, if_neg hb]
    rfl

theorem keepsBytes_nil (disk : Disk) (hsize : ino.fileSize = 0)
    (hdirect : ∀ j, ino.directBlock.get j = 0) (hsingle : ino.singleIndirectBlock = 0) :
    KeepsBytes disk ino [] := by
  refine ⟨by rw [hsize]; rfl, Nat.zero_le _, hsingle, ?_, fun q hq => absurd hq (by simp)⟩
  intro j _
  exact iff_of_false (fun hne => hne (hdirect j)) (by simp [blocksOf])

theorem KeepsBytes.congr {disk' : Disk} (h : KeepsBytes disk ino bytes)
    (hdisk : ∀ j, j < 25 → ino.directBlock.get j ≠ 0 →
      disk'.get (ino.directBlock.get j).toNat = disk.get (ino.directBlock.get j).toNat) :
    KeepsBytes disk' ino bytes := by
  refine ⟨h.size, h.short, h.single, h.direct, ?_⟩
  intro q hq
  have hshort := h.short
  have hj : q / 4096 < 25 := by omega
  have hne := (h.direct _ hj).mpr (by rw [blocksOf]; omega)
  rw [← h.bytes q hq, byteAt, byteAt, names_direct _ _ hj, hdisk _ hj hne]

/-! ### The bitmap the file began with -/

section Owned

theorem KeepsBytes.ref_eq (h : KeepsBytes s.dev.disk (s.inodeTable.get i) bytes) (sl : Slot) :
    s.ref (i, sl) = (s.inodeTable.get i).names (fun _ => 0) sl := by
  rw [State.ref, tableOf_eq_zero h.single]

/-- What `fs_delete` leaves marked is what is not the file's. -/
theorem KeepsBytes.getBit_deleted (h : KeepsBytes s.dev.disk (s.inodeTable.get i) bytes) (b : Nat) :
    getBit b (deletedBitmap s.dev (s.inodeTable.get i)) = true ↔
      getBit b s.dev.blocksBitmap = true ∧
        ∀ j, j < 25 → (s.inodeTable.get i).directBlock.get j ≠ 0 →
          ((s.inodeTable.get i).directBlock.get j).toNat ≠ b := by
  rw [getBit_deletedBitmap, tableOf_eq_zero h.single]
  refine and_congr_right fun _ => ⟨fun hb => hb.1, fun hb => ⟨hb, fun _ k _ hk => absurd rfl hk⟩⟩

variable (h : KeepsBytes s.dev.disk (s.inodeTable.get i) bytes) (hoi : OI s)
include h hoi

theorem KeepsBytes.block {j : Nat} (hj : j < blocksOf bytes.length) :
    ((s.inodeTable.get i).directBlock.get j).toNat < 8192 ∧
      getBit ((s.inodeTable.get i).directBlock.get j).toNat s.dev.blocksBitmap = true := by
  have hle := blocksOf_le_25 h.short
  have hne := (h.direct j (by omega)).mpr hj
  have hused := hoi.owned.used_of_ne (i, .direct j) fun h0 => hne (UInt16.toNat_inj.mp h0)
  exact ⟨hused.2.1, hused.2.2⟩

/-- **Deleting the file would free its blocks**, each of them once. -/
theorem KeepsBytes.freeCount_deleted :
    freeCount (deletedBitmap s.dev (s.inodeTable.get i))
      = freeCount s.dev.blocksBitmap + blocksOf bytes.length := by
  have hle := blocksOf_le_25 h.short
  let block : Nat → Nat := fun j => ((s.inodeTable.get i).directBlock.get j).toNat
  have hne : ∀ j, j < blocksOf bytes.length → (s.inodeTable.get i).directBlock.get j ≠ 0 :=
    fun j hj => (h.direct j (by omega)).mpr hj
  have hinj : Set.InjOn block (Finset.range (blocksOf bytes.length)) := by
    intro a ha b _ hab
    have ha' := hne a (by simpa using ha)
    have hsame := hoi.owned.inj (i, .direct a) (i, .direct b)
      (fun h0 => ha' (UInt16.toNat_inj.mp h0)) hab
    simpa using hsame
  have hcells : freeCells (fun b => getBit b (deletedBitmap s.dev (s.inodeTable.get i))) 8192
      = freeCells (fun b => getBit b s.dev.blocksBitmap) 8192 ∪
        (Finset.range (blocksOf bytes.length)).image block := by
    ext b
    rw [Finset.mem_union, mem_freeCells, mem_freeCells, Finset.mem_image, ← Bool.not_eq_true,
      h.getBit_deleted, ← Bool.not_eq_true]
    constructor
    · rintro ⟨hb, hfree⟩
      by_cases hbit : getBit b s.dev.blocksBitmap = true
      · obtain ⟨j, hj, hj0, he⟩ : ∃ j, j < 25 ∧ (s.inodeTable.get i).directBlock.get j ≠ 0 ∧
            ((s.inodeTable.get i).directBlock.get j).toNat = b := by
          by_contra hno
          exact hfree ⟨hbit, fun j hj hj0 he => hno ⟨j, hj, hj0, he⟩⟩
        exact Or.inr ⟨j, Finset.mem_range.mpr ((h.direct j hj).mp hj0), he⟩
      · exact Or.inl ⟨hb, hbit⟩
    · rintro (⟨hb, hbit⟩ | ⟨j, hj, rfl⟩)
      · exact ⟨hb, fun hall => hbit hall.1⟩
      · have hj' := Finset.mem_range.mp hj
        exact ⟨(h.block hoi hj').1, fun hall => hall.2 j (by omega) (hne j hj') rfl⟩
  have hdisj : Disjoint (freeCells (fun b => getBit b s.dev.blocksBitmap) 8192)
      ((Finset.range (blocksOf bytes.length)).image block) := by
    rw [Finset.disjoint_left]
    intro b hb hb'
    obtain ⟨j, hj, rfl⟩ := Finset.mem_image.mp hb'
    have hset := (h.block hoi (Finset.mem_range.mp hj)).2
    rw [(mem_freeCells.mp hb).2] at hset
    cases hset
  rw [freeCount, freeCount, hcells, Finset.card_union_of_disjoint hdisj, Finset.card_image_of_injOn hinj,
    Finset.card_range]

/-- **The file as one that began with that bitmap.** -/
theorem KeepsBytes.fileAt :
    FileAt (deletedBitmap s.dev (s.inodeTable.get i)) s.dev (s.inodeTable.get i)
      (fun q => bytes.getD q 0) bytes.length := by
  have hdel := h.getBit_deleted
  have hnamed : ∀ sl, (s.inodeTable.get i).names (fun _ => 0) sl ≠ 0 →
      ∃ j, j < 25 ∧ sl = .direct j ∧ (s.inodeTable.get i).directBlock.get j ≠ 0 := by
    intro sl hsl
    cases sl with
    | direct j =>
      have hne : (s.inodeTable.get i).directBlock.get j ≠ 0 := fun h0 => hsl (by rw [Inode.names, h0]; rfl)
      refine ⟨j, ?_, rfl, hne⟩
      by_contra hge
      exact hne (Arr.get_of_ge _ (by omega))
    | table => exact absurd (by rw [Inode.names, h.single]; rfl) hsl
    | entry k => exact absurd rfl hsl
  refine Laid.fileAt ?_ h.short h.bytes
  refine ⟨?_, fun b hb => ((hdel b).mp hb).1, ⟨?_, ?_⟩, ?_, h.mapped, ?_, ?_⟩
  · refine getBit_deletedBitmap_of_ne (hoi.reserved 0 (by decide)) ?_
    intro sl hsl
    exact hsl
  · intro sl hsl
    obtain ⟨j, hj, rfl, hne⟩ := hnamed sl hsl
    have hblock := h.block hoi ((h.direct j hj).mp hne)
    refine ⟨hblock.1, hblock.2, Bool.eq_false_iff.mpr fun hbit => ?_⟩
    exact ((hdel _).mp hbit).2 j hj hne rfl
  · intro sl sl' hsl he
    have hsame := hoi.owned.inj (i, sl) (i, sl') (by rw [h.ref_eq]; exact hsl)
      (by rw [h.ref_eq, h.ref_eq]; exact he)
    exact (Prod.mk.inj hsame).2
  · intro b hb
    by_contra hno
    rw [not_or] at hno
    exact hno.1 ((hdel b).mpr ⟨hb, fun j _ _ he => hno.2 ⟨.direct j, he⟩⟩)
  · exact iff_of_false (fun hne => hne h.single) (by decide)
  · rw [h.freeCount_deleted hoi, Bool.toNat_false, Nat.add_zero]

end Owned

/-- The other way: a file that was followed from its first bitmap on. -/
theorem FileAt.keepsBytes {m0 : Arr 1024 UInt8} {dev : Dev} {data : Nat → UInt8}
    (h : FileAt m0 dev ino data bytes.length) (hshort : bytes.length ≤ 102400)
    (hsize : ino.fileSize.toNat = bytes.length)
    (hdata : ∀ q, q < bytes.length → data q = bytes.getD q 0) : KeepsBytes dev.disk ino bytes := by
  obtain ⟨hsingle, hlaid, hbytes⟩ := h.direct hshort
  refine ⟨hsize, hshort, hsingle, ?_, fun q hq => (hbytes q hq).trans (hdata q hq)⟩
  intro j hj
  rw [← hlaid.mapped j, names_direct _ _ hj]
  exact not_congr ⟨fun h0 => by rw [h0]; rfl, fun h0 => UInt16.toNat_inj.mp h0⟩

end EC440.FileSystems
