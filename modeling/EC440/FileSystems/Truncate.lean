import EC440.FileSystems.State

/-!
# `fs_truncate`

The blocks behind the new end of the file are given back to the bitmap: the direct
ones from the first whole block on, up to the first slot that names none, and, when
that loop gets through all 25 slots, everything the indirect table names.  The
slots themselves keep their values.
-/

namespace EC440.FileSystems

open EC440.Lib

/-- The loop of `fs_truncate` over the direct blocks, for at most `n` rounds. -/
def releaseDirect (ino : Inode) : Nat → Nat → Arr 1024 UInt8 → Nat × Arr 1024 UInt8
  | 0, start, bitmap => (start, bitmap)
  | n + 1, start, bitmap =>
      if start < 25 then
        if ino.directBlock.get start ≠ 0 then
          releaseDirect ino n (start + 1) (clearBit (ino.directBlock.get start).toNat bitmap)
        else (start, bitmap)
      else (start, bitmap)

/-- The first block behind `length` bytes, as an `unsigned short`. -/
def startingBlock (length : Nat) : Nat :=
  (if length % 4096 = 0 then length / 4096 else length / 4096 + 1) % 65536

/-- The end of `fs_truncate`. -/
def finishTruncate (s : State) (fildes : Nat) (length : Nat) (bitmap : Arr 1024 UInt8) : State :=
  let fd := s.fdTable.get fildes
  let ino := s.inodeTable.get fd.inodeNumber.toNat
  { s with
    dev := { s.dev with blocksBitmap := bitmap }
    inodeTable := s.inodeTable.set fd.inodeNumber.toNat
      { ino with fileSize := toUInt32 length }
    fdTable :=
      if fd.offset > length then s.fdTable.set fildes { fd with offset := toInt32 length }
      else s.fdTable }

def fsTruncate (s : State) (fildes : Int) (length : Int) : Int × State :=
  if fildes < 0 ∨ fildes > 31 then (-1, s)
  else if (s.fdTable.get fildes.toNat).isUsed = false then (-1, s)
  else
    let ino := s.inodeTable.get (s.fdTable.get fildes.toNat).inodeNumber.toNat
    if length < 0 ∨ length > ino.fileSize.toNat then (-1, s)
    else if length = ino.fileSize.toNat then (0, s)
    else
      let (start, direct) :=
        releaseDirect ino 25 (startingBlock length.toNat) s.dev.blocksBitmap
      let table :=
        if ino.singleIndirectBlock ≠ 0 ∧ ino.singleIndirectBlock.toNat < 8192 ∧ start ≥ 25 then
          (blockRead s.dev ino.singleIndirectBlock.toNat).map
            (fun block => clearBlocks (get16 block) 2048 direct)
        else some direct
      match table with
      | none => (-1, { s with dev := { s.dev with blocksBitmap := direct } })
      | some bitmap => (0, finishTruncate s fildes.toNat length.toNat bitmap)

/-- The bitmap after `fs_truncate` has released the blocks of `ino` behind `length`. -/
def truncatedBitmap (dev : Dev) (ino : Inode) (length : Nat) : Arr 1024 UInt8 :=
  let r := releaseDirect ino 25 (startingBlock length) dev.blocksBitmap
  if ino.singleIndirectBlock ≠ 0 ∧ ino.singleIndirectBlock.toNat < 8192 ∧ r.1 ≥ 25 then
    clearBlocks (get16 (dev.disk.get ino.singleIndirectBlock.toNat)) 2048 r.2
  else r.2

/-- **What `fs_truncate` can do**: fail, leave a file that has the length already, or
release blocks and set the size. -/
theorem fsTruncate_cases (s : State) (fildes length : Int) :
    ((0 ≤ fildes → fildes ≤ 31 → (s.fd fildes).isUsed = true → 0 ≤ length →
        (s.inodeOf fildes).fileSize.toNat < length) ∧ fsTruncate s fildes length = (-1, s)) ∨
    (0 ≤ fildes ∧ fildes ≤ 31 ∧ (s.fd fildes).isUsed = true ∧
      length = (s.inodeOf fildes).fileSize.toNat ∧ fsTruncate s fildes length = (0, s)) ∨
    (0 ≤ fildes ∧ fildes ≤ 31 ∧ (s.fd fildes).isUsed = true ∧ 0 ≤ length ∧
      length < (s.inodeOf fildes).fileSize.toNat ∧
      fsTruncate s fildes length = (0, finishTruncate s fildes.toNat length.toNat
        (truncatedBitmap s.dev (s.inodeOf fildes) length.toNat))) := by
  by_cases hfd : fildes < 0 ∨ fildes > 31
  · exact Or.inl ⟨fun _ _ => by omega, by rw [fsTruncate, if_pos hfd]⟩
  · by_cases hu : (s.fdTable.get fildes.toNat).isUsed = false
    · refine Or.inl ⟨?_, by rw [fsTruncate, if_neg hfd, if_pos hu]⟩
      intro _ _ hu'
      rw [show (s.fd fildes).isUsed = false from hu] at hu'
      cases hu'
    · have hu' : (s.fd fildes).isUsed = true := by simpa using hu
      by_cases hl : length < 0 ∨ length > (s.inodeOf fildes).fileSize.toNat
      · refine Or.inl ⟨fun _ _ _ _ => by omega, ?_⟩
        rw [fsTruncate, if_neg hfd, if_neg hu]
        simp only [if_pos hl]
      · by_cases he : length = (s.inodeOf fildes).fileSize.toNat
        · refine Or.inr (Or.inl ⟨by omega, by omega, hu', he, ?_⟩)
          rw [fsTruncate, if_neg hfd, if_neg hu]
          simp only [if_neg hl, if_pos he]
        · refine Or.inr (Or.inr ⟨by omega, by omega, hu', by omega, by omega, ?_⟩)
          rw [fsTruncate, if_neg hfd, if_neg hu, truncatedBitmap]
          simp only [if_neg hl, if_neg he]
          by_cases ht : (s.inodeOf fildes).singleIndirectBlock ≠ 0 ∧
              (s.inodeOf fildes).singleIndirectBlock.toNat < 8192 ∧
              (releaseDirect (s.inodeOf fildes) 25 (startingBlock length.toNat)
                s.dev.blocksBitmap).1 ≥ 25
          · simp only [if_pos ht, blockRead_of_lt s.dev ht.2.1, Option.map_some]
          · simp only [if_neg ht]

end EC440.FileSystems
