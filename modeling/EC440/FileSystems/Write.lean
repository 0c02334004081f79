import EC440.FileSystems.Read

/-!
# `fs_write`

A write goes through the direct blocks from the cursor's block on
(`writeDirectBody`), and what is left then goes through the indirect table
(`writeIndirectBody`).  A cursor inside a block makes the first round read that
block, change it and write it back; every other round takes the block its slot
names, or a free one, and writes it whole.

The loops work on the device and on the inode being written.  An early return
carries what it leaves of both: with no block free, `fs_write` returns what it has
written so far, and a block request that fails makes it return `-1`.
-/

namespace EC440.FileSystems

open EC440.Lib

inductive Stop where
  | noSpace
  | ioError
  deriving DecidableEq

/-- What an early return leaves. -/
structure WriteExit where
  why : Stop
  dev : Dev
  ino : Inode
  bytesWritten : Nat

/-- The variables of the loop over the direct blocks. -/
structure WriteVars where
  dev : Dev
  ino : Inode
  bytesWritten : Nat
  block : Nat
  firstBlock : Bool

/-- The variables of the loop over the indirect table; `table` is `ind_block`. -/
structure TableVars where
  dev : Dev
  table : Block
  idx : Nat
  bytesWritten : Nat
  firstBlock : Bool

def Inode.setDirect (ino : Inode) (j : Nat) (b : UInt16) : Inode :=
  { ino with directBlock := ino.directBlock.set j b }

/-- How much of the cursor's block the write covers. -/
def firstWriteSize (nbyte cursor : Nat) : Nat :=
  if nbyte > 4096 - cursor % 4096 then 4096 - cursor % 4096 else nbyte

/-- A whole block of the caller's bytes from `pos` on. -/
def wholeBlock (buf : Nat → UInt8) (pos : Nat) : Block := Arr.ofFn (fun k => buf (pos + k))

/-- The caller's last `len` bytes from `pos` on, padded with zeros. -/
def paddedBlock (buf : Nat → UInt8) (pos len : Nat) : Block :=
  (Arr.fill 0).blit 0 (fun k => buf (pos + k)) len

/-- What a round of the direct loop writes with `pos` bytes written, and how far that
gets. -/
def directData (buf : Nat → UInt8) (nbyte pos : Nat) : Block × Nat :=
  if nbyte - pos ≥ 4096 then (wholeBlock buf pos, pos + 4096)
  else (paddedBlock buf pos (nbyte - pos), nbyte)

/-- The same for the round at `idx` of a table of `needed` blocks. -/
def tableData (buf : Nat → UInt8) (nbyte needed idx pos : Nat) : Block × Nat :=
  if idx + 1 = needed ∧ nbyte - pos < 4096 then (paddedBlock buf pos (nbyte - pos), nbyte)
  else (wholeBlock buf pos, pos + 4096)

/-- Read the block `b`, put the caller's bytes at the cursor, write it back. -/
def rewriteBlock (dev : Dev) (b : Nat) (buf : Nat → UInt8) (nbyte cursor : Nat) : Option Dev :=
  match blockRead dev b with
  | none => none
  | some block => blockWrite dev b (block.blit (cursor % 4096) buf (firstWriteSize nbyte cursor))

/-- A round of either loop, on the slot of the current block: the device, the slot
and the number of bytes written after it.  `data` is what the round writes to a block
it does not read first. -/
def writeSlot (buf : Nat → UInt8) (nbyte cursor pos : Nat) (data : Block × Nat)
    (firstBlock : Bool) (dev : Dev) (slot : UInt16) :
    Except (Stop × Dev × UInt16) (Dev × UInt16 × Nat) :=
  if firstBlock = true ∧ cursor % 4096 ≠ 0 then
    match rewriteBlock dev slot.toNat buf nbyte cursor with
    | none => .error (.ioError, dev, slot)
    | some dev => .ok (dev, slot, pos + firstWriteSize nbyte cursor)
  else
    let (freeBlock, dev) := claimBlock dev slot
    if freeBlock = 0 then .error (.noSpace, dev, slot)
    else
      match blockWrite dev freeBlock.toNat data.1 with
      | none => .error (.ioError, dev, freeBlock)
      | some dev => .ok (dev, freeBlock, data.2)

/-- **What a round can do.**  It changes the block it starts in, or fills a block it
takes or has; it stops when no block is free, or when the slot names no block of the
disk. -/
theorem writeSlot_cases (buf : Nat → UInt8) (nbyte cursor pos : Nat) (data : Block × Nat)
    (firstBlock : Bool) (dev : Dev) (slot : UInt16) :
    (firstBlock = true ∧ cursor % 4096 ≠ 0 ∧ slot.toNat < 8192 ∧
      writeSlot buf nbyte cursor pos data firstBlock dev slot =
        .ok (dev.store slot.toNat ((dev.disk.get slot.toNat).blit (cursor % 4096) buf
          (firstWriteSize nbyte cursor)), slot, pos + firstWriteSize nbyte cursor)) ∨
    ((firstBlock = false ∨ cursor % 4096 = 0) ∧ slot = 0 ∧ findFreeBit dev.blocksBitmap ≠ 0 ∧
      writeSlot buf nbyte cursor pos data firstBlock dev slot =
        .ok ((dev.take (findFreeBit dev.blocksBitmap)).store
          (findFreeBit dev.blocksBitmap).toNat data.1, findFreeBit dev.blocksBitmap, data.2)) ∨
    ((firstBlock = false ∨ cursor % 4096 = 0) ∧ slot ≠ 0 ∧ slot.toNat < 8192 ∧
      writeSlot buf nbyte cursor pos data firstBlock dev slot =
        .ok (dev.store slot.toNat data.1, slot, data.2)) ∨
    ((firstBlock = false ∨ cursor % 4096 = 0) ∧ slot = 0 ∧ findFreeBit dev.blocksBitmap = 0 ∧
      writeSlot buf nbyte cursor pos data firstBlock dev slot =
        .error (.noSpace, dev.full, slot)) ∨
    (8192 ≤ slot.toNat ∧
      writeSlot buf nbyte cursor pos data firstBlock dev slot = .error (.ioError, dev, slot)) := by
  by_cases hfirst : firstBlock = true ∧ cursor % 4096 ≠ 0
  · by_cases hb : slot.toNat < 8192
    · refine Or.inl ⟨hfirst.1, hfirst.2, hb, ?_⟩
      rw [writeSlot, if_pos hfirst, rewriteBlock, blockRead_of_lt dev hb]
      simp only [blockWrite_of_lt dev hb]
    · refine Or.inr (Or.inr (Or.inr (Or.inr ⟨by omega, ?_⟩)))
      rw [writeSlot, if_pos hfirst, rewriteBlock, blockRead_of_ge dev (by omega)]
  · have hnf : firstBlock = false ∨ cursor % 4096 = 0 := by
      cases firstBlock with
      | false => exact Or.inl rfl
      | true => exact Or.inr (by_contra fun h => hfirst ⟨rfl, h⟩)
    rcases claimBlock_cases dev slot with ⟨hs, hf, hc⟩ | ⟨hs, hf, hc⟩ | ⟨hs, hc⟩
    · refine Or.inr (Or.inr (Or.inr (Or.inl ⟨hnf, hs, hf, ?_⟩)))
      rw [writeSlot, if_neg hfirst, hc]
      simp only [if_true]
    · refine Or.inr (Or.inl ⟨hnf, hs, hf, ?_⟩)
      rw [writeSlot, if_neg hfirst, hc]
      simp only [if_neg hf, blockWrite_of_lt _ (findFreeBit_spec hf).1]
    · by_cases hb : slot.toNat < 8192
      · refine Or.inr (Or.inr (Or.inl ⟨hnf, hs, hb, ?_⟩))
        rw [writeSlot, if_neg hfirst, hc]
        simp only [if_neg hs, blockWrite_of_lt dev hb]
      · refine Or.inr (Or.inr (Or.inr (Or.inr ⟨by omega, ?_⟩)))
        rw [writeSlot, if_neg hfirst, hc]
        simp only [if_neg hs, blockWrite_of_ge dev (show 8192 ≤ slot.toNat by omega)]

/-! ### Direct blocks -/

/-- A round of the loop over the direct blocks. -/
def writeDirectBody (buf : Nat → UInt8) (nbyte cursor : Nat) (v : WriteVars) :
    Except WriteExit WriteVars :=
  match writeSlot buf nbyte cursor v.bytesWritten (directData buf nbyte v.bytesWritten)
      v.firstBlock v.dev (v.ino.directBlock.get v.block) with
  | .error (why, dev, slot) =>
    .error ⟨why, dev, v.ino.setDirect v.block slot, v.bytesWritten⟩
  | .ok (dev, slot, written) =>
    .ok ⟨dev, v.ino.setDirect v.block slot, written, v.block + 1, false⟩

def writeDirect (buf : Nat → UInt8) (nbyte cursor : Nat) (v : WriteVars) :
    Except WriteExit WriteVars :=
  loop (fun v => decide (v.bytesWritten < nbyte ∧ v.block < 25))
    (writeDirectBody buf nbyte cursor) 25 v

/-! ### The indirect table -/

/-- A round of the loop over the indirect table, which is `needed` blocks long. -/
def writeIndirectBody (buf : Nat → UInt8) (nbyte cursor needed : Nat) (ino : Inode)
    (v : TableVars) : Except WriteExit TableVars :=
  match writeSlot buf nbyte cursor v.bytesWritten
      (tableData buf nbyte needed v.idx v.bytesWritten) v.firstBlock v.dev
      (get16 v.table v.idx) with
  | .error (why, dev, _) => .error ⟨why, dev, ino, v.bytesWritten⟩
  | .ok (dev, slot, written) =>
    .ok ⟨dev, set16 v.table v.idx slot, v.idx + 1, written, false⟩

/-- The loop over the table and the `block_write` of the table behind it. -/
def writeTable (buf : Nat → UInt8) (nbyte cursor : Nat) (ino : Inode) (v : TableVars) :
    Except WriteExit WriteVars :=
  let needed := blocksNeeded (nbyte - v.bytesWritten)
  match loop (fun v => decide (v.idx < needed))
      (writeIndirectBody buf nbyte cursor needed ino) needed v with
  | .error e => .error e
  | .ok w =>
    match blockWrite w.dev ino.singleIndirectBlock.toNat w.table with
    | none => .error ⟨.ioError, w.dev, ino, w.bytesWritten⟩
    | some dev => .ok ⟨dev, ino, w.bytesWritten, w.idx, w.firstBlock⟩

/-- The part of `fs_write` behind the direct blocks.  A table the file has already
is entered at the number of the cursor's block in the file, a new one at `0`. -/
def writeIndirect (buf : Nat → UInt8) (nbyte cursor : Nat) (v : WriteVars) :
    Except WriteExit WriteVars :=
  if nbyte - v.bytesWritten = 0 then .ok v
  else if v.ino.singleIndirectBlock ≠ 0 then
    match blockRead v.dev v.ino.singleIndirectBlock.toNat with
    | none => .error ⟨.ioError, v.dev, v.ino, v.bytesWritten⟩
    | some table =>
      writeTable buf nbyte cursor v.ino
        ⟨v.dev, table, cursor / 4096, v.bytesWritten, v.firstBlock⟩
  else
    let (freeBlock, dev) := takeFree v.dev
    if freeBlock = 0 then .error ⟨.noSpace, dev, v.ino, v.bytesWritten⟩
    else
      writeTable buf nbyte cursor { v.ino with singleIndirectBlock := freeBlock }
        ⟨dev, Arr.fill 0, 0, v.bytesWritten, v.firstBlock⟩

/-! ### The call -/

def writeBlocks (buf : Nat → UInt8) (nbyte cursor : Nat) (dev : Dev) (ino : Inode) :
    Except WriteExit WriteVars :=
  match writeDirect buf nbyte cursor ⟨dev, ino, 0, cursor / 4096, true⟩ with
  | .error e => .error e
  | .ok v => writeIndirect buf nbyte cursor v

/-- The request of `fs_write`, cut at the largest size of a file.  The sum is taken
in `size_t`. -/
def writeRequest (cursor : Int) (nbyte : Nat) : Nat :=
  if toSize (cursor + nbyte) > 2 ^ 20 then toSize (2 ^ 20 - cursor) else nbyte

/-- The end of `fs_write`: the cursor moves, and the file grows up to it. -/
def finishWrite (s : State) (fildes : Nat) (dev : Dev) (ino : Inode) (bytesWritten : Nat) :
    Int × State :=
  let fd := s.fdTable.get fildes
  let cursor := toInt32 (fd.offset + bytesWritten)
  let size := if toUInt32 cursor > ino.fileSize then toUInt32 cursor else ino.fileSize
  (toInt32 bytesWritten,
    { s with
      dev := dev
      inodeTable := s.inodeTable.set fd.inodeNumber.toNat { ino with fileSize := size }
      fdTable := s.fdTable.set fildes { fd with offset := cursor } })

def fsWrite (s : State) (fildes : Int) (buf : Nat → UInt8) (nbyte : Nat) : Int × State :=
  if fildes < 0 ∨ fildes > 31 then (-1, s)
  else if (s.fdTable.get fildes.toNat).isUsed = false then (-1, s)
  else
    let fd := s.fdTable.get fildes.toNat
    let i := fd.inodeNumber.toNat
    if i > 63 then (-1, s)
    else
      match writeBlocks buf (writeRequest fd.offset nbyte) fd.offset.toNat s.dev
          (s.inodeTable.get i) with
      | .ok v => finishWrite s fildes.toNat v.dev v.ino v.bytesWritten
      | .error ⟨.noSpace, dev, ino, n⟩ => finishWrite s fildes.toNat dev ino n
      | .error ⟨.ioError, dev, ino, _⟩ =>
        (-1, { s with dev := dev, inodeTable := s.inodeTable.set i ino })

end EC440.FileSystems
