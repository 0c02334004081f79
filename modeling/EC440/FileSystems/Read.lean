import EC440.FileSystems.State
import EC440.Lib.Loop

/-!
# `fs_read`

A read goes through the direct blocks and then through the blocks of the indirect
table.  The two loops do the same with a block (`readBlock`): the first block is
read from the cursor to the end of the block or of the file, and every later one
whole, or as far as the request goes.  Only the first block looks at the size of the
file.

`buf` is the caller's memory from the pointer on.
-/

namespace EC440.FileSystems

open EC440.Lib

/-- The variables of the loops of `fs_read`. -/
structure ReadVars where
  buf : Nat → UInt8
  bytesRead : Nat
  i : Nat
  firstBlock : Bool

/-- `memcpy(buf + at, block + off, len)`. -/
def copyOut (buf : Nat → UInt8) (pos : Nat) (block : Block) (off len : Nat) : Nat → UInt8 :=
  fun k => if pos ≤ k ∧ k < pos + len then block.get (off + (k - pos)) else buf k

/-- What a block has from the cursor on, as far as the request and the file go. -/
def firstReadSize (nbyte cursor fileSize : Nat) : Nat :=
  let readSize := if nbyte > 4096 - cursor % 4096 then 4096 - cursor % 4096 else nbyte
  if fileSize - cursor > readSize then readSize else fileSize - cursor

/-- One round of either loop, on the block number `b`. -/
def readBlock (dev : Dev) (nbyte cursor fileSize : Nat) (b : UInt16) (v : ReadVars) :
    Except ReadVars ReadVars :=
  if b = 0 then .ok { v with i := v.i + 1 }
  else
    match blockRead dev b.toNat with
    | none => .error v
    | some block =>
      if v.firstBlock then
        let readSize := firstReadSize nbyte cursor fileSize
        .ok { buf := copyOut v.buf 0 block (cursor % 4096) readSize
              bytesRead := v.bytesRead + readSize
              i := v.i + 1
              firstBlock := false }
      else if nbyte - v.bytesRead < 4096 then
        .ok { v with
              buf := copyOut v.buf v.bytesRead block 0 (nbyte - v.bytesRead)
              bytesRead := nbyte
              i := v.i + 1 }
      else
        .ok { v with
              buf := copyOut v.buf v.bytesRead block 0 4096
              bytesRead := v.bytesRead + 4096
              i := v.i + 1 }

def readDirect (dev : Dev) (ino : Inode) (nbyte cursor fileSize : Nat) (v : ReadVars) :
    Except ReadVars ReadVars :=
  loop (fun v => decide (v.i < 25 ∧ nbyte - v.bytesRead > 0 ∧ fileSize > v.bytesRead + cursor))
    (fun v => readBlock dev nbyte cursor fileSize (ino.directBlock.get v.i) v) 25 v

def blocksNeeded (rem : Nat) : Nat :=
  (if rem % 4096 = 0 then rem / 4096 else rem / 4096 + 1) % 65536

/-- The part of `fs_read` that goes through the indirect table.  Past the direct
blocks the loop starts at the number of the block in the file, not in the table. -/
def readIndirect (dev : Dev) (ino : Inode) (nbyte cursor fileSize : Nat) (v : ReadVars) :
    Except ReadVars ReadVars :=
  if nbyte - v.bytesRead > 0 ∧ ino.singleIndirectBlock ≠ 0 ∧ fileSize > v.bytesRead + cursor then
    match blockRead dev ino.singleIndirectBlock.toNat with
    | none => .error v
    | some table =>
      let needed := blocksNeeded (nbyte - v.bytesRead)
      loop (fun v => decide (v.i < needed))
        (fun v => readBlock dev nbyte cursor fileSize (get16 table v.i) v) needed
        { v with i := if cursor / 4096 < 25 then 0 else cursor / 4096 }
  else .ok v

def readBlocks (dev : Dev) (ino : Inode) (nbyte cursor fileSize : Nat) (buf : Nat → UInt8) :
    Except ReadVars ReadVars :=
  match readDirect dev ino nbyte cursor fileSize ⟨buf, 0, cursor / 4096, true⟩ with
  | .error v => .error v
  | .ok v => readIndirect dev ino nbyte cursor fileSize v

/-- `fs_read`: the return value, the buffer and the state. -/
def fsRead (s : State) (fildes : Int) (buf : Nat → UInt8) (nbyte : Nat) :
    Int × (Nat → UInt8) × State :=
  if fildes < 0 ∨ fildes > 31 then (-1, buf, s)
  else if (s.fdTable.get fildes.toNat).isUsed = false then (-1, buf, s)
  else
    let fd := s.fdTable.get fildes.toNat
    let ino := s.inodeTable.get fd.inodeNumber.toNat
    let nbyte := if nbyte > 2 ^ 20 then 2 ^ 20 else nbyte
    match readBlocks s.dev ino nbyte fd.offset.toNat ino.fileSize.toNat buf with
    | .error v => (-1, v.buf, s)
    | .ok v =>
      (toInt32 v.bytesRead, v.buf,
        { s with fdTable := s.fdTable.set fildes.toNat
                   { fd with offset := toInt32 (fd.offset + v.bytesRead) } })

theorem fsRead_cases (s : State) (fildes : Int) (buf : Nat → UInt8) (nbyte : Nat) :
    ((fsRead s fildes buf nbyte).1 = -1 ∧ (fsRead s fildes buf nbyte).2.2 = s) ∨
    (0 ≤ fildes ∧ fildes ≤ 31 ∧ (s.fd fildes).isUsed = true ∧
      ∃ v, readBlocks s.dev (s.inodeOf fildes) (min nbyte (2 ^ 20)) (s.fd fildes).offset.toNat
          (s.inodeOf fildes).fileSize.toNat buf = .ok v ∧
        fsRead s fildes buf nbyte = (toInt32 v.bytesRead, v.buf,
          { s with fdTable := s.fdTable.set fildes.toNat
                     { s.fd fildes with
                       offset := toInt32 ((s.fd fildes).offset + v.bytesRead) } })) := by
  by_cases hfd : fildes < 0 ∨ fildes > 31
  · refine Or.inl ?_
    rw [fsRead, if_pos hfd]
    exact ⟨rfl, rfl⟩
  · by_cases hu : (s.fdTable.get fildes.toNat).isUsed = false
    · refine Or.inl ?_
      rw [fsRead, if_neg hfd, if_pos hu]
      exact ⟨rfl, rfl⟩
    · have hmin : (if nbyte > 2 ^ 20 then 2 ^ 20 else nbyte) = min nbyte (2 ^ 20) := by
        split <;> omega
      rw [fsRead, if_neg hfd, if_neg hu]
      simp only [hmin]
      cases hr : readBlocks s.dev (s.inodeOf fildes) (min nbyte (2 ^ 20))
          (s.fd fildes).offset.toNat (s.inodeOf fildes).fileSize.toNat buf with
      | error v => exact Or.inl ⟨rfl, rfl⟩
      | ok v => exact Or.inr ⟨by omega, by omega, by simpa using hu, v, rfl, rfl⟩

end EC440.FileSystems
