import EC440.FileSystems.State
import Mathlib.Logic.Function.Basic

/-!
# `make_fs`, `mount_fs` and `umount_fs`

A process has the globals of `fs.c`, the virtual disks by name, and the disk it has
open.  `open_disk`, `close_disk` and `make_disk` are declared in `disk.h` only: a disk
is opened with the contents it has and closed with the contents it then has, and
`blank` is what `make_disk` puts in a new one.

All three functions build the blocks they write in one buffer.  Between two
structures they clear `sizeof(BLOCK_SIZE)` bytes of it, which is 4, so each block
carries what is left of the one before (`wipe`).
-/

namespace EC440.FileSystems

open EC440.Lib

/-- The process: the globals, the disks, and the name of the open disk. -/
structure Process where
  fs : State
  disks : String → Disk
  active : Option String

def State.start : State where
  sb := ⟨0, 0, 0, 0, 0, 0, 0, 0, 0⟩
  fdTable := Arr.fill FDesc.closed
  inodeTable := Arr.fill (Inode.empty 0)
  dirTable := Arr.fill DirEntry.empty
  inodesBitmap := Arr.fill 0
  isFsMounted := false
  dev := ⟨Arr.fill (Arr.fill 0), Arr.fill 0, []⟩

/-! ### Disks -/

def makeDisk (blank : Disk) (p : Process) (name : String) : Process :=
  { p with disks := Function.update p.disks name blank }

def openDisk (p : Process) (name : String) : Process :=
  { p with active := some name, fs := { p.fs with dev := { p.fs.dev with disk := p.disks name } } }

def closeDisk (p : Process) : Process :=
  match p.active with
  | none => p
  | some name =>
    { p with active := none, disks := Function.update p.disks name p.fs.dev.disk }

/-- `memset(block, 0, sizeof(BLOCK_SIZE))`. -/
def wipe (block : Block) : Block := block.blit 0 (fun _ => 0) 4

/-- A `block_write` whose failure ends the function. -/
def writeOr (dev : Dev) (block : Nat) (buf : Block) : Except Dev Dev :=
  match blockWrite dev block buf with
  | none => .error dev
  | some dev => .ok dev

/-- A `block_read` whose failure ends the function. -/
def readOr (s : State) (block : Nat) : Except State Block :=
  match blockRead s.dev block with
  | none => .error s
  | some buf => .ok buf

/-! ### `make_fs` -/

def sizeInBlocks (size : Nat) : UInt16 :=
  UInt16.ofNat (if size % 4096 = 0 then size / 4096 else size / 4096 + 1)

/-- The superblock `make_fs` computes. -/
def layout : Superblock :=
  let dirEntryOffset : UInt16 := 1
  let dirEntrySize := sizeInBlocks (20 * 64)
  let inodeBitmapOffset := dirEntryOffset + dirEntrySize
  let inodeBitmapSize := sizeInBlocks 8
  let blockBitmapOffset := inodeBitmapOffset + inodeBitmapSize
  let blockBitmapSize := sizeInBlocks 1024
  let inodeOffset := blockBitmapOffset + blockBitmapSize
  let inodeSize := sizeInBlocks (60 * 64)
  let dataBlockOffset := inodeOffset + inodeSize
  ⟨dataBlockOffset, blockBitmapSize, blockBitmapOffset, inodeBitmapSize, inodeBitmapOffset,
    inodeSize, inodeOffset, dirEntryOffset, dirEntrySize⟩

/-- `for (i = 0; i < count; ++i) set_bit(i, bitmap)`. -/
def setBits : Nat → Arr 1024 UInt8 → Arr 1024 UInt8
  | 0, bitmap => bitmap
  | c + 1, bitmap => setBit c (setBits c bitmap)

/-- The blocks `make_fs` writes to the open disk. -/
def makeBlocks (dev : Dev) : Except Dev Dev := do
  let block : Block := (Arr.fill 0).blit 0 layout.byte 18
  let dev ← writeOr dev 0 block
  let block := (wipe block).blitAll 20 (fun _ => DirEntry.empty.byte) 64
  let dev ← writeOr dev layout.dirEntryOffset.toNat block
  let block := wipe block
  let dev ← writeOr dev layout.inodeBitmapOffset.toNat block
  let dev := { dev with blocksBitmap := setBits layout.dataBlockOffset.toNat dev.blocksBitmap }
  let block := (wipe block).blit 0 dev.blocksBitmap.get 1024
  let dev ← writeOr dev layout.blockBitmapOffset.toNat block
  let block := (wipe block).blitAll 60 (fun i => (Inode.empty (UInt16.ofNat i)).byte) 64
  writeOr dev layout.inodeOffset.toNat block

def makeFs (blank : Disk) (p : Process) (name : String) : Int × Process :=
  let p := openDisk (makeDisk blank p name) name
  match makeBlocks p.fs.dev with
  | .error dev => (-1, { p with fs := { p.fs with dev := dev } })
  | .ok dev => (0, closeDisk { p with fs := { p.fs with dev := dev } })

/-! ### `mount_fs` -/

/-- The tables `mount_fs` reads from the open disk. -/
def mountBlocks (s : State) : Except State State := do
  let block ← readOr s 0
  let s := { s with sb := Superblock.ofBytes block.get }
  let block ← readOr s s.sb.dirEntryOffset.toNat
  let s := { s with
    dirTable := Arr.ofFn (fun i => DirEntry.ofBytes (fun d => block.get (i * 20 + d))) }
  let block ← readOr s s.sb.inodeBitmapOffset.toNat
  let s := { s with inodesBitmap := Arr.ofFn block.get }
  let block ← readOr s s.sb.blockBitmapOffset.toNat
  let s := { s with dev := { s.dev with blocksBitmap := Arr.ofFn block.get } }
  let block ← readOr s s.sb.inodeOffset.toNat
  let s := { s with
    inodeTable := Arr.ofFn (fun i => Inode.ofBytes (fun d => block.get (i * 60 + d))) }
  .ok { s with
    fdTable := Arr.fill FDesc.closed
    isFsMounted := true
    dev := { s.dev with trace := [] } }

def mountFs (p : Process) (name : String) : Int × Process :=
  if p.fs.isFsMounted then (-1, p)
  else
    let p := openDisk p name
    match mountBlocks p.fs with
    | .error s => (-1, { p with fs := s })
    | .ok s => (0, { p with fs := s })

/-! ### `umount_fs` -/

/-- The blocks `umount_fs` writes to the open disk. -/
def umountBlocks (s : State) : Except Dev Dev := do
  let block : Block := (Arr.fill 0).blit 0 s.sb.byte 18
  let dev ← writeOr s.dev 0 block
  let block := (wipe block).blitAll 20 (fun i => (s.dirTable.get i).byte) 64
  let dev ← writeOr dev s.sb.dirEntryOffset.toNat block
  let block := (wipe block).blit 0 s.inodesBitmap.get 8
  let dev ← writeOr dev s.sb.inodeBitmapOffset.toNat block
  let block := (wipe block).blit 0 s.dev.blocksBitmap.get 1024
  let dev ← writeOr dev s.sb.blockBitmapOffset.toNat block
  let block := (wipe block).blitAll 60 (fun i => (s.inodeTable.get i).byte) 64
  writeOr dev s.sb.inodeOffset.toNat block

/-- `umount_fs`.  The name is not used: the disk that is open is the one written.
`is_fs_mounted` keeps its value. -/
def umountFs (p : Process) (_name : String) : Int × Process :=
  match umountBlocks p.fs with
  | .error dev => (-1, { p with fs := { p.fs with dev := dev } })
  | .ok dev => (0, closeDisk { p with fs := { p.fs with dev := dev } })

end EC440.FileSystems
