import EC440.FileSystems.Bitmap

/-!
# The state of the file system

The globals of `fs.c` and the disk below them.  `disk.h` declares the block
device and the repository holds no implementation of it, so the device is what
its header says: an array of 8192 blocks of 4096 bytes, where a request for a
block that does not exist fails.

`Dev` is the part of the state that reading and writing file data works on: the
disk, the bitmap of used blocks, and a record of the requests made since the
file system was mounted.  The record is not in the program; it is there to say
which blocks were written and which were handed out.
-/

namespace EC440.FileSystems

open EC440.Lib

/-- A request worth remembering: a `block_write`, or an answer of `find_free_bit`
on `blocks_bitmap` (`0` when it failed). -/
inductive Event where
  | wrote (block : Nat)
  | found (block : Nat)
  deriving DecidableEq

/-- The disk and its bitmap. -/
structure Dev where
  disk : Disk
  blocksBitmap : Arr 1024 UInt8
  trace : List Event

/-- The globals of `fs.c`. -/
structure State where
  sb : Superblock
  fdTable : Arr 32 FDesc
  inodeTable : Arr 64 Inode
  dirTable : Arr 64 DirEntry
  inodesBitmap : Arr 8 UInt8
  isFsMounted : Bool
  dev : Dev

abbrev State.fd (s : State) (fildes : Int) : FDesc := s.fdTable.get fildes.toNat

abbrev State.fileOf (s : State) (fildes : Int) : Nat := (s.fd fildes).inodeNumber.toNat

/-- The inode that `fildes` is open on. -/
abbrev State.inodeOf (s : State) (fildes : Int) : Inode := s.inodeTable.get (s.fileOf fildes)

/-- `fildes` is a descriptor in use. -/
def State.FdOpen (s : State) (fildes : Int) : Prop :=
  0 ≤ fildes ∧ fildes ≤ 31 ∧ (s.fd fildes).isUsed = true

instance (s : State) (fildes : Int) : Decidable (s.FdOpen fildes) := inferInstanceAs (Decidable (_ ∧ _))

/-- The two checks that every call on a descriptor begins with. -/
theorem State.check_closed {α : Type} {s : State} {fildes : Int} (h : ¬ s.FdOpen fildes) (x y : α) :
    (if fildes < 0 ∨ fildes > 31 then x
      else if (s.fdTable.get fildes.toNat).isUsed = false then x else y) = x := by
  split
  · rfl
  · next hr =>
    rw [if_pos (Bool.eq_false_iff.mpr fun hu => h ⟨by omega, by omega, hu⟩)]

/-! ### The block device -/

def Dev.store (dev : Dev) (block : Nat) (buf : Block) : Dev :=
  { dev with disk := dev.disk.set block buf, trace := .wrote block :: dev.trace }

/-- The device after `find_free_bit` found the block `b` and `set_bit` marked it. -/
def Dev.take (dev : Dev) (b : UInt16) : Dev :=
  { dev with
    blocksBitmap := setBit b.toNat dev.blocksBitmap
    trace := .found b.toNat :: dev.trace }

/-- The device after `find_free_bit` found nothing. -/
def Dev.full (dev : Dev) : Dev := { dev with trace := .found 0 :: dev.trace }

def blockRead (dev : Dev) (block : Nat) : Option Block :=
  if block < 8192 then some (dev.disk.get block) else none

def blockWrite (dev : Dev) (block : Nat) (buf : Block) : Option Dev :=
  if block < 8192 then some (dev.store block buf) else none

/-- `find_free_bit` on `blocks_bitmap`, and `set_bit` on what it finds.  The
answer is `0` when it finds nothing. -/
def takeFree (dev : Dev) : UInt16 × Dev :=
  let b := findFreeBit dev.blocksBitmap
  if b = 0 then (0, dev.full) else (b, dev.take b)

/-- The block a slot names, or a free block when it names none. -/
def claimBlock (dev : Dev) (slot : UInt16) : UInt16 × Dev :=
  if slot = 0 then takeFree dev else (slot, dev)

@[simp] theorem Dev.store_disk (dev : Dev) (b : Nat) (x : Block) :
    (dev.store b x).disk = dev.disk.set b x := rfl
@[simp] theorem Dev.store_blocksBitmap (dev : Dev) (b : Nat) (x : Block) :
    (dev.store b x).blocksBitmap = dev.blocksBitmap := rfl
@[simp] theorem Dev.store_trace (dev : Dev) (b : Nat) (x : Block) :
    (dev.store b x).trace = .wrote b :: dev.trace := rfl
@[simp] theorem Dev.take_disk (dev : Dev) (b : UInt16) : (dev.take b).disk = dev.disk := rfl
@[simp] theorem Dev.take_blocksBitmap (dev : Dev) (b : UInt16) :
    (dev.take b).blocksBitmap = setBit b.toNat dev.blocksBitmap := rfl
@[simp] theorem Dev.take_trace (dev : Dev) (b : UInt16) :
    (dev.take b).trace = .found b.toNat :: dev.trace := rfl
@[simp] theorem Dev.full_disk (dev : Dev) : dev.full.disk = dev.disk := rfl
@[simp] theorem Dev.full_blocksBitmap (dev : Dev) :
    dev.full.blocksBitmap = dev.blocksBitmap := rfl
@[simp] theorem Dev.full_trace (dev : Dev) : dev.full.trace = .found 0 :: dev.trace := rfl

theorem blockRead_of_lt (dev : Dev) {b : Nat} (h : b < 8192) :
    blockRead dev b = some (dev.disk.get b) := if_pos h

theorem blockRead_of_ge (dev : Dev) {b : Nat} (h : 8192 ≤ b) : blockRead dev b = none :=
  if_neg (by omega)

theorem blockWrite_of_lt (dev : Dev) {b : Nat} (h : b < 8192) (buf : Block) :
    blockWrite dev b buf = some (dev.store b buf) := if_pos h

theorem blockWrite_of_ge (dev : Dev) {b : Nat} (h : 8192 ≤ b) (buf : Block) :
    blockWrite dev b buf = none := if_neg (by omega)

theorem takeFree_eq_full {dev : Dev} (h : findFreeBit dev.blocksBitmap = 0) :
    takeFree dev = (0, dev.full) := by
  rw [takeFree, if_pos h]

theorem takeFree_eq_take {dev : Dev} (h : findFreeBit dev.blocksBitmap ≠ 0) :
    takeFree dev = (findFreeBit dev.blocksBitmap, dev.take (findFreeBit dev.blocksBitmap)) := by
  rw [takeFree, if_neg h]

/-- **What claiming a block can do**: fail on a full disk, take the first free
block for an empty slot, or keep the block the slot has. -/
theorem claimBlock_cases (dev : Dev) (slot : UInt16) :
    (slot = 0 ∧ findFreeBit dev.blocksBitmap = 0 ∧ claimBlock dev slot = (0, dev.full)) ∨
    (slot = 0 ∧ findFreeBit dev.blocksBitmap ≠ 0 ∧
      claimBlock dev slot =
        (findFreeBit dev.blocksBitmap, dev.take (findFreeBit dev.blocksBitmap))) ∨
    (slot ≠ 0 ∧ claimBlock dev slot = (slot, dev)) := by
  by_cases hs : slot = 0
  · by_cases hb : findFreeBit dev.blocksBitmap = 0
    · exact Or.inl ⟨hs, hb, by rw [claimBlock, if_pos hs, takeFree_eq_full hb]⟩
    · exact Or.inr (Or.inl ⟨hs, hb, by rw [claimBlock, if_pos hs, takeFree_eq_take hb]⟩)
  · exact Or.inr (Or.inr ⟨hs, if_neg hs⟩)

/-! ### Conversions between C's integer types -/

def toInt32 (x : Int) : Int := Int.bmod x (2 ^ 32)

def toUInt32 (x : Int) : UInt32 := UInt32.ofNat (x % 2 ^ 32).toNat

def toSize (x : Int) : Nat := (x % 2 ^ 64).toNat

theorem toInt32_of_small {x : Int} (h0 : 0 ≤ x) (h : x < 2 ^ 31) : toInt32 x = x := by
  rw [toInt32, Int.bmod]
  omega

theorem toUInt32_of_small {x : Int} (h0 : 0 ≤ x) (h : x < 2 ^ 31) :
    (toUInt32 x).toNat = x.toNat := by
  rw [toUInt32, UInt32.toNat_ofNat']
  omega

end EC440.FileSystems
