import EC440.Lib.Words

/-!
# The file system's data, in memory and on disk

The structures of `fs.h` and the bytes they are made of.  The sizes are the
macros of `fs.h` and `disk.h`: 64 files (`MAX_NUM_FILES`), 32 descriptors
(`MAX_NUM_FD`), names of 15 bytes and their NUL (`MAX_FILENAME_LEN`), 25 direct
blocks (`NUM_DIRECT_BLOCKS`), files of at most `2 ^ 20` bytes (`MAX_FILE_SIZE`),
a disk of 8192 blocks (`DISK_BLOCKS`) of 4096 bytes (`BLOCK_SIZE`).

A structure that is copied to disk has a `byte` function, which lays its fields
out as the compiler does (little endian, every field at a multiple of its own
size), and an `ofBytes` function, which reads them back.  The bytes the
compiler leaves between two fields are a field of their own (`pad`), so a
structure is determined by its bytes and determines them: 18 bytes for the
superblock, 60 for an inode, 20 for a directory entry.
-/

namespace EC440.FileSystems

open EC440.Lib

abbrev Block := Arr 4096 UInt8

/-- The contents of a virtual disk. -/
abbrev Disk := Arr 8192 Block

instance : Inhabited Block := ⟨Arr.fill 0⟩

/-- A C string: its bytes without the final NUL. -/
abbrev CString := { bytes : List UInt8 // ∀ b ∈ bytes, b ≠ 0 }

/-! ### Superblock -/

structure Superblock where
  dataBlockOffset : UInt16
  blockBitmapSize : UInt16
  blockBitmapOffset : UInt16
  inodeBitmapSize : UInt16
  inodeBitmapOffset : UInt16
  inodeSize : UInt16
  inodeOffset : UInt16
  dirEntryOffset : UInt16
  dirEntrySize : UInt16
  deriving DecidableEq, Inhabited

/-- Field `k` of the superblock, in the order of `fs.h`. -/
def Superblock.word (x : Superblock) : Nat → UInt16
  | 0 => x.dataBlockOffset
  | 1 => x.blockBitmapSize
  | 2 => x.blockBitmapOffset
  | 3 => x.inodeBitmapSize
  | 4 => x.inodeBitmapOffset
  | 5 => x.inodeSize
  | 6 => x.inodeOffset
  | 7 => x.dirEntryOffset
  | _ => x.dirEntrySize

def Superblock.byte (x : Superblock) (k : Nat) : UInt8 := byte16 (x.word (k / 2)) (k % 2)

def Superblock.ofBytes (f : Nat → UInt8) : Superblock where
  dataBlockOffset := word16 (fun d => f (2 * 0 + d))
  blockBitmapSize := word16 (fun d => f (2 * 1 + d))
  blockBitmapOffset := word16 (fun d => f (2 * 2 + d))
  inodeBitmapSize := word16 (fun d => f (2 * 3 + d))
  inodeBitmapOffset := word16 (fun d => f (2 * 4 + d))
  inodeSize := word16 (fun d => f (2 * 5 + d))
  inodeOffset := word16 (fun d => f (2 * 6 + d))
  dirEntryOffset := word16 (fun d => f (2 * 7 + d))
  dirEntrySize := word16 (fun d => f (2 * 8 + d))

theorem Superblock.word_eq {x : Superblock} {f : Nat → UInt8} (h : ∀ k, k < 18 → f k = x.byte k)
    {j : Nat} (hj : j < 9) : word16 (fun d => f (2 * j + d)) = x.word j := by
  rw [← word16_byte16 (x.word j)]
  apply word16_congr
  intro d hd
  have h1 : (2 * j + d) / 2 = j := by omega
  have h2 : (2 * j + d) % 2 = d := by omega
  rw [h _ (by omega), Superblock.byte, h1, h2]

theorem Superblock.ofBytes_eq {x : Superblock} {f : Nat → UInt8}
    (h : ∀ k, k < 18 → f k = x.byte k) : Superblock.ofBytes f = x := by
  have hw := fun j hj => Superblock.word_eq h (j := j) hj
  simp only [Superblock.ofBytes, hw 0 (by omega), hw 1 (by omega), hw 2 (by omega),
    hw 3 (by omega), hw 4 (by omega), hw 5 (by omega), hw 6 (by omega), hw 7 (by omega),
    hw 8 (by omega)]
  rfl

/-! ### Inodes -/

structure Inode where
  inodeNumber : UInt16
  fileType : UInt8
  pad : UInt8
  fileSize : UInt32
  directBlock : Arr 25 UInt16
  singleIndirectBlock : UInt16

/-- An inode with no blocks, as `make_fs` writes it. -/
def Inode.empty (i : UInt16) : Inode where
  inodeNumber := i
  fileType := 0
  pad := 0
  fileSize := 0
  directBlock := Arr.fill 0
  singleIndirectBlock := 0

instance : Inhabited Inode := ⟨Inode.empty 0⟩

def Inode.byte (x : Inode) (k : Nat) : UInt8 :=
  if k < 2 then byte16 x.inodeNumber k
  else if k = 2 then x.fileType
  else if k = 3 then x.pad
  else if k < 8 then byte32 x.fileSize (k - 4)
  else if k < 58 then byte16 (x.directBlock.get ((k - 8) / 2)) ((k - 8) % 2)
  else byte16 x.singleIndirectBlock (k - 58)

def Inode.ofBytes (f : Nat → UInt8) : Inode where
  inodeNumber := word16 f
  fileType := f 2
  pad := f 3
  fileSize := word32 (fun d => f (4 + d))
  directBlock := Arr.ofFn (fun j => word16 (fun d => f (8 + 2 * j + d)))
  singleIndirectBlock := word16 (fun d => f (58 + d))

theorem Inode.ofBytes_eq {x : Inode} {f : Nat → UInt8} (h : ∀ k, k < 60 → f k = x.byte k) :
    Inode.ofBytes f = x := by
  have hnum : word16 f = x.inodeNumber := by
    rw [← word16_byte16 x.inodeNumber]
    apply word16_congr
    intro d hd
    rw [h d (by omega), Inode.byte, if_pos (by omega)]
  have hsize : word32 (fun d => f (4 + d)) = x.fileSize := by
    rw [← word32_byte32 x.fileSize]
    apply word32_congr
    intro d hd
    rw [h _ (by omega), Inode.byte, if_neg (by omega), if_neg (by omega), if_neg (by omega),
      if_pos (by omega)]
    congr 1
    omega
  have hdirect : (Arr.ofFn (fun j => word16 (fun d => f (8 + 2 * j + d))) : Arr 25 UInt16)
      = x.directBlock := by
    apply Arr.ext_get
    intro j hj
    rw [Arr.get_ofFn _ hj, ← word16_byte16 (x.directBlock.get j)]
    apply word16_congr
    intro d hd
    have h1 : (8 + 2 * j + d - 8) / 2 = j := by omega
    have h2 : (8 + 2 * j + d - 8) % 2 = d := by omega
    rw [h _ (by omega), Inode.byte, if_neg (by omega), if_neg (by omega), if_neg (by omega),
      if_neg (by omega), if_pos (by omega), h1, h2]
  have hsingle : word16 (fun d => f (58 + d)) = x.singleIndirectBlock := by
    rw [← word16_byte16 x.singleIndirectBlock]
    apply word16_congr
    intro d hd
    rw [h _ (by omega), Inode.byte, if_neg (by omega), if_neg (by omega), if_neg (by omega),
      if_neg (by omega), if_neg (by omega)]
    congr 1
    omega
  rw [Inode.ofBytes, hnum, hsize, hdirect, hsingle, h 2 (by omega), h 3 (by omega)]
  rfl

/-! ### Directory entries -/

structure DirEntry where
  isUsed : UInt8
  name : Arr 16 UInt8
  pad : UInt8
  inodeNumber : UInt16

/-- An entry no file uses. -/
def DirEntry.empty : DirEntry where
  isUsed := 0
  name := Arr.fill 0
  pad := 0
  inodeNumber := 0

instance : Inhabited DirEntry := ⟨DirEntry.empty⟩

def DirEntry.byte (x : DirEntry) (k : Nat) : UInt8 :=
  if k = 0 then x.isUsed
  else if k < 17 then x.name.get (k - 1)
  else if k = 17 then x.pad
  else byte16 x.inodeNumber (k - 18)

def DirEntry.ofBytes (f : Nat → UInt8) : DirEntry where
  isUsed := f 0
  name := Arr.ofFn (fun j => f (1 + j))
  pad := f 17
  inodeNumber := word16 (fun d => f (18 + d))

theorem DirEntry.ofBytes_eq {x : DirEntry} {f : Nat → UInt8} (h : ∀ k, k < 20 → f k = x.byte k) :
    DirEntry.ofBytes f = x := by
  have hname : (Arr.ofFn (fun j => f (1 + j)) : Arr 16 UInt8) = x.name := by
    apply Arr.ext_get
    intro j hj
    rw [Arr.get_ofFn _ hj, h _ (by omega), DirEntry.byte, if_neg (by omega), if_pos (by omega)]
    congr 1
    omega
  have hnum : word16 (fun d => f (18 + d)) = x.inodeNumber := by
    rw [← word16_byte16 x.inodeNumber]
    apply word16_congr
    intro d hd
    rw [h _ (by omega), DirEntry.byte, if_neg (by omega), if_neg (by omega), if_neg (by omega)]
    congr 1
    omega
  rw [DirEntry.ofBytes, hname, hnum, h 0 (by omega), h 17 (by omega)]
  rfl

/-! ### Descriptors -/

structure FDesc where
  isUsed : Bool
  inodeNumber : UInt16
  offset : Int

def FDesc.closed : FDesc where
  isUsed := false
  inodeNumber := 0
  offset := 0

instance : Inhabited FDesc := ⟨FDesc.closed⟩

end EC440.FileSystems
