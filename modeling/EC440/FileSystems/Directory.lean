import EC440.FileSystems.Names

/-!
# Directory and descriptor calls

`fs_open`, `fs_close`, `fs_create`, `fs_delete`, `fs_get_filesize`,
`fs_listfiles` and `fs_lseek`, as `fs.c` has them.  A call answers with its return
value and the new state.

Two points of the source matter later.  The lookups of `fs_open` and `fs_delete`
compare names and do not look at `is_used`, so the empty name finds an entry no
file uses.  And `fs_delete` releases the blocks an indirect table names, but not
the block the table itself is in.
-/

namespace EC440.FileSystems

open EC440.Lib

def findFd (t : Arr 32 FDesc) : Option Nat := (List.range 32).find? (fun i => !(t.get i).isUsed)

def dirFull (t : Arr 64 DirEntry) : Bool := (List.range 64).all (fun i => (t.get i).isUsed != 0)

/-- The loop of `fs_create` that looks for an inode. -/
def findInode (bitmap : Arr 8 UInt8) : Option Nat :=
  (List.range 64).find? (fun i => !getBit i bitmap)

/-- Whether `fs_delete` finds a descriptor in use, of this file or of another. -/
def anyOpen (t : Arr 32 FDesc) : Bool := (List.range 32).any (fun i => (t.get i).isUsed)

theorem findFd_def (t : Arr 32 FDesc) :
    findFd t = (List.range 32).find? (fun i => !(t.get i).isUsed) := rfl

theorem dirFull_def (t : Arr 64 DirEntry) :
    dirFull t = (List.range 64).all (fun i => (t.get i).isUsed != 0) := rfl

theorem findInode_def (bitmap : Arr 8 UInt8) :
    findInode bitmap = (List.range 64).find? (fun i => !getBit i bitmap) := rfl

theorem anyOpen_def (t : Arr 32 FDesc) :
    anyOpen t = (List.range 32).any (fun i => (t.get i).isUsed) := rfl

-- the searches are used through their lemmas only
attribute [irreducible] findFd dirFull findInode anyOpen

def fsOpen (s : State) (name : CString) : Int × State :=
  match findName s.dirTable name with
  | none => (-1, s)
  | some i =>
    match findFd s.fdTable with
    | none => (-1, s)
    | some fd =>
      (fd, { s with
        fdTable := s.fdTable.set fd
          { isUsed := true, inodeNumber := (s.dirTable.get i).inodeNumber, offset := 0 } })

def fsClose (s : State) (fildes : Int) : Int × State :=
  if fildes < 0 ∨ fildes > 31 then (-1, s)
  else if (s.fdTable.get fildes.toNat).isUsed = false then (-1, s)
  else (0, { s with fdTable := s.fdTable.set fildes.toNat FDesc.closed })

/-- The entry `fs_create` writes before it copies the name. -/
def newEntry (inodeNumber : UInt16) : DirEntry := { DirEntry.empty with isUsed := 1, inodeNumber }

/-- `fs_create`.  The check on the length of the name compares the size of a
pointer, 8, with 15, and never fails. -/
def fsCreate (s : State) (name : CString) : Int × State :=
  if (findName s.dirTable name).isSome then (-1, s)
  else if dirFull s.dirTable then (-1, s)
  else
    match findInode s.inodesBitmap with
    | none => (0, s)
    | some i =>
      (0, { s with
        dirTable := strcpy (s.dirTable.set i (newEntry (s.inodeTable.get i).inodeNumber)) i name.val
        inodesBitmap := setBit i s.inodesBitmap })

/-- The inode `fs_delete` leaves behind. -/
def Inode.cleared (ino : Inode) : Inode :=
  { ino with
    directBlock := Arr.fill 0
    singleIndirectBlock := 0
    fileSize := 0
    fileType := 0 }

def fsDelete (s : State) (name : CString) : Int × State :=
  match findName s.dirTable name with
  | none => (-1, s)
  | some d =>
    if anyOpen s.fdTable then (-1, s)
    else
      let i := (s.dirTable.get d).inodeNumber.toNat
      if i > 63 then (-1, s)
      else
        let ino := s.inodeTable.get i
        let direct := clearBlocks ino.directBlock.get 25 s.dev.blocksBitmap
        let table :=
          if ino.singleIndirectBlock ≠ 0 ∧ ino.singleIndirectBlock.toNat < 8192 then
            (blockRead s.dev ino.singleIndirectBlock.toNat).map
              (fun block => clearBlocks (get16 block) 2048 direct)
          else some direct
        match table with
        | none => (-1, { s with dev := { s.dev with blocksBitmap := direct } })
        | some bitmap =>
          (0, { s with
            dev := { s.dev with blocksBitmap := bitmap }
            inodeTable := s.inodeTable.set i ino.cleared
            inodesBitmap := clearBit i s.inodesBitmap
            dirTable := s.dirTable.set d DirEntry.empty })

def fsGetFilesize (s : State) (fildes : Int) : Int :=
  if fildes < 0 ∨ fildes > 31 then -1
  else if (s.fdTable.get fildes.toNat).isUsed = false then -1
  else toInt32 (s.inodeTable.get (s.fdTable.get fildes.toNat).inodeNumber.toNat).fileSize.toNat

/-- The stores of `fs_listfiles` into the list it allocates: an index and a name
for each used entry, and then the index that gets the NULL. -/
def fsListfiles (s : State) : List (Nat × Option (List UInt8)) :=
  let names := ((List.range 64).filter (fun i => (s.dirTable.get i).isUsed != 0)).map
    (nameAt s.dirTable)
  (List.range (names.length + 1)).map (fun k => (k, names[k]?))

/-- `fs_lseek`.  It does not ask whether the descriptor is open. -/
def fsLseek (s : State) (fildes : Int) (offset : Int) : Int × State :=
  if fildes < 0 ∨ fildes > 31 then (-1, s)
  else
    let fd := s.fdTable.get fildes.toNat
    if offset < 0 ∨ offset > (s.inodeTable.get fd.inodeNumber.toNat).fileSize.toNat then (-1, s)
    else (0, { s with fdTable := s.fdTable.set fildes.toNat { fd with offset := toInt32 offset } })

/-! ### The searches -/

theorem findName_eq_some {t : Arr 64 DirEntry} {name : CString} {i : Nat} :
    findName t name = some i ↔
      i < 64 ∧ nameAt t i = name.val ∧ ∀ j, j < i → nameAt t j ≠ name.val := by
  rw [findName_def, List.find?_range_eq_some]
  simp only [beq_iff_eq, List.mem_range, Bool.not_eq_true', beq_eq_false_iff_ne]
  exact ⟨fun h => ⟨h.2.1, h.1, h.2.2⟩, fun h => ⟨h.2.1, h.1, h.2.2⟩⟩

theorem findName_eq_none {t : Arr 64 DirEntry} {name : CString} :
    findName t name = none ↔ ∀ i, i < 64 → nameAt t i ≠ name.val := by
  rw [findName_def, List.find?_range_eq_none]
  simp only [Bool.not_eq_true', beq_eq_false_iff_ne]

theorem findFd_eq_some {t : Arr 32 FDesc} {i : Nat} (h : findFd t = some i) :
    i < 32 ∧ (t.get i).isUsed = false := by
  rw [findFd_def, List.find?_range_eq_some] at h
  exact ⟨List.mem_range.mp h.2.1, by simpa using h.1⟩

theorem findFd_eq_none {t : Arr 32 FDesc} :
    findFd t = none ↔ ∀ i, i < 32 → (t.get i).isUsed = true := by
  rw [findFd_def, List.find?_range_eq_none]
  simp only [Bool.not_not]

theorem dirFull_iff {t : Arr 64 DirEntry} :
    dirFull t = true ↔ ∀ i, i < 64 → (t.get i).isUsed ≠ 0 := by
  rw [dirFull_def, List.all_eq_true]
  simp only [List.mem_range, bne_iff_ne]

theorem findInode_eq_some {bitmap : Arr 8 UInt8} {i : Nat} (h : findInode bitmap = some i) :
    i < 64 ∧ getBit i bitmap = false := by
  rw [findInode_def, List.find?_range_eq_some] at h
  exact ⟨List.mem_range.mp h.2.1, by simpa using h.1⟩

theorem findInode_eq_none {bitmap : Arr 8 UInt8} :
    findInode bitmap = none ↔ ∀ i, i < 64 → getBit i bitmap = true := by
  rw [findInode_def, List.find?_range_eq_none]
  simp only [Bool.not_not]

theorem anyOpen_eq_false_lt {t : Arr 32 FDesc} :
    anyOpen t = false ↔ ∀ i, i < 32 → (t.get i).isUsed = false := by
  rw [anyOpen_def, List.any_eq_false]
  simp only [List.mem_range, Bool.not_eq_true]

theorem anyOpen_eq_false {t : Arr 32 FDesc} :
    anyOpen t = false ↔ ∀ i, (t.get i).isUsed = false := by
  rw [anyOpen_eq_false_lt]
  refine ⟨?_, fun h i _ => h i⟩
  intro h i
  by_cases hi : i < 32
  · exact h i hi
  · rw [Arr.get_of_ge _ (by omega)]
    rfl

/-! ### What the calls can do -/

theorem fsOpen_cases (s : State) (name : CString) :
    fsOpen s name = (-1, s) ∨
    ∃ i fd, findName s.dirTable name = some i ∧ findFd s.fdTable = some fd ∧
      fsOpen s name = ((fd : Int), { s with
        fdTable := s.fdTable.set fd
          { isUsed := true, inodeNumber := (s.dirTable.get i).inodeNumber, offset := 0 } }) := by
  cases hn : findName s.dirTable name with
  | none => exact Or.inl (by rw [fsOpen, hn])
  | some i =>
    cases hf : findFd s.fdTable with
    | none => exact Or.inl (by rw [fsOpen, hn]; simp only [hf])
    | some fd => exact Or.inr ⟨i, fd, rfl, rfl, by rw [fsOpen, hn]; simp only [hf]⟩

theorem fsClose_cases (s : State) (fildes : Int) :
    fsClose s fildes = (-1, s) ∨
    (0 ≤ fildes ∧ fildes ≤ 31 ∧ (s.fd fildes).isUsed = true ∧
      fsClose s fildes = (0, { s with fdTable := s.fdTable.set fildes.toNat FDesc.closed })) := by
  by_cases hfd : fildes < 0 ∨ fildes > 31
  · exact Or.inl (by rw [fsClose, if_pos hfd])
  · by_cases hu : (s.fdTable.get fildes.toNat).isUsed = false
    · exact Or.inl (by rw [fsClose, if_neg hfd, if_pos hu])
    · exact Or.inr ⟨by omega, by omega, by simpa using hu, by rw [fsClose, if_neg hfd, if_neg hu]⟩

theorem strcpy_newEntry (t : Arr 64 DirEntry) {i : Nat} (hi : i < 64) (n : UInt16)
    {name : List UInt8} (hlen : name.length ≤ 15) :
    strcpy (t.set i (newEntry n)) i name
      = t.set i { newEntry n with name := padName name } := by
  have hget : (t.set i (newEntry n)).get i = newEntry n := Arr.get_set_self _ hi _
  rw [strcpy_short hi hlen (by rw [hget]; rfl), hget, Arr.set_set]

theorem fsCreate_cases (s : State) {name : CString} (hlen : name.val.length ≤ 15) :
    (fsCreate s name = (-1, s) ∧
      ((∃ i, findName s.dirTable name = some i) ∨ dirFull s.dirTable = true)) ∨
    (findName s.dirTable name = none ∧ dirFull s.dirTable = false ∧
      findInode s.inodesBitmap = none ∧ fsCreate s name = (0, s)) ∨
    ∃ i, findName s.dirTable name = none ∧ dirFull s.dirTable = false ∧
      findInode s.inodesBitmap = some i ∧
      fsCreate s name = (0, { s with
        dirTable := s.dirTable.set i
          { newEntry (s.inodeTable.get i).inodeNumber with name := padName name.val }
        inodesBitmap := setBit i s.inodesBitmap }) := by
  cases hn : findName s.dirTable name with
  | some i =>
    refine Or.inl ⟨?_, Or.inl ⟨i, rfl⟩⟩
    rw [fsCreate, hn]
    rfl
  | none =>
    cases hd : dirFull s.dirTable with
    | true =>
      refine Or.inl ⟨?_, Or.inr rfl⟩
      rw [fsCreate, hn, hd]
      rfl
    | false =>
      cases hi : findInode s.inodesBitmap with
      | none =>
        refine Or.inr (Or.inl ⟨rfl, rfl, rfl, ?_⟩)
        rw [fsCreate, hn, hd, hi]
        rfl
      | some i =>
        refine Or.inr (Or.inr ⟨i, rfl, rfl, rfl, ?_⟩)
        rw [fsCreate, hn, hd, hi,
          ← strcpy_newEntry _ (findInode_eq_some hi).1 _ hlen]
        rfl

/-- Whatever the name, `fs_create` touches the directory and the bitmap of inodes only, and
frees no inode. -/
theorem fsCreate_frame (s : State) (name : CString) :
    ∃ (r : Int) (t : Arr 64 DirEntry) (bits : Arr 8 UInt8),
      fsCreate s name = (r, { s with dirTable := t, inodesBitmap := bits }) ∧
      ∀ i, getBit i s.inodesBitmap = true → getBit i bits = true := by
  rw [fsCreate]
  split
  · exact ⟨_, _, _, rfl, fun _ h => h⟩
  · split
    · exact ⟨_, _, _, rfl, fun _ h => h⟩
    · split
      · exact ⟨_, _, _, rfl, fun _ h => h⟩
      · refine ⟨_, _, _, rfl, ?_⟩
        intro i h
        rw [getBit_setBit, h, Bool.or_true]

/-- The bitmap after `fs_delete` has released the blocks of `ino`. -/
def deletedBitmap (dev : Dev) (ino : Inode) : Arr 1024 UInt8 :=
  let direct := clearBlocks ino.directBlock.get 25 dev.blocksBitmap
  if ino.singleIndirectBlock ≠ 0 ∧ ino.singleIndirectBlock.toNat < 8192 then
    clearBlocks (get16 (dev.disk.get ino.singleIndirectBlock.toNat)) 2048 direct
  else direct

theorem fsDelete_cases (s : State) (name : CString) :
    ((∀ d, findName s.dirTable name = some d → anyOpen s.fdTable = false →
        64 ≤ (s.dirTable.get d).inodeNumber.toNat) ∧ fsDelete s name = (-1, s)) ∨
    ∃ d, findName s.dirTable name = some d ∧ anyOpen s.fdTable = false ∧
      (s.dirTable.get d).inodeNumber.toNat < 64 ∧
      fsDelete s name = (0, { s with
        dev := { s.dev with
          blocksBitmap :=
            deletedBitmap s.dev (s.inodeTable.get (s.dirTable.get d).inodeNumber.toNat) }
        inodeTable := s.inodeTable.set (s.dirTable.get d).inodeNumber.toNat
          (s.inodeTable.get (s.dirTable.get d).inodeNumber.toNat).cleared
        inodesBitmap := clearBit (s.dirTable.get d).inodeNumber.toNat s.inodesBitmap
        dirTable := s.dirTable.set d DirEntry.empty }) := by
  cases hn : findName s.dirTable name with
  | none => exact Or.inl ⟨fun d hd => (by cases hd), by rw [fsDelete, hn]⟩
  | some d =>
    cases ho : anyOpen s.fdTable with
    | true =>
      refine Or.inl ⟨fun _ _ h => (by cases h), ?_⟩
      rw [fsDelete, hn, ho]
      rfl
    | false =>
      by_cases hi : (s.dirTable.get d).inodeNumber.toNat > 63
      · refine Or.inl ⟨fun e he _ => (by cases he; exact hi), ?_⟩
        rw [fsDelete, hn, ho]
        simp only [Bool.false_eq_true, if_false, if_pos hi]
      · refine Or.inr ⟨d, rfl, rfl, by omega, ?_⟩
        rw [fsDelete, hn, ho, deletedBitmap]
        simp only [Bool.false_eq_true, if_false, if_neg hi]
        by_cases ht : (s.inodeTable.get (s.dirTable.get d).inodeNumber.toNat).singleIndirectBlock
            ≠ 0 ∧ (s.inodeTable.get
              (s.dirTable.get d).inodeNumber.toNat).singleIndirectBlock.toNat < 8192
        · simp only [if_pos ht, blockRead_of_lt s.dev ht.2, Option.map_some]
        · simp only [if_neg ht]

theorem fsLseek_cases (s : State) (fildes offset : Int) :
    fsLseek s fildes offset = (-1, s) ∨
    (0 ≤ fildes ∧ fildes ≤ 31 ∧ 0 ≤ offset ∧ offset ≤ (s.inodeOf fildes).fileSize.toNat ∧
      fsLseek s fildes offset = (0, { s with
        fdTable := s.fdTable.set fildes.toNat { s.fd fildes with offset := toInt32 offset } })) := by
  by_cases hfd : fildes < 0 ∨ fildes > 31
  · exact Or.inl (by rw [fsLseek, if_pos hfd])
  · by_cases ho : offset < 0 ∨ offset > (s.inodeOf fildes).fileSize.toNat
    · refine Or.inl ?_
      rw [fsLseek, if_neg hfd]
      simp only [if_pos ho]
    · refine Or.inr ⟨by omega, by omega, by omega, by omega, ?_⟩
      rw [fsLseek, if_neg hfd]
      simp only [if_neg ho]

theorem fsLseek_inside (s : State) {fildes : Int} (hrange : 0 ≤ fildes ∧ fildes ≤ 31) {p : Nat}
    (hp : p ≤ (s.inodeOf fildes).fileSize.toNat) (hsmall : p < 2 ^ 31) :
    fsLseek s fildes p = (0, { s with
      fdTable := s.fdTable.set fildes.toNat { s.fd fildes with offset := (p : Int) } }) := by
  have hin : ¬ ((p : Int) < 0 ∨ (p : Int) > (s.inodeOf fildes).fileSize.toNat) := by omega
  rw [fsLseek, if_neg (by omega)]
  simp only [if_neg hin]
  rw [toInt32_of_small (by omega) (by omega)]

end EC440.FileSystems
