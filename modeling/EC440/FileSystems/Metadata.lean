import EC440.FileSystems.TruncateBlocks

/-!
# The metadata blocks while mounted

The first five blocks hold the superblock, the directory, the inodes and the bitmaps,
and `fs_write` should not write to them.  It does so in two ways.  Behind the direct
blocks it enters the table at the number of the cursor's block in the file, not in the
table, and if that entry is empty and the cursor is inside a block, it changes block
`0` (`WriteFits.entry`).  And once a block belongs to two files, or a table was never
written, a table may hold any number: this takes a truncate that gives back a block
(`NothingBehind`), or a disk that gets full while a file gets a table
(`WriteFits.room`).

`metadata_untouched` says that this is all: in runs without these, no call writes to one
of the first five blocks, and they stay marked.
-/

namespace EC440.FileSystems

open EC440.Lib

variable {s s' : State}

/-! ### Truncates that give back nothing -/

theorem finishTruncate_slots (s : State) (fildes length : Nat) (bitmap : Arr 1024 UInt8) (j : Nat) :
    ((finishTruncate s fildes length bitmap).inodeTable.get j).directBlock
        = (s.inodeTable.get j).directBlock ∧
      ((finishTruncate s fildes length bitmap).inodeTable.get j).singleIndirectBlock
        = (s.inodeTable.get j).singleIndirectBlock := by
  show ((s.inodeTable.set _ _).get j).directBlock = _ ∧
    ((s.inodeTable.set _ _).get j).singleIndirectBlock = _
  rw [Arr.get_set]
  split
  · rename_i hj
    rw [hj.1]
    exact ⟨rfl, rfl⟩
  · exact ⟨rfl, rfl⟩

theorem finishTruncate_size (s : State) (fildes length : Nat) (bitmap : Arr 1024 UInt8)
    (hlen : length < 2 ^ 31)
    (hle : length ≤ (s.inodeTable.get (s.fdTable.get fildes).inodeNumber.toNat).fileSize.toNat)
    (j : Nat) : ((finishTruncate s fildes length bitmap).inodeTable.get j).fileSize.toNat
      ≤ (s.inodeTable.get j).fileSize.toNat := by
  show ((s.inodeTable.set _ _).get j).fileSize.toNat ≤ _
  rw [Arr.get_set]
  split
  · rename_i hj
    rw [hj.1]
    show (toUInt32 (length : Int)).toNat ≤ _
    rw [toUInt32_of_small (by omega) (by omega)]
    omega
  · exact le_refl _

/-- A truncate that gives back nothing. -/
def TruncateKeeps (s : State) (fildes length : Int) : Prop :=
  s.FdOpen fildes → 0 ≤ length → length < (s.inodeOf fildes).fileSize.toNat →
    NothingBehind s.dev (s.inodeOf fildes) length.toNat

theorem BlockInv.truncate (h : BlockInv s) {fildes length : Int}
    (hok : TruncateKeeps s fildes length) : BlockInv (fsTruncate s fildes length).2 := by
  have hdir := h.dir.same (fsTruncate_sameDir s fildes length)
  rcases fsTruncate_cases s fildes length with ⟨-, he⟩ | ⟨-, -, -, -, he⟩ | ⟨hge, hle, hu, h0, hlt, he⟩
  · rw [he]
    exact h
  · rw [he]
    exact h
  · have hsize : (s.inodeOf fildes).fileSize.toNat ≤ 2 ^ 20 := h.size _
    rw [he, (hok ⟨hge, hle, hu⟩ h0 hlt).bitmap_eq] at hdir ⊢
    have hslots := finishTruncate_slots s fildes.toNat length.toNat s.dev.blocksBitmap
    have hfd := finishTruncate_fd s fildes.toNat length.toNat s.dev.blocksBitmap (by omega)
    have hsz := finishTruncate_size s fildes.toNat length.toNat s.dev.blocksBitmap (by omega)
      (show _ ≤ (s.inodeOf fildes).fileSize.toNat by omega)
    refine ⟨hdir, h.oi.same rfl (fun j => (hslots j).1) (fun j => (hslots j).2) (fun _ hb => hb),
      ?_, ?_, ?_, fun j => le_trans (hsz j) (h.size j),
      ?_⟩
    · intro k
      rcases hfd k with ⟨-, -, hg⟩ | ⟨-, hg⟩ <;>
      · rw [hg]
        exact h.file k
    · intro k
      rcases hfd k with ⟨-, -, hg⟩ | ⟨-, hg⟩
      · rw [hg]
        show 0 ≤ (length.toNat : Int) ∧ (length.toNat : Int) ≤ 2 ^ 20
        omega
      · rw [hg]
        exact h.offset k
    · intro k hk
      rcases hfd k with ⟨-, -, hg⟩ | ⟨-, hg⟩ <;>
      · rw [hg] at hk ⊢
        exact h.inUse k hk
    · intro j k hk
      rw [tableOf_congr _ (hslots j).2]
      exact h.high j k hk

/-! ### The blocks in front of a cursor -/

/-- The bytes of every file, and those in front of every open descriptor, lie in blocks
that are there. -/
structure MapInv (s : State) : Prop where
  size : ∀ i, Mapped (s.inodeTable.get i) (s.inodeTable.get i).fileSize.toNat
  cursor : ∀ k, (s.fdTable.get k).isUsed = true →
    Mapped (s.inodeTable.get (s.fdTable.get k).inodeNumber.toNat) (s.fdTable.get k).offset.toNat

theorem MapInv.setFd (h : MapInv s) {k : Nat} {fd : FDesc} (hfd : s'.fdTable = s.fdTable.set k fd)
    (hino : s'.inodeTable = s.inodeTable)
    (hnew : fd.isUsed = true → Mapped (s.inodeTable.get fd.inodeNumber.toNat) fd.offset.toNat) :
    MapInv s' := by
  refine ⟨by rw [hino]; exact h.size, ?_⟩
  intro j
  rw [hfd, hino, Arr.get_set]
  split
  · exact hnew
  · exact h.cursor j

theorem MapInv.open (h : MapInv s) (name : CString) : MapInv (fsOpen s name).2 := by
  rcases fsOpen_cases s name with he | ⟨i, fd, -, -, he⟩
  · rw [he]
    exact h
  · rw [he]
    exact h.setFd rfl rfl fun _ => mapped_zero _

theorem MapInv.close (h : MapInv s) (fildes : Int) : MapInv (fsClose s fildes).2 := by
  rcases fsClose_cases s fildes with he | ⟨-, -, -, he⟩
  · rw [he]
    exact h
  · rw [he]
    exact h.setFd rfl rfl fun _ => mapped_zero _

theorem MapInv.create (h : MapInv s) {name : CString} (hname : ValidName name) :
    MapInv (fsCreate s name).2 := by
  rcases fsCreate_cases s hname.2 with ⟨he, -⟩ | ⟨-, -, -, he⟩ | ⟨i, -, -, -, he⟩
  · rw [he]
    exact h
  · rw [he]
    exact h
  · rw [he]
    exact ⟨h.size, h.cursor⟩

theorem MapInv.delete (h : MapInv s) (name : CString) : MapInv (fsDelete s name).2 := by
  rcases fsDelete_cases s name with ⟨-, he⟩ | ⟨d, -, ho, -, he⟩
  · rw [he]
    exact h
  · rw [he]
    refine ⟨?_, ?_⟩
    · intro j
      show Mapped ((s.inodeTable.set _ _).get j) ((s.inodeTable.set _ _).get j).fileSize.toNat
      rw [Arr.get_set]
      split
      · exact mapped_zero _
      · exact h.size j
    · intro k hk
      have hk' : (s.fdTable.get k).isUsed = true := hk
      rw [anyOpen_eq_false.mp ho k] at hk'
      cases hk'

theorem MapInv.lseek (h : MapInv s) (hb : BlockInv s) (fildes offset : Int) :
    MapInv (fsLseek s fildes offset).2 := by
  rcases fsLseek_cases s fildes offset with he | ⟨-, -, h0, hle, he⟩
  · rw [he]
    exact h
  · have hsize : (s.inodeOf fildes).fileSize.toNat ≤ 2 ^ 20 := hb.size _
    have hoff : toInt32 offset = offset := toInt32_of_small h0 (by omega)
    have hle' : offset.toNat ≤ (s.inodeOf fildes).fileSize.toNat := by omega
    rw [he]
    refine h.setFd rfl rfl ?_
    intro _
    show Mapped (s.inodeOf fildes) (toInt32 offset).toNat
    rw [hoff]
    exact (h.size _).mono hle'

theorem MapInv.read (h : MapInv s) (hb : BlockInv s) (fildes : Int) (buf : Nat → UInt8)
    (nbyte : Nat) : MapInv (fsRead s fildes buf nbyte).2.2 := by
  rcases fsRead_cases s fildes buf nbyte with ⟨-, he⟩ | ⟨-, -, hu, v, hv, he⟩
  · rw [he]
    exact h
  · have hoff : 0 ≤ (s.fd fildes).offset ∧ (s.fd fildes).offset ≤ 2 ^ 20 := hb.offset _
    have hfacts := (readBlocks_facts s.dev (s.inodeOf fildes) (min nbyte (2 ^ 20))
      (s.fd fildes).offset.toNat (s.inodeOf fildes).fileSize.toNat buf).of_ok hv
    have hbound := hfacts.bound (by omega) (hb.high _)
    have hcur : toInt32 ((s.fd fildes).offset + v.bytesRead) = (s.fd fildes).offset + v.bytesRead :=
      toInt32_of_small (by omega) (by omega)
    have hnat : ((s.fd fildes).offset + v.bytesRead).toNat
        = (s.fd fildes).offset.toNat + v.bytesRead := by omega
    rw [he]
    refine h.setFd rfl rfl ?_
    intro _
    show Mapped (s.inodeOf fildes) (toInt32 ((s.fd fildes).offset + v.bytesRead)).toNat
    rw [hcur, hnat]
    exact hfacts.mapped (h.cursor _ hu) (h.size _)

theorem MapInv.finishWrite (h : MapInv s) (hb : BlockInv s) {fildes : Int}
    (hu : (s.fd fildes).isUsed = true) {nbyte n : Nat} {dev : Dev} {ino : Inode}
    (hmax : (s.fd fildes).offset.toNat + nbyte ≤ 2 ^ 20)
    (hw : Wrote (s.fd fildes).offset.toNat nbyte s.dev (s.inodeOf fildes) dev ino n) :
    MapInv (finishWrite s fildes.toNat dev ino n).2 := by
  have hoff : 0 ≤ (s.fd fildes).offset ∧ (s.fd fildes).offset ≤ 2 ^ 20 := hb.offset _
  have hn := hw.le
  obtain ⟨size, hsz, he⟩ := finishWrite_eq s fildes dev ino (n := n) hoff.1 (by omega)
  rw [hw.kept.size] at hsz
  rw [he]
  have hcur : Mapped ino ((s.fd fildes).offset.toNat + n) := hw.mapped (h.cursor _ hu)
  -- whatever was there in an inode before the write is there after it
  have hget : ∀ j m, Mapped (s.inodeTable.get j) m →
      Mapped ((s.inodeTable.set (s.fileOf fildes) { ino with fileSize := size }).get j) m := by
    intro j m hm
    rw [Arr.get_set]
    split
    · rename_i hj
      rw [hj.1] at hm
      exact (hm.kept hw.kept).congr rfl rfl
    · exact hm
  refine ⟨?_, ?_⟩
  · intro j
    show Mapped ((s.inodeTable.set (s.fileOf fildes) { ino with fileSize := size }).get j)
      ((s.inodeTable.set (s.fileOf fildes) { ino with fileSize := size }).get j).fileSize.toNat
    by_cases hj : j = s.fileOf fildes
    · rw [hj, Arr.get_set_self _ (hb.file _)]
      show Mapped _ size.toNat
      rw [hsz]
      exact (((h.size _).kept hw.kept).max hcur).congr rfl rfl
    · rw [Arr.get_set_ne _ hj]
      exact h.size j
  · intro k hk
    simp only at hk ⊢
    rcases Arr.get_set_cases s.fdTable fildes.toNat k
      { s.fd fildes with offset := (s.fd fildes).offset + n } with ⟨hg, -⟩ | hg
    · rw [hg]
      show Mapped ((s.inodeTable.set (s.fileOf fildes) { ino with fileSize := size }).get
        (s.fileOf fildes)) ((s.fd fildes).offset + n).toNat
      rw [Arr.get_set_self _ (hb.file _), show ((s.fd fildes).offset + n).toNat
        = (s.fd fildes).offset.toNat + n by omega]
      exact hcur.congr rfl rfl
    · rw [hg] at hk ⊢
      exact hget _ _ (h.cursor k hk)

theorem MapInv.truncate (h : MapInv s) (hb : BlockInv s) (fildes length : Int) :
    MapInv (fsTruncate s fildes length).2 := by
  rcases fsTruncate_cases s fildes length with ⟨-, he⟩ | ⟨-, -, -, -, he⟩ | ⟨-, -, -, h0, hlt, he⟩
  · rw [he]
    exact h
  · rw [he]
    exact h
  · have hsize : (s.inodeOf fildes).fileSize.toNat ≤ 2 ^ 20 := hb.size _
    rw [he]
    have hslots := finishTruncate_slots s fildes.toNat length.toNat
      (truncatedBitmap s.dev (s.inodeOf fildes) length.toNat)
    have hfd := finishTruncate_fd s fildes.toNat length.toNat
      (truncatedBitmap s.dev (s.inodeOf fildes) length.toNat) (by omega)
    have hsz := finishTruncate_size s fildes.toNat length.toNat
      (truncatedBitmap s.dev (s.inodeOf fildes) length.toNat) (by omega)
      (show _ ≤ (s.inodeOf fildes).fileSize.toNat by omega)
    refine ⟨fun j => ((h.size j).mono (hsz j)).congr (hslots j).1 (hslots j).2, ?_⟩
    intro k hk
    rcases hfd k with ⟨-, hgt, hg⟩ | ⟨-, hg⟩
    · rw [hg] at hk ⊢
      refine ((h.cursor k hk).mono ?_).congr (hslots _).1 (hslots _).2
      show (length.toNat : Int).toNat ≤ _
      omega
    · rw [hg] at hk ⊢
      exact (h.cursor k hk).congr (hslots _).1 (hslots _).2

/-! ### Runs that hand out no block twice -/

/-- Ownership, and the blocks in front of the cursors. -/
structure FileInv (s : State) : Prop where
  blocks : BlockInv s
  map : MapInv s

/-- The calls that keep it: `fs_open` opens a file, no write loses a new table, and a truncate
gives back nothing. -/
def KeepsFiles (s : State) : Call → Prop
  | .open name => name.val ≠ [] ∨ getBit 0 s.inodesBitmap = true
  | .write fildes _ nbyte => s.FdOpen fildes → nbyte < 2 ^ 63 ∧
      RoomForTable s.dev (s.inodeOf fildes) (s.fd fildes).offset.toNat
        (writeRequest (s.fd fildes).offset nbyte)
  | .truncate fildes length => TruncateKeeps s fildes length
  | c => NamesValid c

theorem FileInv.write (h : FileInv s) {fildes : Int} {nbyte : Nat} (buf : Nat → UInt8)
    (hok : KeepsFiles s (.write fildes buf nbyte)) : FileInv (fsWrite s fildes buf nbyte).2 := by
  by_cases hopen : s.FdOpen fildes
  · obtain ⟨hn, hroom⟩ := hok hopen
    have hmax := h.blocks.write_max fildes hn
    have hw := writeBlocks_wrote buf (writeRequest (s.fd fildes).offset nbyte)
      (s.fd fildes).offset.toNat s.dev (s.inodeOf fildes)
    have hl := writeBlocks_ledger buf hmax (h.blocks.ledger (s.fileOf fildes))
    refine ⟨h.blocks.write buf hn fun hu => Or.inr ⟨(h.map.cursor _ hu).start, hroom⟩, ?_⟩
    rcases fsWrite_cases s fildes buf nbyte with
      he | ⟨-, -, hu, -, ⟨v, ho, he⟩ | ⟨e, ho, -, he⟩ | ⟨e, ho, hwhy, -⟩⟩
    · rw [he]
      exact h.map
    · rw [he]
      exact h.map.finishWrite h.blocks hu hmax (hw.of_ok ho)
    · rw [he]
      exact h.map.finishWrite h.blocks hu hmax (hw.of_error ho)
    · have := (hl.of_error ho).1
      rw [hwhy] at this
      cases this
  · rw [fsWrite_closed hopen]
    exact h

theorem FileInv.step (h : FileInv s) {c : Call} (hc : KeepsFiles s c) : FileInv (step s c).2 := by
  cases c with
  | «open» name => exact ⟨h.blocks.open hc, h.map.open name⟩
  | close fildes => exact ⟨h.blocks.close fildes, h.map.close fildes⟩
  | create name => exact ⟨h.blocks.create hc, h.map.create hc⟩
  | delete name => exact ⟨h.blocks.delete hc, h.map.delete name⟩
  | read fildes buf nbyte =>
    exact ⟨h.blocks.read fildes buf nbyte, h.map.read h.blocks fildes buf nbyte⟩
  | write fildes buf nbyte => exact h.write buf hc
  | getFilesize fildes => exact h
  | listfiles => exact h
  | lseek fildes offset => exact ⟨h.blocks.lseek fildes offset, h.map.lseek h.blocks fildes offset⟩
  | truncate fildes length => exact ⟨h.blocks.truncate hc, h.map.truncate h.blocks fildes length⟩

theorem fileInv_fresh (blank : Disk) : FileInv (fresh blank) := by
  have hdesc := descInv_fresh blank
  have hblocks := blockInv_fresh blank
  obtain ⟨disk, he⟩ := fresh_eq blank
  rw [he] at hblocks hdesc ⊢
  refine ⟨hblocks, hdesc.mapped, ?_⟩
  intro k hk
  rw [get_freshFd] at hk
  cases hk

/-- No block is handed out twice in such a run. -/
theorem run_fileInv (blank : Disk) {cs : List Call} (hcs : RunOk step KeepsFiles (fresh blank) cs) :
    FileInv (run step (fresh blank) cs) :=
  run_invariant (I := FileInv) (fun _ _ hs hc => hs.step hc) cs _ (fileInv_fresh blank) hcs

/-! ### Runs that leave the metadata alone -/

/-- Ownership, the blocks in front of the cursors, and no write to the metadata. -/
structure MetaInv (s : State) : Prop where
  blocks : BlockInv s
  map : MapInv s
  clean : Clean s.dev

/-- The calls of a run, with names of 1 to 15 bytes and sizes up to `2 ^ 20`. -/
def MetaCall : Call → Prop
  | .open name => ValidName name
  | .read _ _ nbyte => nbyte ≤ 2 ^ 20
  | .write _ _ nbyte => nbyte ≤ 2 ^ 20
  | c => NamesValid c

/-- A write keeps to blocks of its file, and a truncate gives back nothing. -/
def KeepsBlocks (s : State) : Call → Prop
  | .write fildes _ nbyte => s.FdOpen fildes →
      WriteFits s.dev (s.inodeOf fildes) (s.fd fildes).offset.toNat
        (writeRequest (s.fd fildes).offset nbyte)
  | .truncate fildes length => TruncateKeeps s fildes length
  | _ => True

theorem KeepsBlocks.keepsFiles {c : Call} (h : KeepsBlocks s c) (hc : MetaCall c) :
    KeepsFiles s c := by
  cases c with
  | «open» name =>
    refine Or.inl ?_
    intro he
    have := hc.1
    rw [he] at this
    exact absurd this (by decide)
  | write fildes buf nbyte => exact fun hopen => ⟨lt_of_le_of_lt hc (by decide), (h hopen).room⟩
  | truncate fildes length => exact h
  | create name => exact hc
  | delete name => exact hc
  | close fildes => exact hc
  | read fildes buf nbyte => trivial
  | getFilesize fildes => exact hc
  | listfiles => exact hc
  | lseek fildes offset => exact hc

theorem MetaInv.write_clean (h : MetaInv s) {fildes : Int} {nbyte : Nat} (buf : Nat → UInt8)
    (hn : nbyte ≤ 2 ^ 20) (hok : KeepsBlocks s (.write fildes buf nbyte)) :
    Clean (fsWrite s fildes buf nbyte).2.dev := by
  have hsafe : s.FdOpen fildes → WriteSafe s (s.fileOf fildes)
      (s.fd fildes).offset.toNat (writeRequest (s.fd fildes).offset nbyte) :=
    fun hopen => ⟨h.clean, (h.map.cursor _ hopen.2.2).start, hok hopen⟩
  have hl := writeBlocks_ledger buf (h.blocks.write_max fildes (lt_of_le_of_lt hn (by decide)))
    (h.blocks.ledger (s.fileOf fildes))
  rcases fsWrite_cases s fildes buf nbyte with
    he | ⟨hge, hle, hu, -, ⟨v, ho, he⟩ | ⟨e, ho, -, he⟩ | ⟨e, ho, hwhy, -⟩⟩
  · rw [he]
    exact h.clean
  · rw [he]
    exact (hl.of_ok ho).2 (hsafe ⟨hge, hle, hu⟩)
  · rw [he]
    exact (hl.of_error ho).2.2.2 (hsafe ⟨hge, hle, hu⟩)
  · have := (hl.of_error ho).1
    rw [hwhy] at this
    cases this

/-- No other call writes to the disk. -/
theorem step_trace (s : State) {c : Call} (hc : ∀ fildes buf nbyte, c ≠ .write fildes buf nbyte) :
    (step s c).2.dev.trace = s.dev.trace := by
  cases c with
  | «open» name =>
    rcases fsOpen_cases s name with h | ⟨i, fd, -, -, h⟩ <;> rw [step, h]
  | close fildes =>
    rcases fsClose_cases s fildes with h | ⟨-, -, -, h⟩ <;> rw [step, h]
  | create name =>
    obtain ⟨r, t, bits, h, -⟩ := fsCreate_frame s name
    rw [step, h]
  | delete name =>
    rcases fsDelete_cases s name with ⟨-, h⟩ | ⟨d, -, -, -, h⟩ <;> rw [step, h]
  | read fildes buf nbyte =>
    rcases fsRead_cases s fildes buf nbyte with ⟨-, h⟩ | ⟨-, -, -, v, -, h⟩ <;> rw [step, h]
  | write fildes buf nbyte => exact absurd rfl (hc fildes buf nbyte)
  | getFilesize fildes => rfl
  | listfiles => rfl
  | lseek fildes offset =>
    rcases fsLseek_cases s fildes offset with h | ⟨-, -, -, -, h⟩ <;> rw [step, h]
  | truncate fildes length =>
    rcases fsTruncate_cases s fildes length with ⟨-, h⟩ | ⟨-, -, -, -, h⟩ | ⟨-, -, -, -, -, h⟩
    · rw [step, h]
    · rw [step, h]
    · rw [step, h]
      rfl

theorem MetaInv.step (h : MetaInv s) {c : Call} (hc : MetaCall c) (hk : KeepsBlocks s c) :
    MetaInv (step s c).2 := by
  obtain ⟨hblocks, hmap⟩ := FileInv.step ⟨h.blocks, h.map⟩ (hk.keepsFiles hc)
  refine ⟨hblocks, hmap, ?_⟩
  by_cases hwrite : ∃ fildes buf nbyte, c = .write fildes buf nbyte
  · obtain ⟨fildes, buf, nbyte, rfl⟩ := hwrite
    exact h.write_clean buf hc hk
  · have htrace := step_trace s (c := c) (fun f b n he => hwrite ⟨f, b, n, he⟩)
    intro b hb
    rw [htrace]
    exact h.clean b hb

theorem metaInv_fresh (blank : Disk) : MetaInv (fresh blank) := by
  obtain ⟨hblocks, hmap⟩ := fileInv_fresh blank
  obtain ⟨disk, he⟩ := fresh_eq blank
  refine ⟨hblocks, hmap, ?_⟩
  rw [he]
  intro b _ hb
  exact absurd hb List.not_mem_nil

/-- **The metadata blocks are untouched in every run** whose writes keep to blocks of their
files and whose truncates give back nothing. -/
theorem metadata_untouched (blank : Disk) (cs : List Call)
    (hcs : RunOk step (fun s c => MetaCall c ∧ KeepsBlocks s c) (fresh blank) cs) :
    (∀ b, b < 5 → Event.wrote b ∉ (run step (fresh blank) cs).dev.trace) ∧
      ∀ b, b < 5 → getBit b (run step (fresh blank) cs).dev.blocksBitmap = true := by
  have h := run_invariant (I := MetaInv) (fun _ _ hs hc => hs.step hc.1 hc.2) cs _
    (metaInv_fresh blank) hcs
  exact ⟨h.clean, h.blocks.oi.reserved⟩

/-- A file of one byte, cut to the byte it has and deleted. -/
def writeCutDelete : List Call :=
  [.create nameA, .open nameA, .write 0 (fun _ => 7) 1, .truncate 0 1, .close 0, .delete nameA]

theorem metadata_untouched_writeCutDelete :
    Event.wrote 0 ∉ (run step (fresh zeroDisk) writeCutDelete).dev.trace := by
  have hname : ValidName nameA := ⟨by decide, by decide⟩
  have hsize : 1 ≤ 2 ^ 20 := by decide
  refine (metadata_untouched zeroDisk writeCutDelete ⟨⟨hname, trivial⟩, ⟨hname, trivial⟩,
    ⟨hsize, fun _ => ⟨?_, ?_⟩⟩, ⟨trivial, ?_⟩, ⟨trivial, trivial⟩, ⟨hname, trivial⟩,
    trivial⟩).1 0 (by decide)
  · intro h
    exact absurd h (by decide +kernel)
  · intro _ h
    exact absurd h (by decide +kernel)
  · intro _ _ h
    exact absurd h (by decide +kernel)

/-- A file that ends inside the second block of its table is written to again. -/
def writePastTable : List Call :=
  [.create nameA, .open nameA, .write 0 (fun _ => 7) 106497, .write 0 (fun _ => 7) 110592]

/-- The second write enters the table at entry 26, finds it empty, and changes block 0. -/
theorem metadata_overwritten :
    RunOk step (fun _ c => MetaCall c) (fresh zeroDisk) writePastTable ∧
      Event.wrote 0 ∈ (run step (fresh zeroDisk) writePastTable).dev.trace := by
  have hname : ValidName nameA := ⟨by decide, by decide⟩
  have hsizes : (106497 ≤ 2 ^ 20) ∧ 110592 ≤ 2 ^ 20 := by decide
  exact ⟨⟨hname, hname, hsizes.1, hsizes.2, trivial⟩, by decide +kernel⟩

end EC440.FileSystems
