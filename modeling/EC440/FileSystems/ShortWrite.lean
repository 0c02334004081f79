import EC440.FileSystems.EndOfFile

/-!
# Writes that run out of blocks

`fs_write` returns early when no block is free, with the number of bytes it has written.  On a
new file there are three places where this happens: a direct block, the block of the table, and a
block the table is to name.  In the third one the table is only in memory, and the write returns
without writing it, so on the disk its block has whatever it had before.  The bytes behind the
direct blocks are counted, but no block that is stored names them.

`Honest` says that a write did what its return value says.  `fsWrite_honest_iff` is the exact
condition: a write of so many blocks that it needs the table, on a disk with room for the table
and at least one entry but not for all of them, is not.  What a free block holds is not part of
the condition, so it is about all contents of the free blocks.
-/

namespace EC440.FileSystems

open EC440.Lib

/-- **`k` bytes were written**: this is the size of the file and the place of the descriptor, the
bytes are read back, and the inode or the table on the disk names every block the call marked. -/
structure WroteBytes (s : State) (fildes : Int) (buf : Nat → UInt8) (k : Nat) (s' : State) :
    Prop where
  size : (s'.inodeOf fildes).fileSize.toNat = k
  offset : (s'.fd fildes).offset = k
  seek : (fsLseek s' fildes 0).1 = 0
  back : ∀ mem, (fsRead (fsLseek s' fildes 0).2 fildes mem k).1 = k ∧
    ∀ j, j < k → (fsRead (fsLseek s' fildes 0).2 fildes mem k).2.1 j = buf j
  named : ∀ b, getBit b s'.dev.blocksBitmap = true → getBit b s.dev.blocksBitmap = false →
    ∃ sl, s'.ref (s'.fileOf fildes, sl) = b

/-- The call returns how many bytes were written. -/
def Honest (s : State) (fildes : Int) (buf : Nat → UInt8) (nbyte : Nat) : Prop :=
  ∃ k : Nat, (fsWrite s fildes buf nbyte).1 = k ∧
    WroteBytes s fildes buf k (fsWrite s fildes buf nbyte).2

/-- The free blocks run out while the table is in memory: there is one for the table and for at
least one entry, but not for all. -/
def LosesTable (free nbyte : Nat) : Prop := 27 ≤ free ∧ free < blocksOf nbyte + 1

variable {s : State} {fildes : Int} {buf : Nat → UInt8} {nbyte : Nat}

theorem FileAt.blocksBelow {m0 : Arr 1024 UInt8} {dev : Dev} {ino : Inode} {data : Nat → UInt8}
    {len : Nat} (h : FileAt m0 dev ino data len) : BlocksBelow dev.disk ino len :=
  fun _ hb => ⟨(h.block hb).1, (h.block hb).2.1⟩

/-! ### What the call leaves -/

theorem EmptyFile.finishWrite (h : EmptyFile s fildes) (dev : Dev) {ino : Inode}
    (hsize : ino.fileSize = 0) {n : Nat} (hn : n ≤ 2 ^ 20) :
    ∃ (size : UInt32) (s' : State), finishWrite s fildes.toNat dev ino n = ((n : Int), s') ∧
      size.toNat = n ∧ s'.dev = dev ∧ s'.fd fildes = { s.fd fildes with offset := (n : Int) } ∧
      s'.fileOf fildes = s.fileOf fildes ∧ s'.inodeOf fildes = { ino with fileSize := size } := by
  have hoff := h.offset
  obtain ⟨size, hsz, hfin⟩ := finishWrite_eq s fildes dev ino (n := n) (by omega) (by omega)
  rw [hsize] at hsz
  have hr := h.range
  refine ⟨size, _, hfin, ?_, rfl, ?_, ?_, ?_⟩
  · rw [hsz]
    show max 0 _ = n
    omega
  · simp only [State.fd]
    rw [Arr.get_set_self _ (by omega), hoff, Int.zero_add]
  · simp only [State.fileOf, State.fd]
    rw [Arr.get_set_self _ (by omega)]
  · simp only [State.inodeOf, State.fileOf, State.fd]
    rw [Arr.get_set_self _ (by omega)]
    exact Arr.get_set_self _ h.file _

/-- A write that leaves `n` bytes in blocks the file names is honest. -/
theorem EmptyFile.honest (h : EmptyFile s fildes) {dev : Dev} {ino : Inode} {n : Nat}
    (hcall : fsWrite s fildes buf nbyte = FileSystems.finishWrite s fildes.toNat dev ino n)
    (hsize : ino.fileSize = 0) (hn : n ≤ 2 ^ 20) (hb : BlocksBelow dev.disk ino n)
    (hbytes : ∀ q, q < n → ino.bytes dev.disk q = buf q)
    (hnamed : ∀ b, getBit b dev.blocksBitmap = true → getBit b s.dev.blocksBitmap = false →
      ∃ sl, ino.names (tableOf dev.disk ino) sl = b) : Honest s fildes buf nbyte := by
  obtain ⟨size, s', hfin, hsz, hdev, hfd, hof, hino⟩ := h.finishWrite dev hsize hn
  have hb' : BlocksBelow s'.dev.disk (s'.inodeOf fildes) (s'.inodeOf fildes).fileSize.toNat := by
    rw [hino, hdev]
    show BlocksBelow dev.disk ino size.toNat
    rw [hsz]
    exact hb
  obtain ⟨hseek, hread⟩ := fsLseek_read (n := n) h.range (by rw [hfd]; exact h.used) hb'
    (by rw [hino, ← hsz]) hn
  refine ⟨n, by rw [hcall, hfin], ?_⟩
  rw [hcall, hfin]
  refine ⟨by rw [hino, ← hsz], by rw [hfd], hseek, ?_, ?_⟩
  · intro mem
    refine ⟨(hread mem).1, ?_⟩
    intro j hj
    rw [(hread mem).2 j hj, hino, hdev]
    exact hbytes j hj
  · intro b hset hfree
    simp only at hset
    rw [hdev] at hset
    obtain ⟨sl, hsl⟩ := hnamed b hset hfree
    refine ⟨sl, ?_⟩
    rw [State.ref]
    simp only
    rw [show s'.inodeTable.get (s'.fileOf fildes) = { ino with fileSize := size } from hino, hdev]
    exact hsl

/-! ### The ways a write ends -/

/-- A write to an empty file goes through, or runs out of blocks. -/
theorem EmptyFile.write_cases (h : EmptyFile s fildes) (hn : nbyte ≤ 2 ^ 20) (buf : Nat → UInt8) :
    (∃ dev ino, fsWrite s fildes buf nbyte = FileSystems.finishWrite s fildes.toNat dev ino nbyte ∧
      ino.fileSize = 0 ∧ FileAt s.dev.blocksBitmap dev ino buf nbyte) ∨
    ∃ e, fsWrite s fildes buf nbyte
        = FileSystems.finishWrite s fildes.toNat e.dev e.ino e.bytesWritten ∧
      e.ino.fileSize = 0 ∧ AppendExit s.dev.blocksBitmap buf 0 nbyte s.dev e := by
  have hoff := h.offset
  have hreq : writeRequest (s.fd fildes).offset nbyte = nbyte := by
    rw [writeRequest_eq nbyte (by omega) (by omega) (by omega)]
    omega
  have hcur : (s.fd fildes).offset.toNat = 0 := by omega
  have hw := (writeBlocks_append_cases (h.fileAt buf) (by decide) (by omega)
    (fun k (_ : k < nbyte) => by rw [Nat.zero_add])).and
    (writeBlocks_wrote buf nbyte 0 s.dev (s.inodeOf fildes))
  rw [fsWrite_open h.range h.used h.file, writeOutcome, hreq, hcur]
  cases hr : writeBlocks buf nbyte 0 s.dev (s.inodeOf fildes) with
  | ok v =>
    obtain ⟨⟨hbw, hfile⟩, hwrote⟩ := hw.of_ok hr
    rw [Nat.zero_add] at hfile
    exact Or.inl ⟨v.dev, v.ino, by simp only [hbw], hwrote.kept.size.trans h.size, hfile⟩
  | error e =>
    obtain ⟨hexit, hwrote⟩ := hw.of_error hr
    obtain ⟨why, dev, ino, n⟩ := e
    have hwhy : why = .noSpace := hexit.why
    subst hwhy
    exact Or.inr ⟨⟨.noSpace, dev, ino, n⟩, rfl, hwrote.kept.size.trans h.size, hexit⟩

/-- A file that is laid out is what it should be. -/
theorem EmptyFile.honest_fileAt (h : EmptyFile s fildes) {dev : Dev} {ino : Inode} {n : Nat}
    (hcall : fsWrite s fildes buf nbyte = FileSystems.finishWrite s fildes.toNat dev ino n)
    (hsize : ino.fileSize = 0) (hn : n ≤ 2 ^ 20) (hfile : FileAt s.dev.blocksBitmap dev ino buf n) :
    Honest s fildes buf nbyte := by
  refine h.honest hcall hsize hn hfile.blocksBelow hfile.bytes ?_
  intro b hset hfree
  rcases hfile.laid.added b hset with hold | hsl
  · rw [hold] at hfree
    cases hfree
  · exact hsl

/-- A lost table does no harm as long as it has no entry. -/
theorem EmptyFile.honest_lost (h : EmptyFile s fildes) {dev : Dev} {ino : Inode} {t : Block}
    (hcall : fsWrite s fildes buf nbyte = FileSystems.finishWrite s fildes.toNat dev ino 102400)
    (hsize : ino.fileSize = 0)
    (hlost : TableLost s.dev.blocksBitmap buf 102400 s.dev dev ino t) :
    Honest s fildes buf nbyte := by
  have hdirect : ∀ b, b < 25 → ino.names (tableOf dev.disk ino) (blockSlot b)
      = ino.names (get16 t) (blockSlot b) := by
    intro b hb
    rw [names_direct _ _ hb, names_direct _ _ hb]
  refine h.honest hcall hsize (by decide) ?_ ?_ ?_
  · intro b hb
    have hne := (hlost.laid.mapped b).mpr (by rw [blocksOf]; omega)
    rw [hdirect b (by omega)]
    exact ⟨hne, (hlost.laid.owned.used_of_ne _ hne).1⟩
  · intro q hq
    rw [Inode.bytes, byteAt, hdirect _ (by omega)]
    exact hlost.bytes q hq
  · intro b hset hfree
    have hold : getBit b s.dev.blocksBitmap ≠ true := by
      rw [hfree]
      decide
    obtain ⟨sl, hsl⟩ := (hlost.laid.added b hset).resolve_left hold
    cases sl with
    | direct j => exact ⟨.direct j, hsl⟩
    | table => exact ⟨.table, hsl⟩
    | entry k =>
      -- the table has no entry, so `b` would be block `0`
      have hslot : blockSlot (25 + k) = .entry k := by
        rw [blockSlot, if_neg (by omega), Nat.add_sub_cancel_left]
      have hno : ¬ 25 + k < blocksOf 102400 := by
        rw [blocksOf]
        omega
      rw [← hlost.laid.mapped, hslot, hsl] at hno
      have h0 : b = 0 := by
        by_contra hne
        exact hno hne
      rw [h0] at hold
      exact absurd h.zero hold

/-- How many blocks were free when the table is lost. -/
theorem TableLost.count {m0 : Arr 1024 UInt8} {data : Nat → UInt8} {len : Nat} {dev dev' : Dev}
    {ino : Inode} {t : Block} (h : TableLost m0 data len dev dev' ino t)
    (hfull : freeCount dev'.blocksBitmap = 0) : freeCount m0 = blocksOf len + 1 := by
  have := h.laid.count
  simp only [Bool.toNat_true] at this
  omega

/-- **The honest writes.** -/
theorem EmptyFile.honest_of_not_losesTable (h : EmptyFile s fildes) (hn : nbyte ≤ 2 ^ 20)
    (buf : Nat → UInt8) (hgood : ¬ LosesTable (freeCount s.dev.blocksBitmap) nbyte) :
    Honest s fildes buf nbyte := by
  rcases h.write_cases hn buf with ⟨dev, ino, hcall, hsize, hfile⟩ | ⟨e, hcall, hsize, he⟩
  · exact h.honest_fileAt hcall hsize hn hfile
  · have hlt := he.lt
    have hwhole := he.whole
    rcases he.left with ⟨hfile, -⟩ | ⟨t, hlost, hge⟩
    · rw [Nat.zero_add] at hfile
      exact h.honest_fileAt hcall hsize (by omega) hfile
    · have hcount := hlost.count he.full
      rw [Nat.zero_add] at hlost hcount hge hwhole
      -- the write stopped at the first entry
      have hk : e.bytesWritten = 102400 := by
        rw [LosesTable, hcount, blocksOf, blocksOf] at hgood
        omega
      rw [hk] at hcall hlost
      exact h.honest_lost hcall hsize hlost

/-- **The others**, when the free blocks hold no entry. -/
theorem EmptyFile.not_honest (h : EmptyFile s fildes) (hn : nbyte ≤ 2 ^ 20) (buf : Nat → UInt8)
    (hbad : LosesTable (freeCount s.dev.blocksBitmap) nbyte)
    (hblank : ∀ b k, getBit b s.dev.blocksBitmap = false → get16 (s.dev.disk.get b) k = 0) :
    ¬ Honest s fildes buf nbyte := by
  have hfull := hbad.2
  have h27 := hbad.1
  rintro ⟨k, hret, hwrote⟩
  rcases h.write_cases hn buf with ⟨dev, ino, hcall, hsize, hfile⟩ | ⟨e, hcall, hsize, he⟩
  · have hcount := hfile.laid.count
    rw [blocksOf] at hfull hcount
    rw [decide_eq_true (show 102400 < nbyte by omega), Bool.toNat_true] at hcount
    omega
  · have hfull' := he.full
    have hlt := he.lt
    rcases he.left with ⟨hfile, hle⟩ | ⟨t, hlost, hge⟩
    · have hcount := hfile.laid.count
      rw [decide_eq_false (show ¬ 102400 < 0 + e.bytesWritten by omega), blocksOf] at hcount
      simp only [Bool.toNat_false] at hcount
      omega
    · have hcount := hlost.count he.full
      -- the block of the first entry was marked, and nothing on the disk names it
      have hne := (hlost.laid.mapped 25).mpr (by omega)
      have hslot : blockSlot 25 = .entry 0 := rfl
      rw [hslot] at hne
      obtain ⟨-, hset, hfree⟩ := hlost.laid.owned.used_of_ne _ hne
      obtain ⟨size, s', hfin, -, hdev, -, hof, hino⟩ :=
        h.finishWrite e.dev hsize (show e.bytesWritten ≤ 2 ^ 20 by omega)
      rw [hcall, hfin] at hwrote
      obtain ⟨sl, hsl⟩ := hwrote.named _ (by simp only; rw [hdev]; exact hset) hfree
      have htab : ∀ k, tableOf e.dev.disk e.ino k = 0 := by
        intro k
        rw [tableOf]
        split
        · rfl
        · rw [hlost.stale]
          exact hblank _ k hlost.free
      have hname : s'.ref (s'.fileOf fildes, sl) = e.ino.names (tableOf e.dev.disk e.ino) sl := by
        rw [State.ref]
        simp only
        rw [show s'.inodeTable.get (s'.fileOf fildes) = { e.ino with fileSize := size } from hino,
          hdev]
        rfl
      simp only at hsl
      rw [hname] at hsl
      cases sl with
      | direct j =>
        have := hlost.laid.owned.inj (.entry 0) (.direct j) hne hsl.symm
        cases this
      | table =>
        have := hlost.laid.owned.inj (.entry 0) .table hne hsl.symm
        cases this
      | entry j =>
        rw [Inode.names, htab] at hsl
        exact hne hsl.symm

/-! ### The condition -/

def State.withDisk (s : State) (disk : Disk) : State := { s with dev := { s.dev with disk := disk } }

/-- `disk` is the disk of `s`, up to its free blocks. -/
def SameMarked (s : State) (disk : Disk) : Prop :=
  ∀ b, getBit b s.dev.blocksBitmap = true → disk.get b = s.dev.disk.get b

theorem EmptyFile.withDisk (h : EmptyFile s fildes) (disk : Disk) :
    EmptyFile (s.withDisk disk) fildes :=
  ⟨h.range, h.used, h.file, h.offset, h.size, h.direct, h.single, h.zero⟩

def State.blanked (s : State) : Disk :=
  Arr.ofFn (fun b => if getBit b s.dev.blocksBitmap = true then s.dev.disk.get b else Arr.fill 0)

theorem get_blanked (s : State) (b : Nat) (hb : b < 8192) : s.blanked.get b =
    if getBit b s.dev.blocksBitmap = true then s.dev.disk.get b else Arr.fill 0 := Arr.get_ofFn _ hb

theorem sameMarked_blanked (s : State) : SameMarked s s.blanked := by
  intro b hset
  by_cases hb : b < 8192
  · rw [get_blanked s b hb, if_pos hset]
  · rw [Arr.get_of_ge _ (by omega), Arr.get_of_ge _ (by omega)]

/-- **When a short write is honest.**  A write to an empty file returns the number of bytes that
are in the file, whatever the free blocks hold, exactly when the blocks do not run out between the
first and the last entry of the table. -/
theorem fsWrite_honest_iff (h : EmptyFile s fildes) (hn : nbyte ≤ 2 ^ 20) (buf : Nat → UInt8) :
    (∀ disk, SameMarked s disk → Honest (s.withDisk disk) fildes buf nbyte) ↔
      ¬ LosesTable (freeCount s.dev.blocksBitmap) nbyte := by
  constructor
  · intro hall hbad
    refine (h.withDisk s.blanked).not_honest hn buf hbad ?_ (hall _ (sameMarked_blanked s))
    intro b k hfree
    show get16 (s.blanked.get b) k = 0
    have hfree' : ¬ getBit b s.dev.blocksBitmap = true := Bool.eq_false_iff.mp hfree
    by_cases hb : b < 8192
    · rw [get_blanked s b hb, if_neg hfree', get16_fill_zero]
    · rw [Arr.get_of_ge _ (by omega)]
      exact get16_fill_zero k
  · intro hgood disk _
    exact (h.withDisk disk).honest_of_not_losesTable hn buf hgood

/-- A process with a bitmap left from another disk, in which all blocks from `n` on are marked. -/
def crowded (n : Nat) : Process :=
  let p := Process.start (fun _ => zeroDisk)
  { p with
    fs := { p.fs with
      dev := { p.fs.dev with
        blocksBitmap := Arr.ofFn (fun k => UInt8.ofNat (2 ^ 8 - 2 ^ min 8 (n - 8 * k))) } } }

/-- A new file on the disk this process makes. -/
def nearlyFull (n : Nat) : State :=
  run step (mountFs (makeFs zeroDisk (crowded n) "disk").2 "disk").2.fs [.create nameA, .open nameA]

theorem getBit_crowded {b : Nat} (n : Nat) (hb : b < 8192) :
    getBit b (crowded n).fs.dev.blocksBitmap = decide (n ≤ b) := by
  rw [getBit_eq_testBit]
  show ((Arr.ofFn (fun k => UInt8.ofNat (2 ^ 8 - 2 ^ min 8 (n - 8 * k))) : Arr 1024 UInt8).get
    (b / 8)).toNat.testBit (b % 8) = _
  have hpos : 0 < 2 ^ min 8 (n - 8 * (b / 8)) := Nat.two_pow_pos _
  have hbyte : 2 ^ 8 - 2 ^ min 8 (n - 8 * (b / 8)) = 2 ^ 8 - (2 ^ min 8 (n - 8 * (b / 8)) - 1 + 1) := by
    omega
  rw [Arr.get_ofFn _ (by omega), UInt8.toNat_ofNat', Nat.mod_eq_of_lt (by omega), hbyte,
    Nat.testBit_two_pow_sub_succ (by
      have := Nat.pow_le_pow_right (show 0 < 2 by decide) (Nat.min_le_left 8 (n - 8 * (b / 8)))
      omega),
    Nat.testBit_two_pow_sub_one, Bool.eq_iff_iff]
  simp only [Bool.and_eq_true, decide_eq_true_eq, Bool.not_eq_true', decide_eq_false_iff_not]
  omega

theorem mount_crowded (n : Nat) :
    (mountFs (makeFs zeroDisk (crowded n) "disk").2 "disk").2.fs
      = mounted ((makeFs zeroDisk (crowded n) "disk").2.disks "disk")
          (emptyTables (crowded n).fs.dev.blocksBitmap) := by
  obtain ⟨-, himage, hflag, -⟩ := makeFs_spec zeroDisk (crowded n) "disk"
  rw [mountFs_spec hflag himage]

theorem nearlyFull_new {n : Nat} (hn : n = 31 ∨ n = 32) :
    NewFile (mounted ((makeFs zeroDisk (crowded n) "disk").2.disks "disk")
      (emptyTables (crowded n).fs.dev.blocksBitmap)) nameA 0 (nearlyFull n) := by
  have heval : (fsCreate (mountFs (makeFs zeroDisk (crowded n) "disk").2 "disk").2.fs nameA).1 = 0 ∧
      (fsOpen (fsCreate (mountFs (makeFs zeroDisk (crowded n) "disk").2 "disk").2.fs nameA).2
        nameA).1 = 0 ∧
      findInode (mountFs (makeFs zeroDisk (crowded n) "disk").2 "disk").2.fs.inodesBitmap
        = some ((nearlyFull n).fileOf 0) := by
    rcases hn with rfl | rfl <;> decide +kernel
  obtain ⟨hmade, hopened, hsame⟩ := heval
  rw [← mount_crowded]
  exact ⟨hmade, Prod.ext hopened rfl, by decide, hsame⟩

theorem getBit_nearlyFull {n b : Nat} (hn : n = 31 ∨ n = 32) (hb : b < 8192) :
    getBit b (nearlyFull n).dev.blocksBitmap = decide (b < 5 ∨ n ≤ b) := by
  rw [(nearlyFull_new hn).dev_eq.1]
  show getBit b (setBits 5 (crowded n).fs.dev.blocksBitmap) = _
  rw [getBit_setBits 5 b (by omega), getBit_crowded n hb, Bool.decide_or]

theorem nearlyFull_empty {n : Nat} (hn : n = 31 ∨ n = 32) : EmptyFile (nearlyFull n) 0 :=
  (nearlyFull_new hn).emptyFile (unusedEmpty_mounted _ _) (by
    rw [← (nearlyFull_new hn).dev_eq.1, getBit_nearlyFull hn (by decide)]
    rfl)

theorem freeCount_nearlyFull {n : Nat} (hn : n = 31 ∨ n = 32) :
    freeCount (nearlyFull n).dev.blocksBitmap = n - 5 := by
  have hcells : freeCells (fun i => getBit i (nearlyFull n).dev.blocksBitmap) 8192
      = Finset.Ico 5 n := by
    ext b
    rw [mem_freeCells, Finset.mem_Ico]
    constructor
    · rintro ⟨hb, hfree⟩
      rw [getBit_nearlyFull hn hb, decide_eq_false_iff_not] at hfree
      omega
    · intro hb
      refine ⟨by omega, ?_⟩
      rw [getBit_nearlyFull hn (by omega), decide_eq_false_iff_not]
      omega
  rw [freeCount, hcells, Nat.card_Ico]

/-- With 26 free blocks, for a write that needs 27 and the table, they run out when the table has been
given one. -/
theorem fsWrite_honest_nearlyFull :
    freeCount (nearlyFull 31).dev.blocksBitmap = 26 ∧
    Honest (nearlyFull 31) 0 (fun _ => 7) 110592 := by
  have hfree := freeCount_nearlyFull (n := 31) (Or.inl rfl)
  refine ⟨hfree, (fsWrite_honest_iff (nearlyFull_empty (Or.inl rfl)) (by decide) (fun _ => 7)).mpr ?_ _
    fun _ _ => rfl⟩
  rw [hfree]
  exact fun hbad => absurd hbad.1 (by decide)

/-- With 27 free blocks the table and one entry are taken before the blocks run out. -/
theorem fsWrite_not_honest :
    EmptyFile (nearlyFull 32) 0 ∧ ¬ Honest (nearlyFull 32) 0 (fun _ => 7) 110592 := by
  have hempty := nearlyFull_empty (n := 32) (Or.inr rfl)
  refine ⟨hempty, hempty.not_honest (by decide) (fun _ => 7) ?_ ?_⟩
  · rw [freeCount_nearlyFull (Or.inr rfl)]
    exact ⟨by decide, by decide⟩
  · intro b k hfree
    have hblank : (nearlyFull 32).dev.disk.get b = Arr.fill 0 := by
      by_cases hb : b < 8192
      · rw [getBit_nearlyFull (Or.inr rfl) hb, decide_eq_false_iff_not] at hfree
        rw [(nearlyFull_new (Or.inr rfl)).dev_eq.1]
        show ((makeFs zeroDisk (crowded 32) "disk").2.disks "disk").get b = Arr.fill 0
        rw [(makeFs_spec zeroDisk (crowded 32) "disk").2.2.2.2 b (by omega)]
        exact Arr.get_fill _ hb
      · exact Arr.get_of_ge _ (by omega)
    rw [hblank, get16_fill_zero]

end EC440.FileSystems
