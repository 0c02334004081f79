import EC440.FileSystems.Stream
import EC440.FileSystems.Blocks

/-!
# The life of a file

A file is made, opened, written, closed and deleted, all with no other descriptor open
(`cycle`).  Then the inode is free again, and so is every block the file was given but
one: `fs_delete` releases the blocks that the indirect table names and forgets the block
that the table is in.  So the bitmaps are what they were exactly when the file needs no
table.

The cycle begins in a state of a run in which no descriptor was ever opened on an inode
that no file uses (`OpensUsed`); then an inode no file uses is empty (`LifeInv`).
-/

namespace EC440.FileSystems

open EC440.Lib

/-! ### Runs -/

/-- An `fs_open` that finds its name finds the entry of an inode that is in use. -/
def OpensUsed (s : State) : Call → Prop
  | .open name => ∀ d, findName s.dirTable name = some d →
      getBit (s.dirTable.get d).inodeNumber.toNat s.inodesBitmap = true
  | _ => True

/-- Inodes have their own numbers, those no file uses are empty and not open, and block `0`
is never free. -/
structure LifeInv (s : State) : Prop where
  numbered : ∀ i, i < 64 → (s.inodeTable.get i).inodeNumber.toNat = i
  unused : UnusedEmpty s
  zero : getBit 0 s.dev.blocksBitmap = true
  inUse : ∀ k, (s.fdTable.get k).isUsed = true →
    getBit (s.fdTable.get k).inodeNumber.toNat s.inodesBitmap = true

section Inv

variable {s s' : State}

/-- Only descriptors change, and they stay on inodes that are in use. -/
theorem LifeInv.setFd (h : LifeInv s) {k : Nat} {fd : FDesc}
    (hused : fd.isUsed = true → getBit fd.inodeNumber.toNat s.inodesBitmap = true) :
    LifeInv { s with fdTable := s.fdTable.set k fd } := by
  refine ⟨h.numbered, h.unused, h.zero, ?_⟩
  intro j hj
  simp only at hj ⊢
  rcases Arr.get_set_cases s.fdTable k j fd with ⟨hget, -⟩ | hget
  · rw [hget] at hj ⊢
    exact hused hj
  · rw [hget] at hj ⊢
    exact h.inUse j hj

theorem LifeInv.setInode (h : LifeInv s) {fildes : Int} (hu : (s.fd fildes).isUsed = true)
    {ino : Inode} (hino : s'.inodeTable = s.inodeTable.set (s.fileOf fildes) ino)
    (hnum : ino.inodeNumber = (s.inodeOf fildes).inodeNumber)
    (hbits : s'.inodesBitmap = s.inodesBitmap) (hzero : getBit 0 s'.dev.blocksBitmap = true)
    (hfd : ∀ k, (s'.fdTable.get k).isUsed = (s.fdTable.get k).isUsed ∧
      (s'.fdTable.get k).inodeNumber = (s.fdTable.get k).inodeNumber) : LifeInv s' := by
  refine ⟨?_, ?_, hzero, ?_⟩
  · intro i hi
    rw [hino, inodeNumber_set _ _ _ _ hnum]
    exact h.numbered i hi
  · intro i hi hclear
    rw [hbits] at hclear
    have hne : i ≠ s.fileOf fildes := by
      rintro rfl
      rw [h.inUse _ hu] at hclear
      cases hclear
    rw [hino, Arr.get_set_ne _ hne]
    exact h.unused i hi hclear
  · intro k hk
    rw [(hfd k).1] at hk
    rw [(hfd k).2, hbits]
    exact h.inUse k hk

theorem set_offset_same (t : Arr 32 FDesc) (i k : Nat) (off : Int) :
    ((t.set i { t.get i with offset := off }).get k).isUsed = (t.get k).isUsed ∧
      ((t.set i { t.get i with offset := off }).get k).inodeNumber = (t.get k).inodeNumber := by
  rcases Arr.get_set_cases t i k { t.get i with offset := off } with ⟨hget, rfl⟩ | hget
  · rw [hget]
    exact ⟨rfl, rfl⟩
  · rw [hget]
    exact ⟨rfl, rfl⟩

theorem getBit_zero_clearBlocks {n : Nat} (blocks : Nat → UInt16) (count : Nat)
    {bitmap : Arr n UInt8} (h : getBit 0 bitmap = true) :
    getBit 0 (clearBlocks blocks count bitmap) = true :=
  (getBit_clearBlocks blocks count 0 bitmap).mpr
    ⟨h, fun _ _ hne he => hne (UInt16.toNat_inj.mp he)⟩

theorem getBit_zero_releaseDirect (ino : Inode) : ∀ (n start : Nat) (bitmap : Arr 1024 UInt8),
    getBit 0 bitmap = true → getBit 0 (releaseDirect ino n start bitmap).2 = true := by
  intro n
  induction n with
  | zero =>
    intro start bitmap h
    exact h
  | succ n ih =>
    intro start bitmap h
    rw [releaseDirect]
    split
    · split
      · rename_i hne
        refine ih _ _ ?_
        rw [getBit_clearBit, h, Bool.and_true, Bool.not_eq_true', decide_eq_false_iff_not]
        exact fun he => hne (UInt16.toNat_inj.mp he.symm)
      · exact h
    · exact h

theorem getBit_zero_truncatedBitmap {dev : Dev} (h : getBit 0 dev.blocksBitmap = true) (ino : Inode)
    (length : Nat) : getBit 0 (truncatedBitmap dev ino length) = true := by
  have hr := getBit_zero_releaseDirect ino 25 (startingBlock length) dev.blocksBitmap h
  rw [truncatedBitmap]
  split
  · exact getBit_zero_clearBlocks _ _ hr
  · exact hr

theorem LifeInv.write (h : LifeInv s) (fildes : Int) (buf : Nat → UInt8) (nbyte : Nat) :
    LifeInv (fsWrite s fildes buf nbyte).2 := by
  have hw := writeBlocks_wrote buf (writeRequest (s.fd fildes).offset nbyte)
    (s.fd fildes).offset.toNat s.dev (s.inodeOf fildes)
  rcases fsWrite_cases s fildes buf nbyte with
    he | ⟨-, -, hu, -, ⟨v, ho, he⟩ | ⟨e, ho, -, he⟩ | ⟨e, ho, -, he⟩⟩
  · rw [he]
    exact h
  · rw [he]
    exact h.setInode hu rfl (hw.of_ok ho).kept.number rfl ((hw.of_ok ho).grows.bits 0 h.zero)
      (fun k => set_offset_same _ _ k _)
  · rw [he]
    exact h.setInode hu rfl (hw.of_error ho).kept.number rfl ((hw.of_error ho).grows.bits 0 h.zero)
      (fun k => set_offset_same _ _ k _)
  · rw [he]
    exact h.setInode hu rfl (hw.of_error ho).kept.number rfl ((hw.of_error ho).grows.bits 0 h.zero)
      (fun k => ⟨rfl, rfl⟩)

theorem LifeInv.truncate (h : LifeInv s) (fildes length : Int) :
    LifeInv (fsTruncate s fildes length).2 := by
  rcases fsTruncate_cases s fildes length with ⟨-, he⟩ | ⟨-, -, -, -, he⟩ | ⟨-, -, hu, -, -, he⟩
  · rw [he]
    exact h
  · rw [he]
    exact h
  · rw [he]
    refine h.setInode hu rfl rfl rfl (getBit_zero_truncatedBitmap h.zero _ _) ?_
    intro k
    rw [finishTruncate]
    simp only
    split
    · exact set_offset_same _ _ k _
    · exact ⟨rfl, rfl⟩

theorem LifeInv.create (h : LifeInv s) (name : CString) : LifeInv (fsCreate s name).2 := by
  obtain ⟨r, t, bits, he, hbits⟩ := fsCreate_frame s name
  rw [he]
  refine ⟨h.numbered, ?_, h.zero, fun k hk => hbits _ (h.inUse k hk)⟩
  intro i hi hclear
  refine h.unused i hi (Bool.eq_false_iff.mpr ?_)
  intro hb
  rw [hbits i hb] at hclear
  cases hclear

theorem LifeInv.delete (h : LifeInv s) (name : CString) : LifeInv (fsDelete s name).2 := by
  rcases fsDelete_cases s name with ⟨-, he⟩ | ⟨d, -, ho, hlt, he⟩
  · rw [he]
    exact h
  · rw [he]
    refine ⟨?_, ?_, ?_, ?_⟩
    · intro i hi
      rw [inodeNumber_set]
      · exact h.numbered i hi
      · rfl
    · intro i hi hclear
      by_cases hid : i = (s.dirTable.get d).inodeNumber.toNat
      · simp only [hid, Arr.get_set_self _ hlt]
        exact ⟨rfl, fun j => Arr.get_fill_default j, rfl⟩
      · simp only [Arr.get_set_ne _ hid]
        simp only [getBit_clearBit, decide_eq_false hid, Bool.not_false, Bool.true_and] at hclear
        exact h.unused i hi hclear
    · refine (getBit_deletedBitmap _ _ _).mpr ⟨h.zero, ?_, ?_⟩
      · intro j _ hne hj
        exact hne (UInt16.toNat_inj.mp hj)
      · intro _ k _ hne hk
        exact hne (UInt16.toNat_inj.mp hk)
    · intro k hk
      have hk' : (s.fdTable.get k).isUsed = true := hk
      rw [anyOpen_eq_false.mp ho k] at hk'
      cases hk'

theorem LifeInv.step (h : LifeInv s) {c : Call} (hc : OpensUsed s c) : LifeInv (step s c).2 := by
  cases c with
  | «open» name =>
    show LifeInv (fsOpen s name).2
    rcases fsOpen_cases s name with he | ⟨d, fd, hd, -, he⟩
    · rw [he]
      exact h
    · rw [he]
      exact h.setFd fun _ => hc d hd
  | close fildes =>
    show LifeInv (fsClose s fildes).2
    rcases fsClose_cases s fildes with he | ⟨-, -, -, he⟩
    · rw [he]
      exact h
    · rw [he]
      exact h.setFd fun hu => by cases hu
  | create name => exact h.create name
  | delete name => exact h.delete name
  | read fildes buf nbyte =>
    show LifeInv (fsRead s fildes buf nbyte).2.2
    rcases fsRead_cases s fildes buf nbyte with ⟨-, he⟩ | ⟨-, -, -, v, -, he⟩
    · rw [he]
      exact h
    · rw [he]
      exact h.setFd fun hu => h.inUse _ hu
  | write fildes buf nbyte => exact h.write fildes buf nbyte
  | getFilesize fildes => exact h
  | listfiles => exact h
  | lseek fildes offset =>
    show LifeInv (fsLseek s fildes offset).2
    rcases fsLseek_cases s fildes offset with he | ⟨-, -, -, -, he⟩
    · rw [he]
      exact h
    · rw [he]
      exact h.setFd fun hu => h.inUse _ hu
  | truncate fildes length => exact h.truncate fildes length

end Inv

/-! ### What `fs_delete` leaves of a file -/

/-- A file that was only written at its end is released but for its table. -/
theorem Laid.getBit_deleted {m0 : Arr 1024 UInt8} {dev : Dev} {ino : Inode} {B : Nat} {t : Bool}
    (h : Laid m0 dev.blocksBitmap ino (tableOf dev.disk ino) B t) (hB : B ≤ 256) (b : Nat) :
    getBit b (deletedBitmap dev ino) = true ↔
      getBit b m0 = true ∨ ino.singleIndirectBlock ≠ 0 ∧ ino.singleIndirectBlock.toNat = b := by
  have hslot : ∀ sl, ino.names (tableOf dev.disk ino) sl ≠ 0 →
      getBit (ino.names (tableOf dev.disk ino) sl) dev.blocksBitmap = true ∧
      getBit (ino.names (tableOf dev.disk ino) sl) m0 = false :=
    fun sl hne => (h.owned.used_of_ne sl hne).2
  rw [getBit_deletedBitmap]
  constructor
  · rintro ⟨hb, hdirect, hentry⟩
    rcases h.added b hb with hm | ⟨sl, hsl⟩
    · exact Or.inl hm
    · by_cases hb0 : b = 0
      · rw [hb0]
        exact Or.inl h.zero
      · -- a direct slot and an entry would have been released
        cases sl with
        | direct j =>
          have hj : ino.directBlock.get j ≠ 0 := fun h0 => hb0 (by rw [← hsl, Inode.names, h0]; rfl)
          have hlt : j < 25 := by
            by_contra hge
            exact hj (Arr.get_of_ge _ (by omega))
          exact absurd hsl (hdirect j hlt hj)
        | entry k =>
          have hk : tableOf dev.disk ino k ≠ 0 := fun h0 => hb0 (by rw [← hsl, Inode.names, h0]; rfl)
          have hmapped := (h.mapped (25 + k)).mp (by
            rw [blockSlot, if_neg (by omega), Nat.add_sub_cancel_left, hsl]
            exact hb0)
          have hs : ino.singleIndirectBlock.toNat < 8192 := by
            have hne : ino.singleIndirectBlock ≠ 0 := fun h0 => hk (by rw [tableOf, if_pos h0])
            exact (h.owned.used_of_ne .table fun he => hne (UInt16.toNat_inj.mp he)).1
          exact absurd hsl (hentry hs k (by omega) hk)
        | table =>
          refine Or.inr ⟨fun h0 => hb0 ?_, hsl⟩
          rw [← hsl, Inode.names, h0]
          rfl
  · rintro (hm | ⟨hs, rfl⟩)
    · refine ⟨h.kept b hm, ?_, ?_⟩
      · intro j _ hj he
        have := (hslot (.direct j) fun h0 => hj (UInt16.toNat_inj.mp h0)).2
        rw [Inode.names, he, hm] at this
        cases this
      · intro _ k _ hk he
        have := (hslot (.entry k) fun h0 => hk (UInt16.toNat_inj.mp h0)).2
        rw [Inode.names, he, hm] at this
        cases this
    · have hne : ino.names (tableOf dev.disk ino) .table ≠ 0 :=
        fun h0 => hs (UInt16.toNat_inj.mp h0)
      refine ⟨(hslot .table hne).1, ?_, ?_⟩
      · intro j _ _ he
        exact h.owned.ne (y := .direct j) hne (by simp) he.symm
      · intro _ k _ _ he
        exact h.owned.ne (y := .entry k) hne (by simp) he.symm

/-- The block of the table stays marked: one block fewer is free. -/
theorem FileAt.freeCount_deleted {m0 : Arr 1024 UInt8} {dev : Dev} {ino : Inode}
    {data : Nat → UInt8} {len : Nat} (h : FileAt m0 dev ino data len) (hlen : len ≤ 2 ^ 20)
    (hlong : 102400 < len) : freeCount (deletedBitmap dev ino) + 1 = freeCount m0 := by
  have hB : blocksOf len ≤ 256 := by
    rw [blocksOf]
    omega
  have hs : ino.singleIndirectBlock ≠ 0 := h.laid.table.mpr (decide_eq_true hlong)
  obtain ⟨hlt, -, hfree⟩ :=
    h.laid.owned.used_of_ne .table fun h0 => hs (UInt16.toNat_inj.mp h0)
  have hset : deletedBitmap dev ino = setBit ino.singleIndirectBlock.toNat m0 := by
    refine bitmap_ext fun b hb => Bool.eq_iff_iff.mpr ?_
    rw [h.laid.getBit_deleted hB, getBit_setBit, Bool.or_eq_true, Bool.and_eq_true,
      decide_eq_true_eq, decide_eq_true_eq]
    constructor
    · rintro (hm | ⟨-, he⟩)
      · exact Or.inr hm
      · exact Or.inl ⟨he.symm, by omega⟩
    · rintro (⟨he, -⟩ | hm)
      · exact Or.inr ⟨hs, he.symm⟩
      · exact Or.inl hm
  rw [hset]
  exact freeCount_setBit hlt hfree

def openedFd (s : State) (name : CString) : Int := (fsOpen (fsCreate s name).2 name).1

/-- A state in which a cycle can begin. -/
structure Idle (name : CString) (s : State) : Prop where
  inv : LifeInv s
  closed : ∀ k, (s.fdTable.get k).isUsed = false
  unnamed : findName s.dirTable name = none

section Cycle

variable {s : State} {name : CString} {buf : Nat → UInt8} {n : Nat}

theorem nameAt_set_ne {t : Arr 64 DirEntry} (hn : findName t name = none)
    (hlen : name.val.length ≤ 15) {i j : Nat} (hj : j < 64) (hji : j ≠ i) (e : DirEntry) :
    nameAt (t.set i e) j ≠ name.val := by
  intro heq
  have hget := Arr.get_set_ne t hji e
  have hterm := terminated_of_nameAt hj (t := t.set i e) (by rw [heq]; exact hlen)
  rw [hget] at hterm
  rw [nameAt_of_get hj hget hterm] at heq
  exact findName_eq_none.mp hn j hj heq

/-- The entry of the file that a cycle makes in slot `i`. -/
def madeEntry (s : State) (name : CString) (i : Nat) : DirEntry :=
  { newEntry (s.inodeTable.get i).inodeNumber with name := padName name.val }

theorem Idle.findName_made (h : Idle name s) (hname : ValidName name) {i : Nat} (hi : i < 64) :
    findName (s.dirTable.set i (madeEntry s name i)) name = some i := by
  refine findName_eq_some.mpr ⟨hi, nameAt_padName hi hname.2 ?_, ?_⟩
  · rw [Arr.get_set_self _ hi]
    rfl
  · intro j hj
    exact nameAt_set_ne h.unnamed hname.2 (by omega) (by omega) _

theorem Idle.creates (h : Idle name s) (hname : ValidName name) {i : Nat}
    (hfull : dirFull s.dirTable = false) (hi : findInode s.inodesBitmap = some i) :
    fsCreate s name = (0, { s with
      dirTable := s.dirTable.set i (madeEntry s name i)
      inodesBitmap := setBit i s.inodesBitmap }) := by
  rcases fsCreate_cases s hname.2 with ⟨-, ⟨j, hj⟩ | hd⟩ | ⟨-, -, hnone, -⟩ | ⟨j, -, -, hj, he⟩
  · rw [h.unnamed] at hj
    cases hj
  · rw [hd] at hfull
    cases hfull
  · rw [hnone] at hi
    cases hi
  · rw [hj] at hi
    cases hi
    exact he

theorem Idle.opens (h : Idle name s) (hname : ValidName name) {i : Nat}
    (hfull : dirFull s.dirTable = false) (hi : findInode s.inodesBitmap = some i) :
    ∃ (fd : Nat) (t : State), fd < 32 ∧ NewFile s name fd t ∧
      t.dirTable = s.dirTable.set i (madeEntry s name i) ∧
      t.inodesBitmap = setBit i s.inodesBitmap ∧
      ∀ k, k ≠ fd → (t.fdTable.get k).isUsed = false := by
  have hilt := (findInode_eq_some hi).1
  have hcreate := h.creates hname hfull hi
  cases hfd : findFd s.fdTable with
  | none =>
    have := findFd_eq_none.mp hfd 0 (by omega)
    rw [h.closed 0] at this
    cases this
  | some fd =>
    have hlt := (findFd_eq_some hfd).1
    have hopen : fsOpen (fsCreate s name).2 name = ((fd : Int), { s with
        dirTable := s.dirTable.set i (madeEntry s name i)
        inodesBitmap := setBit i s.inodesBitmap
        fdTable := s.fdTable.set fd ⟨true, (s.inodeTable.get i).inodeNumber, 0⟩ }) := by
      rw [hcreate, fsOpen]
      simp only [h.findName_made hname hilt, hfd, Arr.get_set_self _ hilt]
      rfl
    refine ⟨fd, _, hlt, ⟨by rw [hcreate], hopen, by omega, ?_⟩, rfl, rfl, ?_⟩
    · simp only [State.fileOf, State.fd, Int.toNat_natCast, Arr.get_set_self _ hlt]
      rw [h.inv.numbered i hilt, hi]
    · intro k hk
      simp only [Arr.get_set_ne _ hk]
      exact h.closed k

/-- The state before the file is deleted. -/
structure Written (name : CString) (buf : Nat → UInt8) (n i : Nat) (s t : State) : Prop where
  dirTable : t.dirTable = s.dirTable.set i (madeEntry s name i)
  inodesBitmap : t.inodesBitmap = setBit i s.inodesBitmap
  closed : ∀ k, (t.fdTable.get k).isUsed = false
  file : FileAt s.dev.blocksBitmap t.dev (t.inodeTable.get i) buf n

theorem Idle.writes (h : Idle name s) (buf : Nat → UInt8) (hname : ValidName name) (hn : n ≤ 2 ^ 20)
    (hroom : RoomFor s.dev.blocksBitmap n) {i : Nat} (hfull : dirFull s.dirTable = false)
    (hi : findInode s.inodesBitmap = some i) :
    Written name buf n i s (run step s [.create name, .open name,
      .write (openedFd s name) buf n, .close (openedFd s name)]) := by
  have hilt := (findInode_eq_some hi).1
  obtain ⟨fd, t, hlt, hnew, hdir, hbits, hclosed⟩ := h.opens hname hfull hi
  obtain ⟨hstream, hoff⟩ := hnew.streaming h.inv.unused h.inv.zero buf
  obtain ⟨dev, ino, hwrite, -, hfile⟩ := fsWrite_append hstream hoff (by omega) (show n < 2 ^ 63 by omega)
    (show n = min n (2 ^ 20 - 0) by omega) (by rw [Nat.zero_add]; exact hroom)
    (fun k _ => by rw [Nat.zero_add])
  rw [Nat.zero_add] at hfile
  have hof : t.fileOf fd = i := by
    have := hnew.same
    rw [hi, Option.some.injEq] at this
    exact this.symm
  have hused : ∀ off, ((t.fdTable.set fd { t.fd fd with offset := off }).get fd).isUsed = true := by
    intro off
    rw [Arr.get_set_self _ hlt]
    exact hstream.used
  have hrun : run step s [.create name, .open name, .write (openedFd s name) buf n,
      .close (openedFd s name)] = { t with
        dev := dev
        inodeTable := t.inodeTable.set i ino
        fdTable := (t.fdTable.set fd { t.fd fd with offset := ((0 + n : Nat) : Int) }).set fd
          FDesc.closed } := by
    simp only [run, step, openedFd]
    rw [hnew.opened]
    simp only
    rw [hwrite, fsClose, if_neg (by omega), if_neg (by
      simp only [Int.toNat_natCast]
      rw [hused]
      decide), hof]
    simp only [Int.toNat_natCast]
  rw [hrun]
  refine ⟨hdir, hbits, ?_, ?_⟩
  · intro k
    by_cases hk : k = fd
    · simp only [hk, Arr.get_set_self _ hlt]
      rfl
    · simp only [Arr.get_set_ne _ hk]
      exact hclosed k hk
  · simp only [Arr.get_set_self _ hilt]
    exact hfile

end Cycle

end EC440.FileSystems
