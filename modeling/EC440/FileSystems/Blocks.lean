import EC440.FileSystems.Descriptors
import EC440.FileSystems.Ledger

/-!
# Ownership in every run

`BlockInv` is block ownership together with what a write needs to keep it: descriptors
and sizes are at most `2 ^ 20`, no table has an entry past the largest size of a file,
and an open descriptor is one of a file in use.

The last point is where the program falls short.  `fs_open` looks a name up in the
unused entries as well, so the empty name opens inode `0` whether or not it is in use,
and a write through that descriptor gives blocks to an unused inode.  `ownership_kept`
is block ownership for the runs in which this does not happen.
-/

namespace EC440.FileSystems

open EC440.Lib

/-- Ownership, and the bounds a write relies on. -/
structure BlockInv (s : State) : Prop where
  dir : DirInv s
  oi : OI s
  file : ∀ k, (s.fdTable.get k).inodeNumber.toNat < 64
  offset : ∀ k, 0 ≤ (s.fdTable.get k).offset ∧ (s.fdTable.get k).offset ≤ 2 ^ 20
  inUse : ∀ k, (s.fdTable.get k).isUsed = true →
    getBit (s.fdTable.get k).inodeNumber.toNat s.inodesBitmap = true
  size : ∀ i, (s.inodeTable.get i).fileSize.toNat ≤ 2 ^ 20
  high : ∀ i k, 231 ≤ k → tableOf s.dev.disk (s.inodeTable.get i) k = 0

variable {s s' : State}

theorem OI.same (h : OI s) (hdev : s'.dev = s.dev)
    (hdirect : ∀ i, (s'.inodeTable.get i).directBlock = (s.inodeTable.get i).directBlock)
    (hsingle : ∀ i, (s'.inodeTable.get i).singleIndirectBlock
      = (s.inodeTable.get i).singleIndirectBlock)
    (hbit : ∀ i, getBit i s'.inodesBitmap = false → getBit i s.inodesBitmap = false) : OI s' := by
  have href : s'.ref = s.ref := by
    funext x
    rw [State.ref, State.ref, hdev, tableOf_congr _ (hsingle _),
      Inode.names_congr _ (hdirect _) (hsingle _)]
  refine ⟨by rw [hdev]; exact h.reserved, by rw [href, hdev]; exact h.owned, ?_⟩
  intro i hi hb
  rw [hdirect, hsingle]
  exact h.unused i hi (hbit i hb)

theorem BlockInv.setFd (h : BlockInv s) (hdir : DirInv s') {k : Nat} {fd : FDesc}
    (hfd : s'.fdTable = s.fdTable.set k fd) (hdev : s'.dev = s.dev)
    (hino : s'.inodeTable = s.inodeTable) (hbits : s'.inodesBitmap = s.inodesBitmap)
    (hfile : fd.inodeNumber.toNat < 64) (hoff : 0 ≤ fd.offset ∧ fd.offset ≤ 2 ^ 20)
    (hused : fd.isUsed = true → getBit fd.inodeNumber.toNat s.inodesBitmap = true) :
    BlockInv s' := by
  have hoi : OI s' := h.oi.same hdev (fun _ => by rw [hino]) (fun _ => by rw [hino])
    (by rw [hbits]; exact fun _ hi => hi)
  refine ⟨hdir, hoi, ?_, ?_, ?_, by rw [hino]; exact h.size, by rw [hino, hdev]; exact h.high⟩
  · intro j
    rw [hfd, Arr.get_set]
    split
    · exact hfile
    · exact h.file j
  · intro j
    rw [hfd, Arr.get_set]
    split
    · exact hoff
    · exact h.offset j
  · intro j
    rw [hfd, hbits, Arr.get_set]
    split
    · exact hused
    · exact h.inUse j

/-! ### The calls that leave the blocks alone -/

theorem BlockInv.open (h : BlockInv s) {name : CString}
    (hname : name.val ≠ [] ∨ getBit 0 s.inodesBitmap = true) : BlockInv (fsOpen s name).2 := by
  have hdir : DirInv (fsOpen s name).2 :=
    h.dir.same (step_sameDir s (.open name) (fun _ he => by cases he) (fun _ he => by cases he))
  rcases fsOpen_cases s name with he | ⟨i, fd, hf, -, he⟩
  · rw [he]
    exact h
  · obtain ⟨hi, hn, -⟩ := findName_eq_some.mp hf
    rw [he] at hdir ⊢
    have hzero : (0 : Int) ≤ 0 ∧ (0 : Int) ≤ 2 ^ 20 := by decide
    refine h.setFd hdir rfl rfl rfl rfl (h.dir.entry_lt hi) hzero ?_
    intro _
    show getBit (s.dirTable.get i).inodeNumber.toNat s.inodesBitmap = true
    by_cases hu : (s.dirTable.get i).isUsed = 0
    · -- an unused entry has the empty name and the number of inode `0`
      obtain ⟨hzero, hempty⟩ := h.dir.unused i hi hu
      rw [hzero]
      exact hname.resolve_left fun hne => hne (hn.symm.trans hempty)
    · rw [(h.dir.used i hi hu).1]
      exact (h.dir.bit i hi).mp hu

theorem BlockInv.close (h : BlockInv s) (fildes : Int) : BlockInv (fsClose s fildes).2 := by
  have hdir : DirInv (fsClose s fildes).2 :=
    h.dir.same (step_sameDir s (.close fildes) (fun _ he => by cases he) (fun _ he => by cases he))
  rcases fsClose_cases s fildes with he | ⟨-, -, -, he⟩
  · rw [he]
    exact h
  · rw [he] at hdir ⊢
    exact h.setFd hdir rfl rfl rfl rfl (by decide) ⟨le_refl _, by decide⟩ (fun hu => by cases hu)

theorem BlockInv.lseek (h : BlockInv s) (fildes offset : Int) :
    BlockInv (fsLseek s fildes offset).2 := by
  have hdir : DirInv (fsLseek s fildes offset).2 :=
    h.dir.same (step_sameDir s (.lseek fildes offset) (fun _ he => by cases he)
      (fun _ he => by cases he))
  rcases fsLseek_cases s fildes offset with he | ⟨-, -, h0, hle, he⟩
  · rw [he]
    exact h
  · have hsize : (s.inodeOf fildes).fileSize.toNat ≤ 2 ^ 20 := h.size _
    have hoff : toInt32 offset = offset := toInt32_of_small h0 (by omega)
    rw [he] at hdir ⊢
    refine h.setFd hdir rfl rfl rfl rfl (h.file _) ?_ (h.inUse _)
    show 0 ≤ toInt32 offset ∧ toInt32 offset ≤ _
    rw [hoff]
    exact ⟨h0, by omega⟩

theorem BlockInv.read (h : BlockInv s) (fildes : Int) (buf : Nat → UInt8) (nbyte : Nat) :
    BlockInv (fsRead s fildes buf nbyte).2.2 := by
  have hdir : DirInv (fsRead s fildes buf nbyte).2.2 :=
    h.dir.same (step_sameDir s (.read fildes buf nbyte) (fun _ he => by cases he)
      (fun _ he => by cases he))
  rcases fsRead_cases s fildes buf nbyte with ⟨-, he⟩ | ⟨-, -, -, v, hv, he⟩
  · rw [he]
    exact h
  · have hoff : 0 ≤ (s.fd fildes).offset ∧ (s.fd fildes).offset ≤ 2 ^ 20 := h.offset _
    have hfacts := (readBlocks_facts s.dev (s.inodeOf fildes) (min nbyte (2 ^ 20))
      (s.fd fildes).offset.toNat (s.inodeOf fildes).fileSize.toNat buf).of_ok hv
    have hbound := hfacts.bound (by omega) (h.high _)
    have hcur : toInt32 ((s.fd fildes).offset + v.bytesRead) = (s.fd fildes).offset + v.bytesRead :=
      toInt32_of_small (by omega) (by omega)
    rw [he] at hdir ⊢
    refine h.setFd hdir rfl rfl rfl rfl (h.file _) ?_ (h.inUse _)
    show 0 ≤ toInt32 ((s.fd fildes).offset + v.bytesRead) ∧
      toInt32 ((s.fd fildes).offset + v.bytesRead) ≤ 2 ^ 20
    rw [hcur]
    omega

theorem BlockInv.create (h : BlockInv s) {name : CString} (hname : ValidName name) :
    BlockInv (fsCreate s name).2 := by
  have hdir := h.dir.create hname
  rcases fsCreate_cases s hname.2 with ⟨he, -⟩ | ⟨-, -, -, he⟩ | ⟨i, -, -, -, he⟩
  · rw [he]
    exact h
  · rw [he]
    exact h
  · have hset : ∀ j, getBit j s.inodesBitmap = true → getBit j (setBit i s.inodesBitmap) = true := by
      intro j hj
      rw [getBit_setBit, hj, Bool.or_true]
    rw [he] at hdir ⊢
    refine ⟨hdir, h.oi.same rfl (fun _ => rfl) (fun _ => rfl) ?_, h.file, h.offset,
      fun k hk => hset _ (h.inUse k hk), h.size, h.high⟩
    intro j hj
    refine Bool.eq_false_iff.mpr ?_
    intro hb
    rw [show getBit j (setBit i s.inodesBitmap) = true from hset j hb] at hj
    cases hj

/-! ### `fs_delete` -/

/-- The blocks `fs_delete` leaves marked: those no direct slot and no entry names. -/
theorem getBit_deletedBitmap (dev : Dev) (ino : Inode) (b : Nat) :
    getBit b (deletedBitmap dev ino) = true ↔ getBit b dev.blocksBitmap = true ∧
      (∀ j, j < 25 → ino.directBlock.get j ≠ 0 → (ino.directBlock.get j).toNat ≠ b) ∧
      (ino.singleIndirectBlock.toNat < 8192 → ∀ k, k < 2048 → tableOf dev.disk ino k ≠ 0 →
        (tableOf dev.disk ino k).toNat ≠ b) := by
  rw [deletedBitmap]
  by_cases hs : ino.singleIndirectBlock = 0
  · have hzero : ∀ k, tableOf dev.disk ino k = 0 := fun k => by rw [tableOf, if_pos hs]
    rw [if_neg (fun h => h.1 hs), getBit_clearBlocks]
    refine and_congr_right fun _ => ⟨fun h => ⟨h, fun _ k _ hk => absurd (hzero k) hk⟩, fun h => h.1⟩
  · have htab : ∀ k, tableOf dev.disk ino k
        = get16 (dev.disk.get ino.singleIndirectBlock.toNat) k := fun k => by rw [tableOf, if_neg hs]
    simp only [htab]
    by_cases hlt : ino.singleIndirectBlock.toNat < 8192
    · rw [if_pos ⟨hs, hlt⟩, getBit_clearBlocks, getBit_clearBlocks, and_assoc]
      exact and_congr_right fun _ => and_congr_right fun _ => ⟨fun h _ => h, fun h => h hlt⟩
    · rw [if_neg (fun h => hlt h.2), getBit_clearBlocks]
      exact and_congr_right fun _ => ⟨fun h => ⟨h, fun hc => absurd hc hlt⟩, fun h => h.1⟩

theorem getBit_deletedBitmap_of_ne {i b : Nat} (hb : getBit b s.dev.blocksBitmap = true)
    (hne : ∀ sl, s.ref (i, sl) ≠ 0 → s.ref (i, sl) ≠ b) :
    getBit b (deletedBitmap s.dev (s.inodeTable.get i)) = true := by
  refine (getBit_deletedBitmap _ _ _).mpr ⟨hb, ?_, ?_⟩
  · intro j _ hj
    exact hne (.direct j) fun he => hj (UInt16.toNat_inj.mp he)
  · intro _ k _ hk
    exact hne (.entry k) fun he => hk (UInt16.toNat_inj.mp he)

theorem OI.delete (h : OI s) {i : Nat} (hi : i < 64) (hdisk : s'.dev.disk = s.dev.disk)
    (hbitmap : s'.dev.blocksBitmap = deletedBitmap s.dev (s.inodeTable.get i))
    (hino : s'.inodeTable = s.inodeTable.set i (s.inodeTable.get i).cleared)
    (hbits : s'.inodesBitmap = clearBit i s.inodesBitmap) : OI s' := by
  have hself : ∀ sl, s'.ref (i, sl) = 0 := by
    intro sl
    show (s'.inodeTable.get i).names (tableOf s'.dev.disk (s'.inodeTable.get i)) sl = 0
    rw [hino, Arr.get_set_self _ hi]
    cases sl with
    | direct j =>
      show ((Arr.fill 0 : Arr 25 UInt16).get j).toNat = 0
      rw [show (Arr.fill 0 : Arr 25 UInt16).get j = 0 from Arr.get_fill_default j]
      rfl
    | table => rfl
    | entry k => rfl
  have hother : ∀ j sl, j ≠ i → s'.ref (j, sl) = s.ref (j, sl) := by
    intro j sl hj
    show (s'.inodeTable.get j).names (tableOf s'.dev.disk (s'.inodeTable.get j)) sl = _
    rw [hino, Arr.get_set_ne _ hj, hdisk]
    rfl
  have hne : ∀ x, s'.ref x ≠ 0 → x.1 ≠ i := by
    rintro ⟨j, sl⟩ hx rfl
    exact hx (hself sl)
  refine ⟨?_, h.owned.drop (fun x hx => hother x.1 x.2 (hne x hx)) ?_, ?_⟩
  · intro b hb
    -- no inode names one of the first five blocks
    rw [hbitmap]
    refine getBit_deletedBitmap_of_ne (h.reserved b hb) ?_
    intro sl hsl he
    have := (h.owned.used_of_ne (i, sl) hsl).1
    omega
  · intro x hx
    have hxi := hne x hx
    rw [hother x.1 x.2 hxi] at hx
    obtain ⟨h5, hlt, hbit⟩ := h.owned.used_of_ne x hx
    refine ⟨h5, hlt, ?_⟩
    rw [hbitmap]
    exact getBit_deletedBitmap_of_ne hbit fun sl hsl =>
      h.owned.ne hsl (fun he => hxi (by rw [← he]))
  · intro j hj hclear
    by_cases hji : j = i
    · subst hji
      refine ⟨?_, ?_⟩
      · intro k
        exact UInt16.toNat_inj.mp (hself (.direct k))
      · exact UInt16.toNat_inj.mp (hself .table)
    · rw [hbits, getBit_clearBit, decide_eq_false hji, Bool.not_false, Bool.true_and] at hclear
      rw [hino, Arr.get_set_ne _ hji]
      exact h.unused j hj hclear

theorem tableOf_cleared (disk : Disk) (ino : Inode) (k : Nat) : tableOf disk ino.cleared k = 0 :=
  if_pos rfl

theorem BlockInv.delete (h : BlockInv s) {name : CString} (hname : ValidName name) :
    BlockInv (fsDelete s name).2 := by
  have hdir := h.dir.delete hname
  rcases fsDelete_cases s name with ⟨-, he⟩ | ⟨d, -, ho, hlt, he⟩
  · rw [he]
    exact h
  · rw [he] at hdir ⊢
    refine ⟨hdir, h.oi.delete hlt rfl rfl rfl rfl, h.file, h.offset, ?_, ?_, ?_⟩
    · intro k hk
      have hk' : (s.fdTable.get k).isUsed = true := hk
      rw [anyOpen_eq_false.mp ho k] at hk'
      cases hk'
    · intro j
      show ((s.inodeTable.set _ (s.inodeTable.get _).cleared).get j).fileSize.toNat ≤ 2 ^ 20
      rw [Arr.get_set]
      split
      · exact Nat.zero_le _
      · exact h.size j
    · intro j k hk
      show tableOf s.dev.disk ((s.inodeTable.set _ (s.inodeTable.get _).cleared).get j) k = 0
      rw [Arr.get_set]
      split
      · exact tableOf_cleared _ _ _
      · exact h.high j k hk

/-! ### `fs_write` -/

theorem BlockInv.ledger (h : BlockInv s) (i : Nat) :
    Ledger s i s.dev (s.inodeTable.get i) (tableOf s.dev.disk (s.inodeTable.get i)) :=
  ⟨h.oi.reserved, by rw [writeRef_self]; exact h.oi.owned, fun _ _ _ => rfl, h.high i⟩

theorem Ledger.tableOf_other {i j : Nat} {dev : Dev} {ino : Inode} {tab : Nat → UInt16}
    (h : Ledger s i dev ino tab) (hj : j ≠ i) :
    tableOf dev.disk (s.inodeTable.get j) = tableOf s.dev.disk (s.inodeTable.get j) := by
  funext k
  by_cases hs : (s.inodeTable.get j).singleIndirectBlock = 0
  · rw [tableOf, tableOf, if_pos hs, if_pos hs]
  · rw [tableOf, tableOf, if_neg hs, if_neg hs, h.tables j hj hs]

/-- A ledger at the end of a write is ownership. -/
theorem Ledger.oi {i : Nat} {dev : Dev} {ino ino' : Inode}
    (h : Ledger s i dev ino (tableOf dev.disk ino)) (hoi : OI s) (hi : i < 64)
    (hused : getBit i s.inodesBitmap = true) (hdev : s'.dev = dev)
    (hino : s'.inodeTable = s.inodeTable.set i ino') (hd : ino'.directBlock = ino.directBlock)
    (hs : ino'.singleIndirectBlock = ino.singleIndirectBlock)
    (hbits : s'.inodesBitmap = s.inodesBitmap) : OI s' := by
  have href : s'.ref = writeRef s i ino (tableOf dev.disk ino) := by
    funext ⟨j, sl⟩
    show (s'.inodeTable.get j).names (tableOf s'.dev.disk (s'.inodeTable.get j)) sl = _
    rw [hino, hdev]
    by_cases hj : j = i
    · subst hj
      rw [Arr.get_set_self _ hi, writeRef_own, tableOf_congr _ hs, Inode.names_congr _ hd hs]
    · rw [Arr.get_set_ne _ hj, writeRef_other hj, h.tableOf_other hj]
      rfl
  refine ⟨by rw [hdev]; exact h.reserved, by rw [href, hdev]; exact h.owned, ?_⟩
  intro j hj hb
  rw [hbits] at hb
  have hji : j ≠ i := by
    rintro rfl
    rw [hused] at hb
    cases hb
  rw [hino, Arr.get_set_ne _ hji]
  exact hoi.unused j hj hb

/-- The end of a write keeps `BlockInv` when the ledger is kept. -/
theorem BlockInv.finishWrite (h : BlockInv s) {fildes : Int} (hu : (s.fd fildes).isUsed = true)
    {nbyte n : Nat} {dev : Dev} {ino : Inode}
    (hmax : (s.fd fildes).offset.toNat + nbyte ≤ 2 ^ 20)
    (hw : Wrote (s.fd fildes).offset.toNat nbyte s.dev (s.inodeOf fildes) dev ino n)
    (hl : Ledger s (s.fileOf fildes) dev ino (tableOf dev.disk ino))
    (hdir : DirInv (finishWrite s fildes.toNat dev ino n).2) :
    BlockInv (finishWrite s fildes.toNat dev ino n).2 := by
  have hoff : 0 ≤ (s.fd fildes).offset ∧ (s.fd fildes).offset ≤ 2 ^ 20 := h.offset _
  have hsize : (s.inodeOf fildes).fileSize.toNat ≤ 2 ^ 20 := h.size _
  have hn := hw.le
  obtain ⟨size, hsz, he⟩ := finishWrite_eq s fildes dev ino (n := n) hoff.1 (by omega)
  rw [hw.kept.size] at hsz
  rw [he] at hdir ⊢
  refine ⟨hdir, hl.oi h.oi (h.file _) (h.inUse _ hu) rfl rfl rfl rfl rfl, ?_, ?_, ?_, ?_, ?_⟩
  · intro k
    show ((s.fdTable.set fildes.toNat _).get k).inodeNumber.toNat < 64
    rw [Arr.get_set]
    split
    · exact h.file _
    · exact h.file k
  · intro k
    show 0 ≤ ((s.fdTable.set fildes.toNat _).get k).offset ∧
      ((s.fdTable.set fildes.toNat _).get k).offset ≤ 2 ^ 20
    rw [Arr.get_set]
    split
    · show 0 ≤ (s.fd fildes).offset + n ∧ (s.fd fildes).offset + n ≤ 2 ^ 20
      omega
    · exact h.offset k
  · intro k hk
    simp only at hk ⊢
    rw [Arr.get_set] at hk ⊢
    split
    · exact h.inUse _ hu
    · rename_i hkf
      rw [if_neg hkf] at hk
      exact h.inUse k hk
  · intro j
    show ((s.inodeTable.set _ _).get j).fileSize.toNat ≤ 2 ^ 20
    rw [Arr.get_set]
    split
    · show size.toNat ≤ 2 ^ 20
      omega
    · exact h.size j
  · intro j k hk
    show tableOf dev.disk ((s.inodeTable.set _ _).get j) k = 0
    by_cases hj : j = s.fileOf fildes
    · rw [hj, Arr.get_set_self _ (h.file _)]
      exact hl.high k hk
    · rw [Arr.get_set_ne _ hj, hl.tableOf_other hj]
      exact h.high j k hk

theorem BlockInv.write_max (h : BlockInv s) (fildes : Int) {nbyte : Nat} (hn : nbyte < 2 ^ 63) :
    (s.fd fildes).offset.toNat + writeRequest (s.fd fildes).offset nbyte ≤ 2 ^ 20 := by
  have hoff : 0 ≤ (s.fd fildes).offset ∧ (s.fd fildes).offset ≤ 2 ^ 20 := h.offset _
  have hreq := writeRequest_eq nbyte hoff.1 hoff.2 (by omega)
  omega

/-- A write keeps `BlockInv` if it finds the blocks it asks for, and one that loses no table does
in any case. -/
theorem BlockInv.write (h : BlockInv s) {fildes : Int} {nbyte : Nat} (buf : Nat → UInt8)
    (hn : nbyte < 2 ^ 63)
    (hok : (s.fd fildes).isUsed = true →
      Event.found 0 ∉ (fsWrite s fildes buf nbyte).2.dev.trace ∨
      WriteRoom s (s.fileOf fildes) (s.fd fildes).offset.toNat
        (writeRequest (s.fd fildes).offset nbyte)) :
    BlockInv (fsWrite s fildes buf nbyte).2 := by
  have hmax := h.write_max fildes hn
  have hdir := h.dir.same (fsWrite_sameDir s fildes buf nbyte)
  have hw := writeBlocks_wrote buf (writeRequest (s.fd fildes).offset nbyte)
    (s.fd fildes).offset.toNat s.dev (s.inodeOf fildes)
  have hl := writeBlocks_ledger buf hmax (h.ledger (s.fileOf fildes))
  rcases fsWrite_cases s fildes buf nbyte with
    he | ⟨-, -, hu, -, ⟨v, ho, he⟩ | ⟨e, ho, -, he⟩ | ⟨e, ho, hwhy, he⟩⟩
  · rw [he]
    exact h
  · rw [he] at hdir ⊢
    exact h.finishWrite hu hmax (hw.of_ok ho) (hl.of_ok ho).1 hdir
  · obtain ⟨-, hfound, hroom, -⟩ := hl.of_error ho
    rw [he] at hdir hok ⊢
    rcases hok hu with hno | hok'
    · exact absurd hfound hno
    · exact h.finishWrite hu hmax (hw.of_error ho) (hroom hok') hdir
  · have := (hl.of_error ho).1
    rw [hwhy] at this
    cases this

/-! ### Runs without truncates -/

theorem reserved_fresh (disk : Disk) :
    Reserved (mounted disk (emptyTables (Arr.fill 0))).dev.blocksBitmap := by
  intro b hb
  show getBit b (setBits 5 (Arr.fill 0)) = true
  rw [getBit_setBits 5 b (by omega), decide_eq_true hb, Bool.true_or]

theorem Inode.empty_names (n : UInt16) (disk : Disk) (sl : Slot) :
    (Inode.empty n).names (tableOf disk (Inode.empty n)) sl = 0 := by
  cases sl with
  | direct j =>
    show ((Arr.fill 0 : Arr 25 UInt16).get j).toNat = 0
    rw [show (Arr.fill 0 : Arr 25 UInt16).get j = 0 from Arr.get_fill_default j]
    rfl
  | table => rfl
  | entry k => rfl

theorem blockInv_fresh (blank : Disk) : BlockInv (fresh blank) := by
  have hdesc := descInv_fresh blank
  obtain ⟨disk, he⟩ := fresh_eq blank
  rw [he] at hdesc ⊢
  have href : (mounted disk (emptyTables (Arr.fill 0))).ref = fun _ => 0 := by
    funext ⟨i, sl⟩
    obtain ⟨n, hn⟩ := get_freshInode disk (Arr.fill 0) i
    rw [State.ref, hn]
    exact Inode.empty_names n _ sl
  refine ⟨hdesc.dir, ⟨reserved_fresh disk, by rw [href]; exact owned_zero, ?_⟩,
    hdesc.file, ?_, ?_, hdesc.size, ?_⟩
  · intro i _ _
    obtain ⟨n, hn⟩ := get_freshInode disk (Arr.fill 0) i
    rw [hn]
    exact ⟨fun j => Arr.get_fill_default j, rfl⟩
  · intro k
    rw [get_freshFd]
    decide
  · intro k hk
    rw [get_freshFd] at hk
    cases hk
  · intro i k _
    obtain ⟨n, hn⟩ := get_freshInode disk (Arr.fill 0) i
    rw [hn]
    rfl

/-- The calls of a run without truncates in which `find_free_bit` always finds a block. -/
def OwnershipCall (s : State) : Call → Prop
  | .write fildes buf nbyte =>
      nbyte ≤ 2 ^ 20 ∧ Event.found 0 ∉ (fsWrite s fildes buf nbyte).2.dev.trace
  | .truncate _ _ => False
  | c => NamesValid c

/-- An `fs_open` opens a file: the name is not empty, or inode `0`, which the empty name
stands for, is in use. -/
def OpensFile (s : State) : Call → Prop
  | .open name => name.val ≠ [] ∨ getBit 0 s.inodesBitmap = true
  | _ => True

theorem BlockInv.step (h : BlockInv s) {c : Call} (hc : OwnershipCall s c)
    (ho : OpensFile s c) : BlockInv (step s c).2 := by
  cases c with
  | «open» name => exact h.open ho
  | close fildes => exact h.close fildes
  | create name => exact h.create hc
  | delete name => exact h.delete hc
  | read fildes buf nbyte => exact h.read fildes buf nbyte
  | write fildes buf nbyte =>
    exact h.write buf (lt_of_le_of_lt hc.1 (by decide)) (fun _ => Or.inl hc.2)
  | getFilesize fildes => exact h
  | listfiles => exact h
  | lseek fildes offset => exact h.lseek fildes offset
  | truncate fildes length => exact hc.elim

theorem run_blockInv (blank : Disk) {cs : List Call}
    (hcs : RunOk step (fun s c => OwnershipCall s c ∧ OpensFile s c) (fresh blank) cs) :
    BlockInv (run step (fresh blank) cs) :=
  run_invariant (I := BlockInv) (fun _ _ hs hc => hs.step hc.1 hc.2) cs _ (blockInv_fresh blank) hcs

/-- **Block ownership holds in every run** without truncates and without a full disk, as
long as the empty name is opened only while inode `0` is in use. -/
theorem ownership_kept (blank : Disk) (cs : List Call)
    (hcs : RunOk step (fun s c => OwnershipCall s c ∧ OpensFile s c) (fresh blank) cs) :
    OI (run step (fresh blank) cs) := (run_blockInv blank hcs).oi

def writeAndDelete : List Call :=
  [.create nameA, .open nameA, .write 0 (fun _ => 7) 1, .close 0, .delete nameA]

theorem ownership_kept_writeAndDelete : OI (run step (fresh zeroDisk) writeAndDelete) := by
  refine ownership_kept zeroDisk writeAndDelete ⟨⟨⟨by decide, by decide⟩, trivial⟩,
    ⟨trivial, Or.inl (by decide)⟩, ⟨⟨by decide, ?_⟩, trivial⟩, ⟨trivial, trivial⟩,
    ⟨⟨by decide, by decide⟩, trivial⟩, trivial⟩
  decide +kernel

def emptyName : CString := ⟨[], by simp⟩

/-- The empty name is opened and a byte is written. -/
def writeEmpty : List Call := [.open emptyName, .write 0 (fun _ => 7) 1]

/-- Inode `0` is not in use, and has a block. -/
theorem ownership_broken :
    RunOk step OwnershipCall (fresh zeroDisk) writeEmpty ∧
      ¬ OI (run step (fresh zeroDisk) writeEmpty) := by
  refine ⟨⟨trivial, ⟨by decide, by decide +kernel⟩, trivial⟩, ?_⟩
  intro h
  have h0 := (h.unused 0 (by decide) (by decide +kernel)).1 0
  exact absurd h0 (by decide +kernel)

end EC440.FileSystems
