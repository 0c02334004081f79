import EC440.FileSystems.Metadata

/-!
# What a write leaves alone

In a state that owns its blocks, a write to one file changes no block of another
(`fsWrite_othersSame`).  And calls on other files do not look at an inode: whatever stands in
its place, they do the same (`step_withInode`).  So a file whose slots name blocks that are no
longer its own can be followed through such calls with an inode that names fewer.
-/

namespace EC440.FileSystems

open EC440.Lib

def OthersSame (s : State) (i : Nat) (disk : Disk) : Prop :=
  ∀ x : Nat × Slot, x.1 ≠ i → s.ref x ≠ 0 → disk.get (s.ref x) = s.dev.disk.get (s.ref x)

variable {s : State} {i : Nat} {dev : Dev} {ino : Inode} {tab : Nat → UInt16}
  {buf : Nat → UInt8} {nbyte cursor : Nat}

theorem Ledger.ref_ne (h : Ledger s i dev ino tab) {x : Nat × Slot} (hx : x.1 ≠ i)
    (h0 : s.ref x ≠ 0) (sl : Slot) : s.ref x ≠ ino.names tab sl := by
  obtain ⟨j, sl'⟩ := x
  have hne := h.owned.ne (x := (j, sl')) (y := (i, sl))
    (by rw [writeRef_other hx]; exact h0) (fun he => hx (Prod.mk.inj he).1)
  rw [writeRef_other hx, writeRef_own] at hne
  exact hne

theorem OthersSame.trans {disk disk' : Disk} (h : OthersSame s i disk)
    (hl : Ledger s i dev ino tab) (sl : Slot)
    (hdisk : ∀ b, b ≠ ino.names tab sl → disk'.get b = disk.get b) : OthersSame s i disk' :=
  fun x hx h0 => (hdisk _ (hl.ref_ne hx h0 sl)).trans (h x hx h0)

/-- The obligations of `fs_write` for the blocks of the other inodes. -/
theorem writeFrame_proof (buf : Nat → UInt8) (hmax : cursor + nbyte ≤ 2 ^ 20) :
    WriteProof buf nbyte cursor
      (fun v => DirectLedger s i cursor nbyte v ∧ OthersSame s i v.dev.disk)
      (fun needed ino v => TableLedger s i cursor nbyte needed ino v ∧ OthersSame s i v.dev.disk)
      (fun v => OthersSame s i v.dev.disk) (fun e => OthersSame s i e.dev.disk) where
  direct v hv hlt hblock := by
    refine ((hv.1.round hlt hblock).and (writeSlot_disk buf nbyte cursor v.bytesWritten _
      v.firstBlock v.dev _)).mono ?_ ?_
    · rintro r ⟨hr, hdisk⟩
      refine ⟨hr, hv.2.trans hr.ledger (.direct v.block) ?_⟩
      rw [Inode.names_setDirect _ _ hblock, Function.update_self]
      exact hdisk
    · rintro r ⟨-, hdisk⟩
      rw [show r.2.1.disk = v.dev.disk from hdisk]
      exact hv.2
  done v hv _ := hv.2
  enter v hv hlt hblock hs hb := ⟨(writeLedger_proof buf hmax).enter v hv.1 hlt hblock hs hb, hv.2⟩
  enterError v hv _ _ := hv.2
  create v hv hlt hblock hs hf := ⟨hv.1.create hmax hlt hblock hs hf, hv.2⟩
  createError v hv _ _ _ _ := hv.2
  table needed ino v hv hidx := by
    have hbound := hv.1.bound
    refine ((hv.1.round hidx).and (writeSlot_disk buf nbyte cursor v.bytesWritten _ v.firstBlock
      v.dev _)).mono ?_ ?_
    · rintro r ⟨hr, hdisk⟩
      refine ⟨hr, hv.2.trans hr.ledger (.entry v.idx) ?_⟩
      rw [Inode.names_entry _ _ (by omega), Function.update_self]
      exact hdisk
    · rintro r ⟨-, hdisk⟩
      rw [show r.2.1.disk = v.dev.disk from hdisk]
      exact hv.2
  leave needed ino v hv _ _ :=
    hv.2.trans hv.1.ledger .table fun _ hb => Arr.get_set_ne _ hb _
  leaveError needed ino v hv _ _ := hv.2

/-- **A write changes no block of another file.** -/
theorem fsWrite_othersSame (h : BlockInv s) (fildes : Int) (buf : Nat → UInt8)
    (hn : nbyte < 2 ^ 63) :
    OthersSame s (s.fileOf fildes) (fsWrite s fildes buf nbyte).2.dev.disk := by
  have hw := (writeFrame_proof (s := s) (i := s.fileOf fildes) buf
    (h.write_max fildes hn)).sound
    ⟨⟨directFacts_start _ _ _ _, h.ledger _, fun _ => rfl, fun hsafe => hsafe.clean, fun _ => rfl⟩,
      fun _ _ _ => rfl⟩
  rcases fsWrite_cases s fildes buf nbyte with
    he | ⟨-, -, -, -, ⟨v, ho, he⟩ | ⟨e, ho, -, he⟩ | ⟨e, ho, -, he⟩⟩
  · rw [he]
    exact fun _ _ _ => rfl
  · rw [he]
    exact hw.of_ok ho
  · rw [he]
    exact hw.of_error ho
  · rw [he]
    exact hw.of_error ho

/-! ### An inode that is not looked at -/

/-- The state with another inode `i`. -/
def State.withInode (s : State) (i : Nat) (ino : Inode) : State :=
  { s with inodeTable := s.inodeTable.set i ino }

theorem fsWrite_withInode {fildes : Int} (hf : s.fileOf fildes ≠ i) (ino : Inode)
    (buf : Nat → UInt8) (nbyte : Nat) :
    fsWrite (s.withInode i ino) fildes buf nbyte
      = ((fsWrite s fildes buf nbyte).1, (fsWrite s fildes buf nbyte).2.withInode i ino) := by
  have hget : (s.inodeTable.set i ino).get (s.fdTable.get fildes.toNat).inodeNumber.toNat
      = s.inodeTable.get (s.fdTable.get fildes.toNat).inodeNumber.toNat := Arr.get_set_ne _ hf _
  have hset : ∀ x, (s.inodeTable.set i ino).set (s.fdTable.get fildes.toNat).inodeNumber.toNat x
      = (s.inodeTable.set (s.fdTable.get fildes.toNat).inodeNumber.toNat x).set i ino :=
    fun x => Arr.set_comm _ (Ne.symm hf) _ _
  rw [fsWrite, fsWrite]
  by_cases hfd : fildes < 0 ∨ fildes > 31
  · rw [if_pos hfd, if_pos hfd]
  · rw [if_neg hfd, if_neg hfd]
    by_cases hu : (s.fdTable.get fildes.toNat).isUsed = false
    · rw [if_pos hu, if_pos (show ((s.withInode i ino).fdTable.get fildes.toNat).isUsed = false
        from hu)]
    · rw [if_neg hu, if_neg (show ¬ ((s.withInode i ino).fdTable.get fildes.toNat).isUsed = false
        from hu)]
      simp only [State.withInode, hget]
      split
      · rfl
      · split
        · simp only [finishWrite, hset]
        · simp only [finishWrite, hset]
        · simp only [hset]

/-- **Calls on other files do not look at inode `i`**, but for its number. -/
theorem step_withInode {c : Call} (hc : OtherFile i s c)
    (hnumber : ino.inodeNumber = (s.inodeTable.get i).inodeNumber) :
    step (s.withInode i ino) c = ((step s c).1, (step s c).2.withInode i ino) := by
  cases c, hc using OtherFile.split with
  | create name =>
    have hget : ∀ j, ((s.inodeTable.set i ino).get j).inodeNumber
        = (s.inodeTable.get j).inodeNumber := by
      intro j
      rw [Arr.get_set]
      split
      · rename_i hj
        rw [hnumber, hj.1]
      · rfl
    show fsCreate _ _ = ((fsCreate _ _).1, (fsCreate _ _).2.withInode i ino)
    simp only [fsCreate, State.withInode, hget]
    split
    · rfl
    · split
      · rfl
      · split <;> rfl
  | «open» name =>
    show fsOpen _ _ = ((fsOpen _ _).1, (fsOpen _ _).2.withInode i ino)
    simp only [fsOpen, State.withInode]
    split
    · rfl
    · split <;> rfl
  | closed fildes buf nbyte hclosed =>
    have hclosed' : ¬ (s.withInode i ino).FdOpen fildes := hclosed
    show fsWrite _ _ _ _ = ((fsWrite _ _ _ _).1, (fsWrite _ _ _ _).2.withInode i ino)
    rw [fsWrite_closed hclosed, fsWrite_closed hclosed']
  | write fildes buf nbyte _ hc => exact fsWrite_withInode hc ino buf nbyte

end EC440.FileSystems
