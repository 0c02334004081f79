import EC440.FileSystems.Append
import EC440.FileSystems.Descriptors

/-!
# Offsets behind the direct blocks

Block `b` of a file, for `b ≥ 25`, is entry `b - 25` of the table.  A call that starts in block `b`
enters the table at entry `b` instead, and leaves it at the number of blocks it needs.  So it goes
through at least 25 entries too few, and never comes to the end of what it was asked for:
`writeBlocks_behind` for `fs_write`, `readBlocks_behind` for `fs_read`.
-/

namespace EC440.FileSystems

open EC440.Lib

variable {s : State} {fildes : Int} {dev : Dev} {ino : Inode} {buf : Nat → UInt8}
  {nbyte cursor size : Nat}

theorem blocksNeeded_lt (rem : Nat) (hrem : 0 < rem) : 4096 * (blocksNeeded rem - 25) < rem := by
  have hle := blocksNeeded_le (show rem ≤ 4096 * (rem / 4096 + 1) by omega)
  omega

/-! ### Writing -/

theorem tableData_le (buf : Nat → UInt8) (nbyte needed idx pos : Nat) :
    (tableData buf nbyte needed idx pos).2 ≤ pos + 4096 := by
  rw [tableData]
  split
  · simp only
    omega
  · exact le_refl _

theorem writeSlot_le {needed idx pos : Nat} {firstBlock : Bool} {slot : UInt16} :
    Ensures (writeSlot buf nbyte cursor pos (tableData buf nbyte needed idx pos) firstBlock dev slot)
      (fun r => r.2.2 ≤ pos + 4096) (fun _ => True) := by
  refine (writeSlot_grows buf nbyte cursor pos _ firstBlock dev slot).mono ?_ (fun _ _ => trivial)
  rintro ⟨dev', slot', written⟩ ⟨-, -, ⟨-, -, -, hw⟩ | ⟨-, -, hw⟩⟩
  · have := (firstWriteSize_le nbyte cursor).2.1
    simp only at hw ⊢
    omega
  · have := tableData_le buf nbyte needed idx pos
    simp only at hw ⊢
    omega

/-- **A write behind the direct blocks of a file with a table** is never done in full. -/
theorem writeBlocks_behind (buf : Nat → UInt8) (dev : Dev) (hcur : 102400 ≤ cursor) (hn : 0 < nbyte)
    (hs : ino.singleIndirectBlock ≠ 0) :
    Ensures (writeBlocks buf nbyte cursor dev ino) (fun v => v.bytesWritten < nbyte)
      (fun e => e.bytesWritten < nbyte) := by
  have hlast := blocksNeeded_lt nbyte hn
  have hproof : WriteProof buf nbyte cursor
      (fun v => v.bytesWritten = 0 ∧ 25 ≤ v.block ∧ v.ino.singleIndirectBlock ≠ 0)
      (fun needed _ v => needed = blocksNeeded nbyte ∧ 25 ≤ v.idx ∧
        v.bytesWritten ≤ 4096 * (v.idx - 25) ∧ v.bytesWritten ≤ 4096 * (needed - 25))
      (fun v => v.bytesWritten < nbyte) (fun e => e.bytesWritten < nbyte) :=
    { direct := fun v hv _ hblock => by omega
      done := fun v hv hdone => by omega
      enter := fun v hv _ _ _ _ => by
        rw [hv.1, Nat.sub_zero]
        exact ⟨rfl, by simp only; omega, Nat.zero_le _, Nat.zero_le _⟩
      enterError := fun v hv hlt _ => hlt
      create := fun v hv _ _ h0 _ => absurd h0 hv.2.2
      createError := fun v hv hlt _ _ _ => hlt
      table := fun needed ino' v hv hidx => by
        refine writeSlot_le.mono ?_ (fun _ _ => by simp only; omega)
        intro r hr
        refine ⟨hv.1, by simp only; omega, ?_, ?_⟩ <;> simp only <;> omega
      leave := fun needed ino' v hv _ _ => by simp only; omega
      leaveError := fun needed ino' v hv _ _ => by simp only; omega }
  exact hproof.sound ⟨rfl, by simp only; omega, hs⟩

/-! ### Reading -/

theorem readDirect_behind (dev : Dev) (ino : Inode) (nbyte size : Nat) (buf : Nat → UInt8)
    (hcur : 102400 ≤ cursor) :
    readDirect dev ino nbyte cursor size ⟨buf, 0, cursor / 4096, true⟩
      = .ok ⟨buf, 0, cursor / 4096, true⟩ := by
  rw [readDirect]
  refine loop_of_false ?_ _
  rw [decide_eq_false_iff_not]
  dsimp only
  omega

/-- **A read behind the direct blocks** is never done in full. -/
theorem readBlocks_behind (dev : Dev) (ino : Inode) (size : Nat) (buf : Nat → UInt8)
    (hcur : 102400 ≤ cursor) (hn : 0 < nbyte) :
    Ensures (readBlocks dev ino nbyte cursor size buf) (fun v => v.bytesRead < nbyte)
      (fun _ => True) := by
  rw [readBlocks, readDirect_behind dev ino nbyte size buf hcur]
  simp only [readIndirect]
  by_cases hcond : nbyte - 0 > 0 ∧ ino.singleIndirectBlock ≠ 0 ∧ size > 0 + cursor
  · rw [if_pos hcond]
    by_cases hb : ino.singleIndirectBlock.toNat < 8192
    · simp only [blockRead_of_lt dev hb, Nat.sub_zero, if_neg (show ¬ cursor / 4096 < 25 by omega)]
      have hstart : ReadTableFacts (dev.disk.get ino.singleIndirectBlock.toNat) nbyte cursor size
          (cursor / 4096) 0 true ⟨buf, 0, cursor / 4096, true⟩ := by
        refine ⟨Nat.zero_le _, fun _ => rfl, le_refl _, Nat.zero_le _, fun _ _ => rfl, ?_,
          fun k hk hlt => absurd hlt (by simp only; omega)⟩
        intro _ hpos
        rw [mappedCount_self] at hpos
        exact absurd hpos (by decide)
      refine (readTable_facts dev hstart (blocksNeeded nbyte) rfl).mono ?_ (fun _ _ => trivial)
      rintro w ⟨hwi, hw⟩
      have hbound := hw.bound
      have hcount := mappedCount_le_sub (dev.disk.get ino.singleIndirectBlock.toNat) (cursor / 4096) w.i
      have hlast := blocksNeeded_lt nbyte hn
      omega
    · simp only [blockRead_of_ge dev (show 8192 ≤ ino.singleIndirectBlock.toNat by omega)]
      trivial
  · rw [if_neg hcond]
    exact hn

/-! ### The calls -/

theorem fsWrite_nil (buf : Nat → UInt8) (hrange : 0 ≤ fildes ∧ fildes ≤ 31)
    (hu : (s.fd fildes).isUsed = true) (hfile : s.fileOf fildes < 64)
    (h0 : 0 ≤ (s.fd fildes).offset)
    (hoff : (s.fd fildes).offset ≤ (s.inodeOf fildes).fileSize.toNat)
    (hmax : (s.inodeOf fildes).fileSize.toNat ≤ 2 ^ 20) :
    (fsWrite s fildes buf 0).1 = 0 ∧
      ((fsWrite s fildes buf 0).2.inodeOf fildes).fileSize = (s.inodeOf fildes).fileSize := by
  have hreq : writeRequest (s.fd fildes).offset 0 = 0 := by
    rw [writeRequest_eq 0 h0 (by omega) (by omega)]
    omega
  have hblocks : writeBlocks buf 0 (s.fd fildes).offset.toNat s.dev (s.inodeOf fildes)
      = .ok ⟨s.dev, s.inodeOf fildes, 0, (s.fd fildes).offset.toNat / 4096, true⟩ := by
    rw [writeBlocks, writeDirect, loop, if_neg (by simp)]
    rfl
  obtain ⟨size, hsz, hfin⟩ := finishWrite_eq s fildes s.dev (s.inodeOf fildes) (n := 0) h0 (by omega)
  have hsize : size = (s.inodeOf fildes).fileSize := UInt32.toNat_inj.mp (by omega)
  have hwrite : fsWrite s fildes buf 0 = finishWrite s fildes.toNat s.dev (s.inodeOf fildes) 0 := by
    rw [fsWrite, if_neg (by omega), if_neg (by rw [hu]; decide)]
    simp only [if_neg (show ¬ (s.fdTable.get fildes.toNat).inodeNumber.toNat > 63 from
      Nat.not_lt.mpr (Nat.le_of_lt_succ hfile)), hreq, hblocks]
  rw [hwrite, hfin]
  refine ⟨rfl, ?_⟩
  simp only [State.inodeOf, State.fileOf, State.fd, Arr.get_set_self s.fdTable (show fildes.toNat < 32 by omega)]
  rw [Arr.get_set_self _ hfile]
  exact hsize

theorem fsRead_nil (buf : Nat → UInt8) (hrange : 0 ≤ fildes ∧ fildes ≤ 31)
    (hu : (s.fd fildes).isUsed = true) : (fsRead s fildes buf 0).1 = 0 := by
  have hblocks : readBlocks s.dev (s.inodeOf fildes) 0 (s.fd fildes).offset.toNat
      (s.inodeOf fildes).fileSize.toNat buf
      = .ok ⟨buf, 0, (s.fd fildes).offset.toNat / 4096, true⟩ := by
    rw [readBlocks, readDirect, loop, if_neg (by simp)]
    simp [readIndirect]
  rw [fsRead, if_neg (by omega), if_neg (by rw [hu]; decide)]
  simp only [if_neg (show ¬ 0 > 2 ^ 20 by omega), hblocks]
  rfl

theorem fsWrite_behind (buf : Nat → UInt8) (hoff : 102400 ≤ (s.fd fildes).offset)
    (hmax : (s.fd fildes).offset + nbyte ≤ 2 ^ 20) (hs : (s.inodeOf fildes).singleIndirectBlock ≠ 0)
    (hn : 0 < nbyte) : (fsWrite s fildes buf nbyte).1 ≠ nbyte := by
  have hreq : writeRequest (s.fd fildes).offset nbyte = nbyte := by
    rw [writeRequest_eq nbyte (by omega) (by omega) (by omega)]
    omega
  have hcur : 102400 ≤ (s.fd fildes).offset.toNat := by omega
  have hw := writeBlocks_behind buf s.dev hcur hn hs
  have hfinish : ∀ (dev : Dev) (ino : Inode) (n : Nat), n < nbyte →
      (finishWrite s fildes.toNat dev ino n).1 ≠ nbyte := by
    intro dev ino n hlt
    obtain ⟨size, -, he⟩ := finishWrite_eq s fildes dev ino (n := n) (by omega) (by omega)
    rw [he]
    simp only
    omega
  rcases fsWrite_cases s fildes buf nbyte with
    he | ⟨-, -, -, -, ⟨v, ho, he⟩ | ⟨e, ho, -, he⟩ | ⟨e, -, -, he⟩⟩
  · rw [he]
    simp only
    omega
  · rw [writeOutcome, hreq] at ho
    rw [he]
    exact hfinish _ _ _ (hw.of_ok ho)
  · rw [writeOutcome, hreq] at ho
    rw [he]
    exact hfinish _ _ _ (hw.of_error ho)
  · rw [he]
    simp only
    omega

theorem fsRead_behind (buf : Nat → UInt8) (hoff : 102400 ≤ (s.fd fildes).offset) (hn : 0 < nbyte)
    (hmax : nbyte ≤ 2 ^ 20) : (fsRead s fildes buf nbyte).1 ≠ nbyte := by
  have hcur : 102400 ≤ (s.fd fildes).offset.toNat := by omega
  have hread := readBlocks_behind s.dev (s.inodeOf fildes) (s.inodeOf fildes).fileSize.toNat buf hcur hn
  rcases fsRead_cases s fildes buf nbyte with ⟨hret, -⟩ | ⟨-, -, -, v, hv, he⟩
  · rw [hret]
    omega
  · rw [Nat.min_eq_left hmax] at hv
    have hlt := hread.of_ok hv
    rw [he]
    simp only
    rw [toInt32_of_small (by omega) (by omega)]
    omega

/-- **Offsets behind the direct blocks never work.**  At the end of a file that reaches behind them,
`fs_write` does what it is asked for only if that is nothing; and neither does `fs_read`, from any
offset behind them. -/
theorem table_offsets_iff (hrange : 0 ≤ fildes ∧ fildes ≤ 31) (hu : (s.fd fildes).isUsed = true)
    (hfile : s.fileOf fildes < 64) (hsize : 102400 < (s.inodeOf fildes).fileSize.toNat)
    (hmax : (s.inodeOf fildes).fileSize.toNat ≤ 2 ^ 20)
    (hmapped : Mapped (s.inodeOf fildes) (s.inodeOf fildes).fileSize.toNat) :
    (∀ w : List UInt8, (s.fd fildes).offset = (s.inodeOf fildes).fileSize.toNat →
      (s.inodeOf fildes).fileSize.toNat + w.length ≤ 2 ^ 20 →
      ((fsWrite s fildes (fun k => w.getD k 0) w.length).1 = w.length ∧
        ((fsWrite s fildes (fun k => w.getD k 0) w.length).2.inodeOf fildes).fileSize.toNat
          = (s.inodeOf fildes).fileSize.toNat + w.length ↔ w = [])) ∧
    ∀ (p n : Nat) (mem : Nat → UInt8), 102400 ≤ p → p + n ≤ (s.inodeOf fildes).fileSize.toNat →
      ((fsLseek s fildes p).1 = 0 ∧ (fsRead (fsLseek s fildes p).2 fildes mem n).1 = n ∧
        (∀ k, k < n → (fsRead (fsLseek s fildes p).2 fildes mem n).2.1 k
          = byteAt s.dev.disk (s.inodeOf fildes) (tableOf s.dev.disk (s.inodeOf fildes)) (p + k)) ↔
        n = 0) := by
  refine ⟨?_, ?_⟩
  · intro w hoff hlen
    constructor
    · rintro ⟨hret, -⟩
      by_contra hne
      exact fsWrite_behind _ (by omega) (by omega) (hmapped.table hsize) (List.length_pos_iff.mpr hne) hret
    · rintro rfl
      obtain ⟨hret, hsame⟩ := fsWrite_nil (fun k => ([] : List UInt8).getD k 0) hrange hu hfile (by omega)
        (by omega) hmax
      refine ⟨hret, ?_⟩
      rw [List.length_nil, hsame]
      rfl
  · intro p n mem hp hn
    rw [fsLseek_inside s hrange (by omega) (by omega)]
    simp only
    have hget : State.fd { s with
        fdTable := s.fdTable.set fildes.toNat { s.fd fildes with offset := (p : Int) } } fildes
          = { s.fd fildes with offset := (p : Int) } :=
      Arr.get_set_self _ (by omega) _
    constructor
    · rintro ⟨-, hret, -⟩
      by_contra hne
      refine fsRead_behind mem ?_ (Nat.pos_of_ne_zero hne) (by omega) hret
      rw [hget]
      simp only
      omega
    · rintro rfl
      exact ⟨trivial, fsRead_nil mem hrange (by rw [hget]; exact hu), fun k hk => absurd hk (by omega)⟩

/-- A file that ends one byte behind its direct blocks. -/
def oneBehind : List Call := [.create nameA, .open nameA, .write 0 (fun _ => 7) 102401]

theorem oneBehind_facts :
    ((run step (fresh zeroDisk) oneBehind).inodeOf 0).fileSize.toNat = 102401 ∧
    ((run step (fresh zeroDisk) oneBehind).fd 0).isUsed = true ∧
    (run step (fresh zeroDisk) oneBehind).fileOf 0 < 64 ∧
    ((run step (fresh zeroDisk) oneBehind).fd 0).offset = 102401 ∧
    (∀ j, j < 25 → ((run step (fresh zeroDisk) oneBehind).inodeOf 0).directBlock.get j ≠ 0) ∧
    ((run step (fresh zeroDisk) oneBehind).inodeOf 0).singleIndirectBlock ≠ 0 := by
  decide +kernel

/-- Nothing is written at the end of the file, and nothing is read behind the direct blocks. -/
theorem table_offsets_nothing :
    (fsWrite (run step (fresh zeroDisk) oneBehind) 0 (fun k => ([] : List UInt8).getD k 0) 0).1 = 0 ∧
    (fsRead (fsLseek (run step (fresh zeroDisk) oneBehind) 0 (102400 : Nat)).2 0 (fun _ => 0) 0).1 = 0 := by
  obtain ⟨hsize, hu, hfile, hoff, hdirect, hsingle⟩ := oneBehind_facts
  have h := table_offsets_iff (show (0 : Int) ≤ 0 ∧ (0 : Int) ≤ 31 by decide) hu hfile (by omega) (by omega)
    ⟨fun j hj _ => hdirect j hj, fun _ => hsingle⟩
  exact ⟨((h.1 [] (by rw [hoff, hsize]; rfl) (by rw [hsize]; decide)).mpr rfl).1,
    ((h.2 102400 0 (fun _ => 0) (by decide) (by rw [hsize]; decide)).mpr rfl).2.1⟩

/-- One byte more is not written, and the byte that is there is not read. -/
theorem table_offsets_fail :
    ((run step (fresh zeroDisk) oneBehind).inodeOf 0).fileSize.toNat = 102401 ∧
    ((run step (fresh zeroDisk) oneBehind).fd 0).offset = 102401 ∧
    (fsWrite (run step (fresh zeroDisk) oneBehind) 0 (fun _ => 7) 1).1 ≠ 1 ∧
    (fsLseek (run step (fresh zeroDisk) oneBehind) 0 (102400 : Nat)).1 = 0 ∧
    (fsRead (fsLseek (run step (fresh zeroDisk) oneBehind) 0 (102400 : Nat)).2 0 (fun _ => 0) 1).1 ≠ 1 := by
  obtain ⟨hsize, hu, hfile, hoff, hdirect, hsingle⟩ := oneBehind_facts
  refine ⟨hsize, hoff, fsWrite_behind _ (by omega) (by omega) hsingle (by decide), ?_⟩
  rw [fsLseek_inside (p := 102400) _ (by decide) (by omega) (by decide)]
  refine ⟨rfl, fsRead_behind _ ?_ (by decide) (by decide)⟩
  rw [State.fd, Arr.get_set_self _ (by decide)]
  decide

end EC440.FileSystems
