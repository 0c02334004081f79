import EC440.FileSystems.Write

/-!
# A rule for `fs_write`

`WriteProof` collects what has to be shown to prove something of the loops of
`fs_write`: an invariant `D` of the loop over the direct blocks, an invariant `T` of
the loop over the indirect table, what the end establishes (`P`) and what an early
return does (`E`).  Each obligation speaks of one round or of one of the steps
between the loops, and `WriteProof.sound` puts them together.

`T` also gets the inode, which no round of the second loop changes, and the length
`needed` of the table that the loop was entered with.
-/

namespace EC440.FileSystems

open EC440.Lib

variable {buf : Nat → UInt8} {nbyte cursor : Nat}

/-- The obligations for a property of the loops of `fs_write`. -/
structure WriteProof (buf : Nat → UInt8) (nbyte cursor : Nat) (D : WriteVars → Prop)
    (T : Nat → Inode → TableVars → Prop) (P : WriteVars → Prop) (E : WriteExit → Prop) : Prop where
  /-- a round of the direct loop -/
  direct : ∀ v, D v → v.bytesWritten < nbyte → v.block < 25 →
    Ensures (writeSlot buf nbyte cursor v.bytesWritten (directData buf nbyte v.bytesWritten)
        v.firstBlock v.dev (v.ino.directBlock.get v.block))
      (fun r => D ⟨r.1, v.ino.setDirect v.block r.2.1, r.2.2, v.block + 1, false⟩)
      (fun r => E ⟨r.1, r.2.1, v.ino.setDirect v.block r.2.2, v.bytesWritten⟩)
  /-- nothing is left after the direct blocks -/
  done : ∀ v, D v → nbyte ≤ v.bytesWritten → P v
  /-- the file has a table -/
  enter : ∀ v, D v → v.bytesWritten < nbyte → 25 ≤ v.block → v.ino.singleIndirectBlock ≠ 0 →
    v.ino.singleIndirectBlock.toNat < 8192 →
    T (blocksNeeded (nbyte - v.bytesWritten)) v.ino
      ⟨v.dev, v.dev.disk.get v.ino.singleIndirectBlock.toNat, cursor / 4096, v.bytesWritten,
        v.firstBlock⟩
  /-- the table is not on the disk -/
  enterError : ∀ v, D v → v.bytesWritten < nbyte → 8192 ≤ v.ino.singleIndirectBlock.toNat →
    E ⟨.ioError, v.dev, v.ino, v.bytesWritten⟩
  /-- the file gets a new table -/
  create : ∀ v, D v → v.bytesWritten < nbyte → 25 ≤ v.block → v.ino.singleIndirectBlock = 0 →
    findFreeBit v.dev.blocksBitmap ≠ 0 →
    T (blocksNeeded (nbyte - v.bytesWritten))
      { v.ino with singleIndirectBlock := findFreeBit v.dev.blocksBitmap }
      ⟨v.dev.take (findFreeBit v.dev.blocksBitmap), Arr.fill 0, 0, v.bytesWritten, v.firstBlock⟩
  /-- there is no block for a table -/
  createError : ∀ v, D v → v.bytesWritten < nbyte → 25 ≤ v.block →
    v.ino.singleIndirectBlock = 0 → findFreeBit v.dev.blocksBitmap = 0 →
    E ⟨.noSpace, v.dev.full, v.ino, v.bytesWritten⟩
  /-- a round of the loop over the table -/
  table : ∀ needed ino v, T needed ino v → v.idx < needed →
    Ensures (writeSlot buf nbyte cursor v.bytesWritten
        (tableData buf nbyte needed v.idx v.bytesWritten) v.firstBlock v.dev
        (get16 v.table v.idx))
      (fun r => T needed ino ⟨r.1, set16 v.table v.idx r.2.1, v.idx + 1, r.2.2, false⟩)
      (fun r => E ⟨r.1, r.2.1, ino, v.bytesWritten⟩)
  /-- the table is written back -/
  leave : ∀ needed ino v, T needed ino v → needed ≤ v.idx →
    ino.singleIndirectBlock.toNat < 8192 →
    P ⟨v.dev.store ino.singleIndirectBlock.toNat v.table, ino, v.bytesWritten, v.idx,
      v.firstBlock⟩
  /-- the table cannot be written back -/
  leaveError : ∀ needed ino v, T needed ino v → needed ≤ v.idx →
    8192 ≤ ino.singleIndirectBlock.toNat → E ⟨.ioError, v.dev, ino, v.bytesWritten⟩

variable {D : WriteVars → Prop} {T : Nat → Inode → TableVars → Prop} {P : WriteVars → Prop}
  {E : WriteExit → Prop}

theorem WriteProof.writeDirect_ensures (h : WriteProof buf nbyte cursor D T P E) {v : WriteVars}
    (hv : D v) :
    Ensures (writeDirect buf nbyte cursor v)
      (fun v => D v ∧ (nbyte ≤ v.bytesWritten ∨ 25 ≤ v.block)) E := by
  have hloop := loop_rule (fun v => decide (v.bytesWritten < nbyte ∧ v.block < 25))
    (writeDirectBody buf nbyte cursor) D E (fun v => 25 - v.block) ?_ ?_ 25 v hv (by omega)
  · refine hloop.mono (fun v' hv' => ⟨hv'.1, ?_⟩) (fun _ he => he)
    have hc := hv'.2
    simp only [decide_eq_false_iff_not] at hc
    omega
  · intro v _ hc
    simp only [decide_eq_true_eq] at hc
    omega
  · intro v hv hc
    simp only [decide_eq_true_eq] at hc
    have hr := h.direct v hv hc.1 hc.2
    rw [writeDirectBody]
    cases hw : writeSlot buf nbyte cursor v.bytesWritten (directData buf nbyte v.bytesWritten)
        v.firstBlock v.dev (v.ino.directBlock.get v.block) with
    | ok r =>
      obtain ⟨dev, slot, written⟩ := r
      rw [hw] at hr
      refine ⟨hr, ?_⟩
      show 25 - (v.block + 1) < 25 - v.block
      omega
    | error r =>
      obtain ⟨why, dev, slot⟩ := r
      rw [hw] at hr
      exact hr

theorem WriteProof.writeTable_ensures (h : WriteProof buf nbyte cursor D T P E) {ino : Inode}
    {v : TableVars} (hv : T (blocksNeeded (nbyte - v.bytesWritten)) ino v) :
    Ensures (writeTable buf nbyte cursor ino v) P E := by
  rw [writeTable]
  have hloop := loop_rule
    (fun w : TableVars => decide (w.idx < blocksNeeded (nbyte - v.bytesWritten)))
    (writeIndirectBody buf nbyte cursor (blocksNeeded (nbyte - v.bytesWritten)) ino)
    (T (blocksNeeded (nbyte - v.bytesWritten)) ino) E
    (fun w => blocksNeeded (nbyte - v.bytesWritten) - w.idx) ?_ ?_
    (blocksNeeded (nbyte - v.bytesWritten)) v hv (by omega)
  · cases hl : loop (fun w : TableVars => decide (w.idx < blocksNeeded (nbyte - v.bytesWritten)))
        (writeIndirectBody buf nbyte cursor (blocksNeeded (nbyte - v.bytesWritten)) ino)
        (blocksNeeded (nbyte - v.bytesWritten)) v with
    | error e =>
      rw [hl] at hloop
      exact hloop
    | ok w =>
      rw [hl] at hloop
      obtain ⟨hT, hc⟩ := hloop
      simp only [decide_eq_false_iff_not] at hc
      by_cases hb : ino.singleIndirectBlock.toNat < 8192
      · simp only [blockWrite_of_lt w.dev hb]
        exact h.leave _ ino w hT (by omega) hb
      · simp only [blockWrite_of_ge w.dev (show 8192 ≤ ino.singleIndirectBlock.toNat by omega)]
        exact h.leaveError _ ino w hT (by omega) (by omega)
  · intro w _ hc
    simp only [decide_eq_true_eq] at hc
    omega
  · intro w hw hc
    simp only [decide_eq_true_eq] at hc
    have hr := h.table _ ino w hw hc
    rw [writeIndirectBody]
    cases hs : writeSlot buf nbyte cursor w.bytesWritten
        (tableData buf nbyte (blocksNeeded (nbyte - v.bytesWritten)) w.idx w.bytesWritten)
        w.firstBlock w.dev (get16 w.table w.idx) with
    | ok r =>
      obtain ⟨dev, slot, written⟩ := r
      rw [hs] at hr
      refine ⟨hr, ?_⟩
      show blocksNeeded (nbyte - v.bytesWritten) - (w.idx + 1)
        < blocksNeeded (nbyte - v.bytesWritten) - w.idx
      omega
    | error r =>
      obtain ⟨why, dev, slot⟩ := r
      rw [hs] at hr
      exact hr

theorem WriteProof.writeIndirect_ensures (h : WriteProof buf nbyte cursor D T P E)
    {v : WriteVars} (hv : D v) (hend : nbyte ≤ v.bytesWritten ∨ 25 ≤ v.block) :
    Ensures (writeIndirect buf nbyte cursor v) P E := by
  rw [writeIndirect]
  by_cases hrem : nbyte - v.bytesWritten = 0
  · rw [if_pos hrem]
    exact h.done v hv (by omega)
  · rw [if_neg hrem]
    have hlt : v.bytesWritten < nbyte := by omega
    by_cases hs : v.ino.singleIndirectBlock = 0
    · rw [if_neg (by simpa using hs)]
      by_cases hf : findFreeBit v.dev.blocksBitmap = 0
      · rw [takeFree_eq_full hf]
        simp only [if_true]
        exact h.createError v hv hlt (by omega) hs hf
      · rw [takeFree_eq_take hf]
        simp only [if_neg hf]
        exact h.writeTable_ensures (h.create v hv hlt (by omega) hs hf)
    · rw [if_pos hs]
      by_cases hb : v.ino.singleIndirectBlock.toNat < 8192
      · rw [blockRead_of_lt v.dev hb]
        exact h.writeTable_ensures (h.enter v hv hlt (by omega) hs hb)
      · rw [blockRead_of_ge v.dev (by omega)]
        exact h.enterError v hv hlt (by omega)

/-- **The rule for `fs_write`.** -/
theorem WriteProof.sound (h : WriteProof buf nbyte cursor D T P E) {dev : Dev} {ino : Inode}
    (h0 : D ⟨dev, ino, 0, cursor / 4096, true⟩) :
    Ensures (writeBlocks buf nbyte cursor dev ino) P E := by
  rw [writeBlocks]
  have hd := h.writeDirect_ensures h0
  cases hw : writeDirect buf nbyte cursor ⟨dev, ino, 0, cursor / 4096, true⟩ with
  | error e =>
    rw [hw] at hd
    exact hd
  | ok v =>
    rw [hw] at hd
    exact h.writeIndirect_ensures hd.1 hd.2

/-! ### The call -/

def writeOutcome (s : State) (fildes : Int) (buf : Nat → UInt8) (nbyte : Nat) :
    Except WriteExit WriteVars :=
  writeBlocks buf (writeRequest (s.fd fildes).offset nbyte) (s.fd fildes).offset.toNat s.dev
    (s.inodeOf fildes)

theorem fsWrite_open {s : State} {fildes : Int} (hrange : 0 ≤ fildes ∧ fildes ≤ 31)
    (hu : (s.fd fildes).isUsed = true) (hfile : s.fileOf fildes < 64) (buf : Nat → UInt8)
    (nbyte : Nat) :
    fsWrite s fildes buf nbyte =
      match writeOutcome s fildes buf nbyte with
      | .ok v => finishWrite s fildes.toNat v.dev v.ino v.bytesWritten
      | .error ⟨.noSpace, dev, ino, n⟩ => finishWrite s fildes.toNat dev ino n
      | .error ⟨.ioError, dev, ino, _⟩ =>
        (-1, { s with dev := dev, inodeTable := s.inodeTable.set (s.fileOf fildes) ino }) := by
  have hi : ¬ (s.fdTable.get fildes.toNat).inodeNumber.toNat > 63 :=
    Nat.not_lt.mpr (Nat.le_of_lt_succ hfile)
  rw [fsWrite, if_neg (by omega), if_neg (by rw [hu]; decide)]
  simp only [if_neg hi]
  rfl

theorem fsWrite_closed {s : State} {fildes : Int} (h : ¬ s.FdOpen fildes) (buf : Nat → UInt8) (nbyte : Nat) :
    fsWrite s fildes buf nbyte = (-1, s) := State.check_closed h _ _

/-- **What `fs_write` does** with the outcome of its loops. -/
theorem fsWrite_cases (s : State) (fildes : Int) (buf : Nat → UInt8) (nbyte : Nat) :
    fsWrite s fildes buf nbyte = (-1, s) ∨
    (0 ≤ fildes ∧ fildes ≤ 31 ∧ (s.fd fildes).isUsed = true ∧ s.fileOf fildes < 64 ∧
      ((∃ v, writeOutcome s fildes buf nbyte = .ok v ∧
          fsWrite s fildes buf nbyte = finishWrite s fildes.toNat v.dev v.ino v.bytesWritten) ∨
        (∃ e, writeOutcome s fildes buf nbyte = .error e ∧ e.why = .noSpace ∧
          fsWrite s fildes buf nbyte = finishWrite s fildes.toNat e.dev e.ino e.bytesWritten) ∨
        (∃ e, writeOutcome s fildes buf nbyte = .error e ∧ e.why = .ioError ∧
          fsWrite s fildes buf nbyte = (-1, { s with
            dev := e.dev
            inodeTable := s.inodeTable.set (s.fileOf fildes) e.ino })))) := by
  by_cases hfd : fildes < 0 ∨ fildes > 31
  · exact Or.inl (by rw [fsWrite, if_pos hfd])
  · by_cases hu : (s.fdTable.get fildes.toNat).isUsed = false
    · exact Or.inl (by rw [fsWrite, if_neg hfd, if_pos hu])
    · by_cases hi : (s.fdTable.get fildes.toNat).inodeNumber.toNat > 63
      · refine Or.inl ?_
        rw [fsWrite, if_neg hfd, if_neg hu]
        simp only [if_pos hi]
      · refine Or.inr ⟨by omega, by omega, by simpa using hu, Nat.lt_of_not_le hi, ?_⟩
        rw [fsWrite, if_neg hfd, if_neg hu, writeOutcome]
        simp only [if_neg hi]
        cases hw : writeBlocks buf (writeRequest (s.fd fildes).offset nbyte)
            (s.fd fildes).offset.toNat s.dev (s.inodeOf fildes) with
        | ok v => exact Or.inl ⟨v, rfl, rfl⟩
        | error e =>
          obtain ⟨why, dev, ino, n⟩ := e
          cases why with
          | noSpace => exact Or.inr (Or.inl ⟨_, rfl, rfl, rfl⟩)
          | ioError => exact Or.inr (Or.inr ⟨_, rfl, rfl, rfl⟩)

end EC440.FileSystems
