import EC440.FileSystems.WriteRule

/-!
# What every write keeps

The facts about `fs_write` that hold in any state, however damaged: an inode keeps
its number, its size and the blocks it has (`Kept`), blocks are only ever marked
(`Grows`), and no more is written than was asked for.  And when the bytes up to the
cursor lie in mapped blocks (`StartMapped`), so do the bytes the write adds
(`Wrote.direct`, `Wrote.table`).
-/

namespace EC440.FileSystems

open EC440.Lib

/-- An inode after part of a write: the same file, with the blocks it had. -/
structure Kept (ino ino' : Inode) : Prop where
  number : ino'.inodeNumber = ino.inodeNumber
  size : ino'.fileSize = ino.fileSize
  direct : ∀ j, ino.directBlock.get j ≠ 0 → ino'.directBlock.get j = ino.directBlock.get j
  single : ino.singleIndirectBlock ≠ 0 → ino'.singleIndirectBlock = ino.singleIndirectBlock

/-- A device after part of a write: blocks are marked and none released, the record of
requests grows, and the blocks it found were free before. -/
structure Grows (dev dev' : Dev) : Prop where
  bits : ∀ b, getBit b dev.blocksBitmap = true → getBit b dev'.blocksBitmap = true
  found : ∃ new, dev'.trace = new ++ dev.trace ∧
    ∀ b, b ≠ 0 → Event.found b ∈ new → getBit b dev.blocksBitmap = false

theorem Kept.refl (ino : Inode) : Kept ino ino := ⟨rfl, rfl, fun _ _ => rfl, fun _ => rfl⟩

theorem Grows.refl (dev : Dev) : Grows dev dev :=
  ⟨fun _ h => h, [], rfl, fun _ _ h => absurd h List.not_mem_nil⟩

theorem Grows.trans {a b c : Dev} (h : Grows a b) (g : Grows b c) : Grows a c := by
  obtain ⟨new, hnew, hfree⟩ := h.found
  obtain ⟨new', hnew', hfree'⟩ := g.found
  refine ⟨fun i hi => g.bits i (h.bits i hi), new' ++ new, by rw [hnew', hnew, List.append_assoc],
    ?_⟩
  intro i hi hf
  rcases List.mem_append.mp hf with hin | hin
  · refine Bool.eq_false_iff.mpr ?_
    intro hset
    have := hfree' i hi hin
    rw [h.bits i hset] at this
    cases this
  · exact hfree i hi hin

theorem Grows.store (dev : Dev) (b : Nat) (x : Block) : Grows dev (dev.store b x) :=
  ⟨fun _ h => h, [.wrote b], rfl, fun _ _ h => by simp at h⟩

theorem Grows.take {dev : Dev} (h : findFreeBit dev.blocksBitmap ≠ 0) :
    Grows dev (dev.take (findFreeBit dev.blocksBitmap)) := by
  refine ⟨?_, [.found (findFreeBit dev.blocksBitmap).toNat], rfl, ?_⟩
  · intro i hi
    rw [Dev.take_blocksBitmap, getBit_setBit, hi, Bool.or_true]
  · intro i _ hf
    cases List.mem_singleton.mp hf
    exact (findFreeBit_spec h).2.1

theorem Grows.full (dev : Dev) : Grows dev dev.full := by
  refine ⟨fun _ h => h, [.found 0], rfl, ?_⟩
  intro i hi hf
  cases List.mem_singleton.mp hf
  exact absurd rfl hi

theorem Kept.setDirect {ino ino' : Inode} (h : Kept ino ino') {j : Nat} {b : UInt16}
    (hb : ino'.directBlock.get j ≠ 0 → b = ino'.directBlock.get j) :
    Kept ino (ino'.setDirect j b) := by
  refine ⟨h.number, h.size, ?_, h.single⟩
  intro k hk
  show (ino'.directBlock.set j b).get k = ino.directBlock.get k
  rw [Arr.get_set]
  have hkept := h.direct k hk
  split
  · rename_i hkj
    rw [← hkj.1, hkept] at hb
    exact hb hk
  · exact hkept

/-- **What a round keeps**: a slot that names a block goes on naming it, a slot is
left empty only when its block was to be read first, and the device grows. -/
theorem writeSlot_grows (buf : Nat → UInt8) (nbyte cursor pos : Nat) (data : Block × Nat)
    (firstBlock : Bool) (dev : Dev) (slot : UInt16) :
    Ensures (writeSlot buf nbyte cursor pos data firstBlock dev slot)
      (fun r => Grows dev r.1 ∧ (slot ≠ 0 → r.2.1 = slot) ∧
        ((firstBlock = true ∧ cursor % 4096 ≠ 0 ∧ r.2.1 = slot ∧
            r.2.2 = pos + firstWriteSize nbyte cursor) ∨
          ((firstBlock = false ∨ cursor % 4096 = 0) ∧ r.2.1 ≠ 0 ∧ r.2.2 = data.2)))
      (fun r => Grows dev r.2.1 ∧ (r.2.2 = slot) ∧ (r.1 = .noSpace →
        slot = 0 ∧ (firstBlock = false ∨ cursor % 4096 = 0))) := by
  rcases writeSlot_cases buf nbyte cursor pos data firstBlock dev slot with
    ⟨hf, hc, hb, hr⟩ | ⟨hf, hs, hb, hr⟩ | ⟨hf, hs, hb, hr⟩ | ⟨hf, hs, hb, hr⟩ | ⟨hb, hr⟩
  · rw [hr]
    exact ⟨Grows.store _ _ _, fun _ => rfl, Or.inl ⟨hf, hc, rfl, rfl⟩⟩
  · rw [hr]
    exact ⟨(Grows.take hb).trans (Grows.store _ _ _), fun h => absurd hs h,
      Or.inr ⟨hf, hb, rfl⟩⟩
  · rw [hr]
    exact ⟨Grows.store _ _ _, fun _ => rfl, Or.inr ⟨hf, hs, rfl⟩⟩
  · rw [hr]
    exact ⟨Grows.full _, rfl, fun _ => ⟨hs, hf⟩⟩
  · rw [hr]
    exact ⟨Grows.refl _, rfl, fun h => by cases h⟩

/-- **What a round writes to**: the block its slot names behind it. -/
theorem writeSlot_disk (buf : Nat → UInt8) (nbyte cursor pos : Nat) (data : Block × Nat)
    (firstBlock : Bool) (dev : Dev) (slot : UInt16) :
    Ensures (writeSlot buf nbyte cursor pos data firstBlock dev slot)
      (fun r => ∀ b, b ≠ r.2.1.toNat → r.1.disk.get b = dev.disk.get b)
      (fun r => r.2.1.disk = dev.disk) := by
  rcases writeSlot_cases buf nbyte cursor pos data firstBlock dev slot with
    ⟨-, -, -, hr⟩ | ⟨-, -, -, hr⟩ | ⟨-, -, -, hr⟩ | ⟨-, -, -, hr⟩ | ⟨-, hr⟩
  · rw [hr]
    exact fun b hb => Arr.get_set_ne _ hb _
  · rw [hr]
    exact fun b hb => Arr.get_set_ne _ hb _
  · rw [hr]
    exact fun b hb => Arr.get_set_ne _ hb _
  · rw [hr]
    rfl
  · rw [hr]
    rfl

theorem firstWriteSize_le (nbyte cursor : Nat) :
    firstWriteSize nbyte cursor ≤ nbyte ∧ firstWriteSize nbyte cursor ≤ 4096 - cursor % 4096 ∧
      (firstWriteSize nbyte cursor < nbyte →
        firstWriteSize nbyte cursor = 4096 - cursor % 4096) := by
  rw [firstWriteSize]
  split <;> omega

theorem directData_snd (buf : Nat → UInt8) {nbyte pos : Nat} (h : pos < nbyte) :
    (directData buf nbyte pos).2 ≤ nbyte ∧ (directData buf nbyte pos).2 ≤ pos + 4096 ∧
      pos < (directData buf nbyte pos).2 ∧
      ((directData buf nbyte pos).2 < nbyte → (directData buf nbyte pos).2 = pos + 4096) := by
  rw [directData]
  split
  · exact ⟨by omega, by omega, by omega, fun _ => rfl⟩
  · exact ⟨by omega, by omega, by omega, by omega⟩

/-! ### The bytes behind the cursor -/

/-- The block the cursor is in, and the table when the cursor is behind it, are there. -/
structure StartMapped (cursor : Nat) (ino : Inode) : Prop where
  block : cursor % 4096 ≠ 0 → cursor / 4096 < 25 → ino.directBlock.get (cursor / 4096) ≠ 0
  table : 102400 < cursor → ino.singleIndirectBlock ≠ 0

/-- **What a write has done** when it has written `n` bytes at `cursor`. -/
structure Wrote (cursor nbyte : Nat) (dev : Dev) (ino : Inode) (dev' : Dev) (ino' : Inode)
    (n : Nat) : Prop where
  kept : Kept ino ino'
  grows : Grows dev dev'
  le : n ≤ nbyte
  direct : StartMapped cursor ino → ∀ j, j < 25 → cursor / 4096 ≤ j → 4096 * j < cursor + n →
    ino'.directBlock.get j ≠ 0
  table : StartMapped cursor ino → 102400 < cursor + n → ino'.singleIndirectBlock ≠ 0

/-- The invariant of the direct loop.  The slots passed so far are mapped. -/
structure DirectFacts (cursor nbyte : Nat) (dev : Dev) (ino : Inode) (v : WriteVars) : Prop where
  kept : Kept ino v.ino
  grows : Grows dev v.dev
  le : v.bytesWritten ≤ nbyte
  first : v.firstBlock = true → v.bytesWritten = 0 ∧ v.block = cursor / 4096
  later : v.firstBlock = false → v.block ≤ 25 ∧ cursor + v.bytesWritten ≤ 4096 * v.block ∧
    (v.bytesWritten < nbyte → cursor + v.bytesWritten = 4096 * v.block)
  low : cursor / 4096 ≤ v.block
  mapped : StartMapped cursor ino → ∀ j, j < 25 → cursor / 4096 ≤ j → j < v.block →
    v.ino.directBlock.get j ≠ 0
  single : v.ino.singleIndirectBlock = ino.singleIndirectBlock

/-- The invariant of the loop over the table.  What is left fills all the blocks still
to come but the last. -/
structure TableFacts (cursor nbyte : Nat) (dev : Dev) (ino : Inode) (needed : Nat)
    (ino' : Inode) (v : TableVars) : Prop where
  kept : Kept ino ino'
  grows : Grows dev v.dev
  le : v.bytesWritten ≤ nbyte
  first : v.firstBlock = true → v.bytesWritten = 0
  left : v.idx < needed → 4096 * (needed - v.idx - 1) < nbyte - v.bytesWritten
  mapped : StartMapped cursor ino → ∀ j, j < 25 → cursor / 4096 ≤ j → ino'.directBlock.get j ≠ 0
  single : ino'.singleIndirectBlock ≠ 0

variable {buf : Nat → UInt8} {nbyte cursor : Nat} {dev : Dev} {ino : Inode}

theorem DirectFacts.wrote {v : WriteVars} (h : DirectFacts cursor nbyte dev ino v) :
    Wrote cursor nbyte dev ino v.dev v.ino v.bytesWritten := by
  refine ⟨h.kept, h.grows, h.le, ?_, ?_⟩
  · intro hs j hj hlow hlt
    cases hf : v.firstBlock with
    | true =>
      -- nothing is written yet, so `j` is the block the cursor is in
      obtain ⟨h0, hb⟩ := h.first hf
      rw [h0] at hlt
      have hj' : j = cursor / 4096 := by omega
      rw [hj', h.kept.direct _ (hs.block (by omega) (by omega))]
      exact hs.block (by omega) (by omega)
    | false =>
      have := (h.later hf).2.1
      exact h.mapped hs j hj hlow (by omega)
  · intro hs hlt
    rw [h.single]
    cases hf : v.firstBlock with
    | true =>
      rw [(h.first hf).1] at hlt
      exact hs.table (by omega)
    | false =>
      have := h.later hf
      omega

theorem DirectFacts.left_eq {v : WriteVars} (h : DirectFacts cursor nbyte dev ino v)
    (hlt : v.bytesWritten < nbyte) (hblock : 25 ≤ v.block) :
    (v.firstBlock = true ∧ v.bytesWritten = 0 ∧ 102400 ≤ cursor) ∨
      (v.firstBlock = false ∧ cursor + v.bytesWritten = 102400) := by
  cases hf : v.firstBlock with
  | true =>
    obtain ⟨h0, hb⟩ := h.first hf
    exact Or.inl ⟨rfl, h0, by omega⟩
  | false =>
    obtain ⟨hle, -, heq⟩ := h.later hf
    have := heq hlt
    exact Or.inr ⟨rfl, by omega⟩

theorem TableFacts.wrote {needed : Nat} {ino' : Inode} {v : TableVars} {dev' : Dev}
    (h : TableFacts cursor nbyte dev ino needed ino' v) (hg : Grows v.dev dev') :
    Wrote cursor nbyte dev ino dev' ino' v.bytesWritten :=
  ⟨h.kept, h.grows.trans hg, h.le, fun hs j hj hlow _ => h.mapped hs j hj hlow,
    fun _ _ => h.single⟩

theorem blocksNeeded_left (rem idx : Nat) :
    idx < blocksNeeded rem → 4096 * (blocksNeeded rem - idx - 1) < rem := by
  intro hlt
  have hle : blocksNeeded rem ≤ rem / 4096 + 1 := by
    rw [blocksNeeded]
    refine le_trans (Nat.mod_le _ _) ?_
    split <;> omega
  have hmul : rem % 4096 = 0 → blocksNeeded rem ≤ rem / 4096 := by
    intro h0
    rw [blocksNeeded, if_pos h0]
    exact Nat.mod_le _ _
  by_cases h0 : rem % 4096 = 0
  · have := hmul h0
    omega
  · omega

theorem directFacts_start (cursor nbyte : Nat) (dev : Dev) (ino : Inode) :
    DirectFacts cursor nbyte dev ino ⟨dev, ino, 0, cursor / 4096, true⟩ := by
  refine ⟨Kept.refl _, Grows.refl _, Nat.zero_le _, fun _ => ⟨rfl, rfl⟩,
    fun h => absurd h (by simp), le_refl _, ?_, rfl⟩
  intro _ j _ hlow hlt
  simp only at hlt
  omega

theorem DirectFacts.round {v : WriteVars} (h : DirectFacts cursor nbyte dev ino v)
    (hlt : v.bytesWritten < nbyte) (hblock : v.block < 25) :
    Ensures (writeSlot buf nbyte cursor v.bytesWritten (directData buf nbyte v.bytesWritten)
        v.firstBlock v.dev (v.ino.directBlock.get v.block))
      (fun r => DirectFacts cursor nbyte dev ino
        ⟨r.1, v.ino.setDirect v.block r.2.1, r.2.2, v.block + 1, false⟩)
      (fun r => Wrote cursor nbyte dev ino r.2.1 (v.ino.setDirect v.block r.2.2)
        v.bytesWritten) := by
  refine (writeSlot_grows buf nbyte cursor v.bytesWritten _ v.firstBlock v.dev _).mono ?_ ?_
  · rintro ⟨dev', slot, written⟩ ⟨hg, hkeep, hcase⟩
    have hkept : Kept ino (v.ino.setDirect v.block slot) := h.kept.setDirect hkeep
    have hget : (v.ino.setDirect v.block slot).directBlock.get v.block = slot :=
      Arr.get_set_self _ hblock _
    have hget' : ∀ j, j ≠ v.block →
        (v.ino.setDirect v.block slot).directBlock.get j = v.ino.directBlock.get j :=
      fun j hj => Arr.get_set_ne _ hj _
    have hw : written ≤ nbyte ∧ cursor + written ≤ 4096 * (v.block + 1) ∧
        (written < nbyte → cursor + written = 4096 * (v.block + 1)) := by
      rcases hcase with ⟨hf, -, -, hwr⟩ | ⟨hf, -, hwr⟩
      · obtain ⟨h0, hb⟩ := h.first hf
        have hws := firstWriteSize_le nbyte cursor
        simp only at hwr
        omega
      · have hd := directData_snd buf hlt
        simp only at hwr
        rw [← hwr] at hd
        cases hfb : v.firstBlock with
        | false =>
          have := h.later hfb
          omega
        | true =>
          obtain ⟨h0, hb⟩ := h.first hfb
          rw [hfb] at hf
          simp only [Bool.true_eq_false, false_or] at hf
          omega
    refine ⟨hkept, h.grows.trans hg, hw.1, fun hf => absurd hf (by simp),
      fun _ => ⟨Nat.succ_le_of_lt hblock, hw.2⟩,
      by have := h.low; show _ ≤ v.block + 1; omega, ?_, h.single⟩
    intro hs j hj hlow hjb
    by_cases hjv : j = v.block
    · subst hjv
      rw [hget]
      rcases hcase with ⟨hf, hc, hslot, -⟩ | ⟨-, hne, -⟩
      · -- the block that was read first is the cursor's, which is mapped
        obtain ⟨-, hb⟩ := h.first hf
        simp only at hslot
        rw [hslot, hb, h.kept.direct _ (hs.block hc (by omega))]
        exact hs.block hc (by omega)
      · exact hne
    · rw [hget' j hjv]
      simp only at hjb
      exact h.mapped hs j hj hlow (by omega)
  · rintro ⟨why, dev', slot⟩ ⟨hg, hslot, -⟩
    simp only at hslot hg
    have hsame : v.ino.setDirect v.block slot = v.ino := by
      rw [hslot, Inode.setDirect, Arr.set_get]
    simp only [hsame]
    exact ({ h with grows := h.grows.trans hg } :
      DirectFacts cursor nbyte dev ino { v with dev := dev' }).wrote

theorem TableFacts.round {needed : Nat} {ino' : Inode} {v : TableVars}
    (h : TableFacts cursor nbyte dev ino needed ino' v) (hidx : v.idx < needed) :
    Ensures (writeSlot buf nbyte cursor v.bytesWritten
        (tableData buf nbyte needed v.idx v.bytesWritten) v.firstBlock v.dev
        (get16 v.table v.idx))
      (fun r => TableFacts cursor nbyte dev ino needed ino'
        ⟨r.1, set16 v.table v.idx r.2.1, v.idx + 1, r.2.2, false⟩)
      (fun r => Wrote cursor nbyte dev ino r.2.1 ino' v.bytesWritten) := by
  have hleft := h.left hidx
  refine (writeSlot_grows buf nbyte cursor v.bytesWritten _ v.firstBlock v.dev _).mono ?_ ?_
  · rintro ⟨dev', slot, written⟩ ⟨hg, -, hcase⟩
    have hw : written ≤ nbyte ∧
        (v.idx + 1 < needed → 4096 * (needed - (v.idx + 1) - 1) < nbyte - written) := by
      rcases hcase with ⟨hf, -, -, hwr⟩ | ⟨hf, -, hwr⟩
      · have h0 := h.first hf
        have hws := firstWriteSize_le nbyte cursor
        simp only at hwr
        omega
      · simp only [tableData] at hwr
        split at hwr
        · omega
        · rename_i hlast
          simp only at hwr
          omega
    exact ⟨h.kept, h.grows.trans hg, hw.1, fun hf => absurd hf (by simp), hw.2, h.mapped, h.single⟩
  · rintro ⟨why, dev', slot⟩ ⟨hg, -, -⟩
    exact h.wrote hg

/-- The obligations of `fs_write` for `Wrote`. -/
theorem writeFacts_proof (buf : Nat → UInt8) (nbyte cursor : Nat) (dev : Dev) (ino : Inode) :
    WriteProof buf nbyte cursor (DirectFacts cursor nbyte dev ino)
      (TableFacts cursor nbyte dev ino)
      (fun v => Wrote cursor nbyte dev ino v.dev v.ino v.bytesWritten)
      (fun e => Wrote cursor nbyte dev ino e.dev e.ino e.bytesWritten) where
  direct v hv hlt hblock := hv.round hlt hblock
  done v hv _ := hv.wrote
  enter v hv hlt hblock hs _ :=
    ⟨hv.kept, hv.grows, hv.le, fun hf => (hv.first hf).1,
      blocksNeeded_left _ _, fun hst j hj hlow => hv.mapped hst j hj hlow (by omega), hs⟩
  enterError v hv _ _ := hv.wrote
  create v hv hlt hblock hs hf := by
    refine ⟨⟨hv.kept.number, hv.kept.size, hv.kept.direct, ?_⟩,
      hv.grows.trans (Grows.take hf), hv.le, fun hf => (hv.first hf).1,
      blocksNeeded_left _ _, fun hst j hj hlow => hv.mapped hst j hj hlow (by omega), hf⟩
    intro hne
    rw [← hv.single] at hne
    exact absurd hs hne
  createError v hv _ _ _ _ :=
    ({ hv with grows := hv.grows.trans (Grows.full _) } :
      DirectFacts cursor nbyte dev ino { v with dev := v.dev.full }).wrote
  table needed ino' v hv hidx := hv.round hidx
  leave needed ino' v hv _ _ := hv.wrote (Grows.store _ _ _)
  leaveError needed ino' v hv _ _ := hv.wrote (Grows.refl _)

/-- **Every write keeps `Wrote`**, however it ends. -/
theorem writeBlocks_wrote (buf : Nat → UInt8) (nbyte cursor : Nat) (dev : Dev) (ino : Inode) :
    Ensures (writeBlocks buf nbyte cursor dev ino)
      (fun v => Wrote cursor nbyte dev ino v.dev v.ino v.bytesWritten)
      (fun e => Wrote cursor nbyte dev ino e.dev e.ino e.bytesWritten) :=
  (writeFacts_proof buf nbyte cursor dev ino).sound (directFacts_start cursor nbyte dev ino)

end EC440.FileSystems
