import EC440.FileSystems.Ownership

/-!
# Ownership during a write

A write works on one inode `i` and has, for a while, the table of `i` in memory and
another one on the disk.  `Ledger` is ownership for that time: the references of `i`
are those of the inode and the table at hand, those of the other inodes are the ones
before the write.

`WriteSafe` says when a write is harmless in any case: the block it starts in is there,
and when it makes a new table, it does not run out of blocks before the table is on the
disk.  `writeBlocks_ledger` is the result for the whole write.
-/

namespace EC440.FileSystems

open EC440.Lib

/-! ### The ledger of a write -/

/-- The references while inode `i` is written and is now `ino`, with the table `tab`. -/
def writeRef (s : State) (i : Nat) (ino : Inode) (tab : Nat → UInt16) (x : Nat × Slot) : Nat :=
  if x.1 = i then ino.names tab x.2 else s.ref x

/-- Ownership while inode `i` is written: the tables of the other inodes are as they
were, and the table of `i` has no entry past the largest size of a file. -/
structure Ledger (s : State) (i : Nat) (dev : Dev) (ino : Inode) (tab : Nat → UInt16) : Prop where
  reserved : Reserved dev.blocksBitmap
  owned : Owned (writeRef s i ino tab) (InUse dev.blocksBitmap)
  tables : ∀ j, j ≠ i → (s.inodeTable.get j).singleIndirectBlock ≠ 0 →
    dev.disk.get (s.inodeTable.get j).singleIndirectBlock.toNat
      = s.dev.disk.get (s.inodeTable.get j).singleIndirectBlock.toNat
  high : ∀ k, 231 ≤ k → tab k = 0

variable {s : State} {i : Nat} {dev : Dev} {ino : Inode} {tab : Nat → UInt16}

theorem writeRef_own (sl : Slot) : writeRef s i ino tab (i, sl) = ino.names tab sl := if_pos rfl

theorem writeRef_other {j : Nat} (hj : j ≠ i) (sl : Slot) :
    writeRef s i ino tab (j, sl) = s.ref (j, sl) := if_neg hj

theorem writeRef_self :
    writeRef s i (s.inodeTable.get i) (tableOf s.dev.disk (s.inodeTable.get i)) = s.ref := by
  funext ⟨j, sl⟩
  by_cases hj : j = i
  · rw [hj, writeRef_own]
    rfl
  · exact writeRef_other hj sl

/-- When one slot of inode `i` changes, one reference does. -/
theorem writeRef_update {ino' : Inode} {tab' : Nat → UInt16} {sl : Slot} {b : Nat}
    (h : ino'.names tab' = Function.update (ino.names tab) sl b) :
    writeRef s i ino' tab' = Function.update (writeRef s i ino tab) (i, sl) b := by
  funext ⟨j, sl'⟩
  by_cases hj : j = i
  · subst hj
    rw [writeRef_own, h]
    by_cases hsl : sl' = sl
    · rw [hsl, Function.update_self, Function.update_self]
    · rw [Function.update_of_ne hsl, Function.update_of_ne (fun he => hsl (Prod.mk.inj he).2),
        writeRef_own]
  · rw [Function.update_of_ne (fun he => hj (Prod.mk.inj he).1), writeRef_other hj,
      writeRef_other hj]

theorem Ledger.part {tab' : Nat → UInt16} (h : Ledger s i dev ino tab)
    (hpart : ∀ k, tab' k ≠ 0 → tab' k = tab k) : Ledger s i dev ino tab' := by
  have href : ∀ x, writeRef s i ino tab' x ≠ 0 → writeRef s i ino tab' x = writeRef s i ino tab x := by
    rintro ⟨j, sl⟩ hx
    by_cases hj : j = i
    · subst hj
      rw [writeRef_own] at hx ⊢
      rw [writeRef_own]
      cases sl with
      | direct k => rfl
      | table => rfl
      | entry k =>
        have hne : tab' k ≠ 0 := fun he => hx (by rw [Inode.names, he]; rfl)
        rw [Inode.names, Inode.names, hpart k hne]
    · rw [writeRef_other hj, writeRef_other hj]
  refine ⟨h.reserved, h.owned.drop href ?_, h.tables, ?_⟩
  · intro x hx
    exact h.owned.used_of_ne x (by rw [← href x hx]; exact hx)
  · intro k hk
    by_contra hne
    exact hne ((hpart k hne).trans (h.high k hk))

theorem Ledger.table_lt (h : Ledger s i dev ino tab) (hs : ino.singleIndirectBlock ≠ 0) :
    5 ≤ ino.singleIndirectBlock.toNat ∧ ino.singleIndirectBlock.toNat < 8192 := by
  have hne : writeRef s i ino tab (i, .table) ≠ 0 := by
    rw [writeRef_own]
    exact fun he => hs (UInt16.toNat_inj.mp he)
  have hu := h.owned.used_of_ne _ hne
  rw [writeRef_own] at hu
  exact ⟨hu.1, hu.2.1⟩

/-- No block before the data blocks was written. -/
def Clean (dev : Dev) : Prop := ∀ b, b < 5 → Event.wrote b ∉ dev.trace

/-- **A round on slot `sl` of inode `i`** keeps the ledger. -/
theorem Ledger.writeSlot (h : Ledger s i dev ino tab) (sl : Slot) {slot : UInt16}
    (hsl : sl ≠ .table) (hx : ino.names tab sl = slot.toNat) (buf : Nat → UInt8)
    (nbyte cursor pos : Nat) (data : Block × Nat) (firstBlock : Bool) :
    Ensures (writeSlot buf nbyte cursor pos data firstBlock dev slot)
      (fun r =>
        (∀ ino' tab', writeRef s i ino' tab'
            = Function.update (writeRef s i ino tab) (i, sl) r.2.1.toNat →
          (∀ k, 231 ≤ k → tab' k = 0) → Ledger s i r.1 ino' tab') ∧
        (∀ k, tableOf r.1.disk ino k = tableOf dev.disk ino k) ∧
        (Clean dev → r.2.1 ≠ 0 → Clean r.1) ∧
        freeCount r.1.blocksBitmap + (if slot = 0 ∧ r.2.1 ≠ 0 then 1 else 0)
          = freeCount dev.blocksBitmap)
      (fun r => r.1 = .noSpace ∧ r.2.1 = dev.full ∧ r.2.2 = slot ∧
        freeCount dev.blocksBitmap = 0) := by
  have hx' : writeRef s i ino tab (i, sl) = slot.toNat := by rw [writeRef_own, hx]
  refine (writeSlot_owned buf nbyte cursor pos data firstBlock h.reserved h.owned hx').mono ?_
    (fun _ he => he)
  rintro ⟨dev', slot', written⟩ ⟨hres, hown, hdisk, hwrote, hcount⟩
  refine ⟨fun ino' tab' hupd hhigh => ⟨hres, by rw [hupd]; exact hown, ?_, hhigh⟩, ?_, ?_, hcount⟩
  · intro j hj hs
    have hne : writeRef s i ino tab (j, .table) ≠ 0 := by
      rw [writeRef_other hj]
      exact fun he => hs (UInt16.toNat_inj.mp he)
    have := hdisk (j, .table) (fun he => hj (Prod.mk.inj he).1) hne
    rw [writeRef_other hj] at this
    exact this.trans (h.tables j hj hs)
  · intro k
    by_cases hs : ino.singleIndirectBlock = 0
    · rw [tableOf, tableOf, if_pos hs, if_pos hs]
    · have hne : writeRef s i ino tab (i, .table) ≠ 0 := by
        rw [writeRef_own]
        exact fun he => hs (UInt16.toNat_inj.mp he)
      have := hdisk (i, .table) (fun he => hsl (Prod.mk.inj he).2.symm) hne
      rw [writeRef_own] at this
      rw [tableOf, tableOf, if_neg hs, if_neg hs]
      exact congrArg (fun t => get16 t k) this
  · intro hclean hne b hb hin
    rcases hwrote b hin with hold | hb'
    · exact hclean b hb hold
    · have hne' : slot'.toNat ≠ 0 := fun he => hne (UInt16.toNat_inj.mp he)
      have hu := hown.used_of_ne (i, sl) (by rw [Function.update_self]; exact hne')
      rw [Function.update_self] at hu
      have h5 : 5 ≤ slot'.toNat := hu.1
      simp only at hb'
      omega

/-! ### Harmless writes -/

/-- The number of direct slots from `j` on that name no block. -/
def holes (ino : Inode) (j : Nat) : Nat :=
  (List.range' j (25 - j)).countP (fun k => ino.directBlock.get k = 0)

theorem holes_step (ino : Inode) {j : Nat} (hj : j < 25) :
    holes ino j = (if ino.directBlock.get j = 0 then 1 else 0) + holes ino (j + 1) := by
  rw [holes, holes, show 25 - j = (25 - (j + 1)) + 1 by omega, List.range'_succ, List.countP_cons,
    Nat.add_comm]
  simp only [decide_eq_true_eq]

theorem holes_congr {ino ino' : Inode} {j : Nat}
    (h : ∀ k, j ≤ k → ino'.directBlock.get k = ino.directBlock.get k) :
    holes ino' j = holes ino j := by
  refine List.countP_congr ?_
  intro k hk
  rw [h k (List.mem_range'_1.mp hk).1]

theorem holes_of_ge (ino : Inode) {j : Nat} (hj : 25 ≤ j) : holes ino j = 0 := by
  rw [holes, show 25 - j = 0 by omega]
  rfl

/-- A write of `nbyte` bytes at `cursor` keeps to blocks of the file.  Behind the direct
blocks, the entry the table is entered at is there if the cursor is inside a block; and
if the file is to get a table, either no block is left for it or all the blocks of the
write are. -/
structure WriteFits (dev : Dev) (ino : Inode) (cursor nbyte : Nat) : Prop where
  entry : 102400 < cursor → cursor % 4096 ≠ 0 → cursor / 4096 < blocksNeeded nbyte →
    tableOf dev.disk ino (cursor / 4096) ≠ 0
  room : ino.singleIndirectBlock = 0 → 102400 < cursor + nbyte →
    freeCount dev.blocksBitmap ≤ holes ino (cursor / 4096) ∨
      holes ino (cursor / 4096) + 1 + blocksNeeded (cursor + nbyte - 102400)
        ≤ freeCount dev.blocksBitmap

/-- If the file is to get a table, either no block is left for it or all the blocks of the
write are. -/
def RoomForTable (dev : Dev) (ino : Inode) (cursor nbyte : Nat) : Prop :=
  ino.singleIndirectBlock = 0 → 102400 < cursor + nbyte →
    freeCount dev.blocksBitmap ≤ holes ino (cursor / 4096) ∨
      holes ino (cursor / 4096) + 1 + blocksNeeded (cursor + nbyte - 102400)
        ≤ freeCount dev.blocksBitmap

/-- A write to inode `i` that loses no table. -/
structure WriteRoom (s : State) (i cursor nbyte : Nat) : Prop where
  start : StartMapped cursor (s.inodeTable.get i)
  room : RoomForTable s.dev (s.inodeTable.get i) cursor nbyte

/-- **A harmless write** to inode `i`: the bytes up to the cursor lie in blocks that are
there, and the write keeps to blocks of the file. -/
structure WriteSafe (s : State) (i cursor nbyte : Nat) : Prop where
  clean : Clean s.dev
  start : StartMapped cursor (s.inodeTable.get i)
  fits : WriteFits s.dev (s.inodeTable.get i) cursor nbyte

theorem WriteSafe.writeRoom {s : State} {i cursor nbyte : Nat} (h : WriteSafe s i cursor nbyte) :
    WriteRoom s i cursor nbyte :=
  ⟨h.start, h.fits.room⟩

/-! ### The invariants of the loops -/

variable {buf : Nat → UInt8} {nbyte cursor : Nat}

structure DirectLedger (s : State) (i cursor nbyte : Nat) (v : WriteVars) : Prop where
  facts : DirectFacts cursor nbyte s.dev (s.inodeTable.get i) v
  ledger : Ledger s i v.dev v.ino (tableOf v.dev.disk v.ino)
  table : ∀ k, tableOf v.dev.disk v.ino k = tableOf s.dev.disk (s.inodeTable.get i) k
  clean : WriteSafe s i cursor nbyte → Clean v.dev
  count : WriteRoom s i cursor nbyte →
    freeCount v.dev.blocksBitmap + holes (s.inodeTable.get i) (cursor / 4096)
      = freeCount s.dev.blocksBitmap + holes v.ino v.block

/-- In the second loop the table on the disk is a part of the one in memory, or it is
still to be written, and then the blocks for it are there. -/
structure TableLedger (s : State) (i cursor nbyte needed : Nat) (ino : Inode) (v : TableVars) :
    Prop where
  ledger : Ledger s i v.dev ino (get16 v.table)
  single : ino.singleIndirectBlock ≠ 0
  bound : needed ≤ 231
  clean : WriteSafe s i cursor nbyte → Clean v.dev
  first : WriteSafe s i cursor nbyte → v.firstBlock = true → cursor % 4096 ≠ 0 →
    v.idx < needed → get16 v.table v.idx ≠ 0
  disk : (∀ k, tableOf v.dev.disk ino k ≠ 0 → tableOf v.dev.disk ino k = get16 v.table k) ∨
    (WriteRoom s i cursor nbyte → needed - v.idx ≤ freeCount v.dev.blocksBitmap)

/-- What an early return leaves: it is for want of a block, and nothing is amiss if no table is
lost. -/
def ExitLedger (s : State) (i cursor nbyte : Nat) (e : WriteExit) : Prop :=
  e.why = .noSpace ∧ Event.found 0 ∈ e.dev.trace ∧
    (WriteRoom s i cursor nbyte → Ledger s i e.dev e.ino (tableOf e.dev.disk e.ino)) ∧
    (WriteSafe s i cursor nbyte → Clean e.dev)

theorem Clean.full (h : Clean dev) : Clean dev.full := by
  intro b hb hin
  rcases List.mem_cons.mp hin with he | hin
  · cases he
  · exact h b hb hin

theorem Ledger.full (h : Ledger s i dev ino tab) : Ledger s i dev.full ino tab :=
  ⟨h.reserved, h.owned, h.tables, h.high⟩

theorem WriteRoom.direct_ne (h : WriteRoom s i cursor nbyte) {v : WriteVars}
    (hv : DirectFacts cursor nbyte s.dev (s.inodeTable.get i) v) (hblock : v.block < 25)
    (hf : v.firstBlock = true) (hc : cursor % 4096 ≠ 0) : v.ino.directBlock.get v.block ≠ 0 := by
  obtain ⟨-, hb⟩ := hv.first hf
  have hne := h.start.block hc (by omega)
  rw [hb, hv.kept.direct _ hne]
  exact hne

theorem DirectLedger.round {v : WriteVars} (h : DirectLedger s i cursor nbyte v)
    (hlt : v.bytesWritten < nbyte) (hblock : v.block < 25) :
    Ensures (writeSlot buf nbyte cursor v.bytesWritten (directData buf nbyte v.bytesWritten)
        v.firstBlock v.dev (v.ino.directBlock.get v.block))
      (fun r => DirectLedger s i cursor nbyte
        ⟨r.1, v.ino.setDirect v.block r.2.1, r.2.2, v.block + 1, false⟩)
      (fun r => ExitLedger s i cursor nbyte
        ⟨r.1, r.2.1, v.ino.setDirect v.block r.2.2, v.bytesWritten⟩) := by
  refine (((h.facts.round hlt hblock).and (writeSlot_grows buf nbyte cursor v.bytesWritten _
    v.firstBlock v.dev _)).and (h.ledger.writeSlot (.direct v.block) (by simp) rfl buf nbyte
      cursor v.bytesWritten _ v.firstBlock)).mono ?_ ?_
  · rintro ⟨dev', slot, written⟩ ⟨⟨hfacts, -, -, hcase⟩, hledger, htable, hclean, hcount⟩
    have htab : tableOf dev'.disk (v.ino.setDirect v.block slot) = tableOf v.dev.disk v.ino :=
      funext htable
    have hne : WriteRoom s i cursor nbyte → slot ≠ 0 := by
      intro hroom
      rcases hcase with ⟨hf, hc, hslot, -⟩ | ⟨-, hslot, -⟩
      · simp only at hslot
        rw [hslot]
        exact hroom.direct_ne h.facts hblock hf hc
      · exact hslot
    refine ⟨hfacts, hledger _ _ ?_ ?_, ?_, ?_, ?_⟩
    · simp only [htab]
      exact writeRef_update (Inode.names_setDirect _ _ hblock slot)
    · simp only [htab]
      exact h.ledger.high
    · intro k
      simp only [htab]
      exact h.table k
    · intro hsafe
      exact hclean (h.clean hsafe) (hne hsafe.writeRoom)
    · intro hroom
      -- a block is taken exactly when the slot was a hole
      have hc0 := h.count hroom
      have hstep := holes_step v.ino hblock
      have hcong : holes (v.ino.setDirect v.block slot) (v.block + 1) = holes v.ino (v.block + 1) :=
        holes_congr fun k hk => Arr.get_set_ne _ (by omega) _
      simp only [hne hroom, ne_eq, not_false_eq_true, and_true] at hcount
      simp only [hcong]
      omega
  · rintro ⟨why, dev', slot⟩ ⟨-, hwhy, hdev, hslot, -⟩
    simp only at hwhy hdev hslot
    subst hwhy hdev
    have hsame : v.ino.setDirect v.block slot = v.ino := by
      rw [hslot, Inode.setDirect, Arr.set_get]
    simp only [hsame]
    exact ⟨rfl, List.mem_cons_self, fun _ => h.ledger.full, fun hsafe => (h.clean hsafe).full⟩

theorem TableLedger.round {needed : Nat} {v : TableVars}
    (h : TableLedger s i cursor nbyte needed ino v) (hidx : v.idx < needed) :
    Ensures (writeSlot buf nbyte cursor v.bytesWritten
        (tableData buf nbyte needed v.idx v.bytesWritten) v.firstBlock v.dev (get16 v.table v.idx))
      (fun r => TableLedger s i cursor nbyte needed ino
        ⟨r.1, set16 v.table v.idx r.2.1, v.idx + 1, r.2.2, false⟩)
      (fun r => ExitLedger s i cursor nbyte ⟨r.1, r.2.1, ino, v.bytesWritten⟩) := by
  have hbound := h.bound
  refine ((writeSlot_grows buf nbyte cursor v.bytesWritten _ v.firstBlock v.dev _).and
    (h.ledger.writeSlot (.entry v.idx) (by simp) rfl buf nbyte cursor v.bytesWritten _
      v.firstBlock)).mono ?_ ?_
  · rintro ⟨dev', slot, written⟩ ⟨⟨-, hkeep, hcase⟩, hledger, htable, hclean, hcount⟩
    simp only at hkeep hcount htable
    have hget : ∀ k, get16 (set16 v.table v.idx slot) k
        = if k = v.idx ∧ v.idx < 2048 then slot else get16 v.table k :=
      fun k => get16_set16 (m := 2048) rfl _ _ _ _
    refine ⟨hledger _ _ (writeRef_update (Inode.names_entry _ _ (by omega) slot)) ?_, h.single, hbound,
      ?_, fun _ hf => absurd hf (by simp), ?_⟩
    · intro k hk
      rw [hget, if_neg (by omega)]
      exact h.ledger.high k hk
    · intro hsafe
      refine hclean (h.clean hsafe) ?_
      rcases hcase with ⟨hf, hc, hslot, -⟩ | ⟨-, hslot, -⟩
      · simp only at hslot
        rw [hslot]
        exact h.first hsafe hf hc hidx
      · exact hslot
    · rcases h.disk with hpart | hroom
      · refine Or.inl ?_
        intro k hk
        simp only [htable] at hk ⊢
        rw [hget, hpart k hk]
        split
        · rename_i hki
          rw [hki.1] at hk ⊢
          exact (hkeep (by rw [← hpart _ hk]; exact hk)).symm
        · rfl
      · refine Or.inr ?_
        intro hok
        have := hroom hok
        simp only
        split at hcount <;> omega
  · rintro ⟨why, dev', slot⟩ ⟨-, hwhy, hdev, -, hfree⟩
    simp only at hwhy hdev
    subst hwhy hdev
    refine ⟨rfl, List.mem_cons_self, fun hok => ?_, fun hsafe => (h.clean hsafe).full⟩
    rcases h.disk with hpart | hroom
    · -- the table in memory is lost, and the one on the disk names a part of its blocks
      exact (h.ledger.part hpart).full
    · have := hroom hok
      omega

/-! ### The whole write -/

theorem blocksNeeded_le {rem m : Nat} (h : rem ≤ 4096 * m) : blocksNeeded rem ≤ m := by
  rw [blocksNeeded]
  refine le_trans (Nat.mod_le _ _) ?_
  split <;> omega

theorem DirectLedger.create {v : WriteVars} (h : DirectLedger s i cursor nbyte v)
    (hmax : cursor + nbyte ≤ 2 ^ 20) (hlt : v.bytesWritten < nbyte) (hblock : 25 ≤ v.block)
    (hs : v.ino.singleIndirectBlock = 0) (hf : findFreeBit v.dev.blocksBitmap ≠ 0) :
    TableLedger s i cursor nbyte (blocksNeeded (nbyte - v.bytesWritten))
      { v.ino with singleIndirectBlock := findFreeBit v.dev.blocksBitmap }
      ⟨v.dev.take (findFreeBit v.dev.blocksBitmap), Arr.fill 0, 0, v.bytesWritten,
        v.firstBlock⟩ := by
  have hleft := h.facts.left_eq hlt hblock
  have htab : tableOf v.dev.disk v.ino = get16 (Arr.fill 0 : Block) := by
    funext k
    rw [get16_fill_zero, tableOf, if_pos hs]
  obtain ⟨h5, hnot, hin⟩ := findFreeBit_data h.ledger.reserved hf
  have hledger := h.ledger
  rw [htab] at hledger
  have hs0 : (s.inodeTable.get i).singleIndirectBlock = 0 := by rw [← h.facts.single, hs]
  -- a write that needs a table starts before it
  have hcursor : WriteRoom s i cursor nbyte → cursor ≤ 102400 := by
    intro hok
    by_contra hgt
    exact hok.start.table (by omega) hs0
  refine ⟨⟨hledger.reserved.setBit _, ?_, hledger.tables, fun k _ => get16_fill_zero k⟩, hf,
    blocksNeeded_le (by omega), ?_, ?_,
    Or.inr ?_⟩
  · rw [writeRef_update (Inode.names_single _ _ _)]
    exact hledger.owned.claim hnot (by omega) (fun b hb => hb.setBit _) hin _
  · intro hsafe b hb hmem
    rcases List.mem_cons.mp hmem with he | hold
    · cases he
    · exact h.clean hsafe b hb hold
  · intro hsafe hfirst hc _
    have := hcursor hsafe.writeRoom
    simp only at hfirst
    rw [hfirst] at hleft
    simp only [true_and, Bool.true_eq_false, false_and, or_false] at hleft
    omega
  · intro hok
    have hc := hcursor hok
    have hcount := h.count hok
    rw [holes_of_ge _ hblock] at hcount
    have htake := freeCount_setBit (findFreeBit_spec hf).1 (findFreeBit_spec hf).2.1
    have hrem : nbyte - v.bytesWritten = cursor + nbyte - 102400 := by omega
    have hroom := hok.room hs0 (by omega)
    rw [← hrem] at hroom
    simp only [Dev.take_blocksBitmap]
    omega

theorem Ledger.leave {t : Block} (h : Ledger s i dev ino (get16 t))
    (hs : ino.singleIndirectBlock ≠ 0) :
    Ledger s i (dev.store ino.singleIndirectBlock.toNat t) ino
      (tableOf (dev.store ino.singleIndirectBlock.toNat t).disk ino) := by
  obtain ⟨-, hlt⟩ := h.table_lt hs
  have htab : tableOf (dev.store ino.singleIndirectBlock.toNat t).disk ino = get16 t := by
    funext k
    rw [tableOf, if_neg hs, Dev.store_disk, Arr.get_set_self _ hlt]
  rw [htab]
  refine ⟨h.reserved, h.owned, ?_, h.high⟩
  intro j hj hsj
  rw [Dev.store_disk, Arr.get_set_ne _ ?_]
  · exact h.tables j hj hsj
  · have hne := h.owned.ne (x := (j, .table)) (y := (i, .table))
      (by rw [writeRef_other hj]; exact fun he => hsj (UInt16.toNat_inj.mp he))
      (fun he => hj (Prod.mk.inj he).1)
    rw [writeRef_other hj, writeRef_own] at hne
    exact hne

theorem Clean.store (h : Clean dev) {b : Nat} (hb : 5 ≤ b) (x : Block) : Clean (dev.store b x) := by
  intro c hc hin
  rcases List.mem_cons.mp hin with he | hold
  · cases he
    omega
  · exact h c hc hold

/-- The obligations of `fs_write` for `Ledger`. -/
theorem writeLedger_proof (buf : Nat → UInt8) (hmax : cursor + nbyte ≤ 2 ^ 20) :
    WriteProof buf nbyte cursor (DirectLedger s i cursor nbyte) (TableLedger s i cursor nbyte)
      (fun v => Ledger s i v.dev v.ino (tableOf v.dev.disk v.ino) ∧
        (WriteSafe s i cursor nbyte → Clean v.dev))
      (ExitLedger s i cursor nbyte) where
  direct v hv hlt hblock := hv.round hlt hblock
  done v hv _ := ⟨hv.ledger, hv.clean⟩
  enter v hv hlt hblock hs _ := by
    have hleft := hv.facts.left_eq hlt hblock
    have htab : tableOf v.dev.disk v.ino = get16 (v.dev.disk.get v.ino.singleIndirectBlock.toNat) := by
      funext k
      rw [tableOf, if_neg hs]
    refine ⟨by rw [← htab]; exact hv.ledger, hs, blocksNeeded_le (by omega), hv.clean,
      ?_, Or.inl fun k _ => by rw [htab]⟩
    intro hsafe hfirst hc hidx
    simp only at hfirst hidx
    rw [hfirst] at hleft
    simp only [true_and, Bool.true_eq_false, false_and, or_false] at hleft
    show get16 (v.dev.disk.get v.ino.singleIndirectBlock.toNat) (cursor / 4096) ≠ 0
    rw [← htab, hv.table]
    refine hsafe.fits.entry (by omega) hc ?_
    rwa [hleft.1, Nat.sub_zero] at hidx
  enterError v hv _ hb := by
    have := (hv.ledger.table_lt (fun he => by rw [he] at hb; exact absurd hb (by decide))).2
    omega
  create v hv hlt hblock hs hf := hv.create hmax hlt hblock hs hf
  createError v hv _ _ _ _ :=
    ⟨rfl, List.mem_cons_self, fun _ => hv.ledger.full, fun hsafe => (hv.clean hsafe).full⟩
  table needed ino v hv hidx := hv.round hidx
  leave needed ino v hv _ _ :=
    ⟨hv.ledger.leave hv.single, fun hsafe =>
      (hv.clean hsafe).store (hv.ledger.table_lt hv.single).1 _⟩
  leaveError needed ino v hv _ hb := by
    have := (hv.ledger.table_lt hv.single).2
    omega

/-- **Every write keeps the ledger** when it goes through, and one that loses no table does
however it ends. -/
theorem writeBlocks_ledger (buf : Nat → UInt8) (hmax : cursor + nbyte ≤ 2 ^ 20)
    (h : Ledger s i s.dev (s.inodeTable.get i) (tableOf s.dev.disk (s.inodeTable.get i))) :
    Ensures (writeBlocks buf nbyte cursor s.dev (s.inodeTable.get i))
      (fun v => Ledger s i v.dev v.ino (tableOf v.dev.disk v.ino) ∧
        (WriteSafe s i cursor nbyte → Clean v.dev))
      (ExitLedger s i cursor nbyte) :=
  (writeLedger_proof buf hmax).sound
    ⟨directFacts_start _ _ _ _, h, fun _ => rfl, fun hsafe => hsafe.clean, fun _ => rfl⟩

end EC440.FileSystems
