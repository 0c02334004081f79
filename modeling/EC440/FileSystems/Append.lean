import EC440.FileSystems.DirectWrite

/-!
# Writing at the end of a file

`writeBlocks_append` is `fs_write` at the end of a file that is laid out as `FileAt` says, up
to the first write that goes past the direct blocks: given the free blocks, it does not stop
early, and the file has the new bytes.  A later write would enter the table at the wrong
place.
-/

namespace EC440.FileSystems

open EC440.Lib

variable {m0 bitmap : Arr 1024 UInt8} {ino ino' : Inode} {tab tab' : Nat → UInt16} {B : Nat}
  {t : Bool} {buf data : Nat → UInt8} {nbyte cursor : Nat} {dev : Dev}

/-! ### The loops -/

/-- The loop over the direct blocks, while the file has no table. -/
structure AppendDirect (m0 : Arr 1024 UInt8) (data : Nat → UInt8) (cursor nbyte : Nat) (dev0 : Dev)
    (ino0 : Inode) (v : WriteVars) : Prop where
  facts : DirectFacts cursor nbyte dev0 ino0 v
  laid : Laid m0 v.dev.blocksBitmap v.ino (fun _ => 0) (blocksOf (cursor + v.bytesWritten)) false
  bytes : ∀ p, p < cursor + v.bytesWritten → byteAt v.dev.disk v.ino (fun _ => 0) p = data p

/-- The loop over the table, from its first entry on. -/
structure AppendTable (m0 : Arr 1024 UInt8) (data : Nat → UInt8) (cursor nbyte needed : Nat)
    (ino : Inode) (v : TableVars) : Prop where
  laid : Laid m0 v.dev.blocksBitmap ino (get16 v.table) (blocksOf (cursor + v.bytesWritten)) true
  bytes : ∀ p, p < cursor + v.bytesWritten → byteAt v.dev.disk ino (get16 v.table) p = data p
  first : v.firstBlock = false ∨ cursor % 4096 = 0
  last : 102400 + 4096 * needed < cursor + nbyte + 4096 ∧ cursor + nbyte ≤ 102400 + 4096 * needed
  pos : v.idx < needed → cursor + v.bytesWritten = 102400 + 4096 * v.idx
  done : needed ≤ v.idx → v.bytesWritten = nbyte

/-- The room an append to `len` bytes needs. -/
def RoomFor (m0 : Arr 1024 UInt8) (len : Nat) : Prop :=
  blocksOf len + (decide (102400 < len)).toNat ≤ freeCount m0

section Direct

variable {dev0 : Dev} {ino0 : Inode} {v : WriteVars}

theorem AppendDirect.directWrite (h : AppendDirect m0 data cursor nbyte dev0 ino0 v)
    (hbuf : ∀ k, k < nbyte → buf k = data (cursor + k)) :
    DirectWrite m0 data buf cursor cursor nbyte dev0 ino0 v := by
  have hmax : max cursor (cursor + v.bytesWritten) = cursor + v.bytesWritten := by omega
  have hle := h.facts.le
  refine ⟨h.facts, by rw [hmax]; exact h.laid, ?_⟩
  rw [hmax]
  intro q hq
  rw [h.bytes q hq, patched_append (fun k hk => hbuf k (by omega)) hq]

theorem DirectWrite.append (h : DirectWrite m0 data buf cursor cursor nbyte dev0 ino0 v)
    (hbuf : ∀ k, k < nbyte → buf k = data (cursor + k)) :
    AppendDirect m0 data cursor nbyte dev0 ino0 v := by
  have hmax : max cursor (cursor + v.bytesWritten) = cursor + v.bytesWritten := by omega
  have hle := h.facts.le
  have hlaid := h.laid
  have hbytes := h.bytes
  rw [hmax] at hlaid hbytes
  refine ⟨h.facts, hlaid, ?_⟩
  intro q hq
  rw [hbytes q hq, patched_append (fun k hk => hbuf k (by omega)) hq]

theorem AppendDirect.round (h : AppendDirect m0 data cursor nbyte dev0 ino0 v)
    (hbuf : ∀ k, k < nbyte → buf k = data (cursor + k)) (hlt : v.bytesWritten < nbyte)
    (hblock : v.block < 25) :
    Ensures (writeSlot buf nbyte cursor v.bytesWritten (directData buf nbyte v.bytesWritten)
        v.firstBlock v.dev (v.ino.directBlock.get v.block))
      (fun r => AppendDirect m0 data cursor nbyte dev0 ino0
        ⟨r.1, v.ino.setDirect v.block r.2.1, r.2.2, v.block + 1, false⟩)
      (NoBlockLeft v.dev (v.ino.directBlock.get v.block)) :=
  ((h.directWrite hbuf).round (le_refl _) hlt hblock).mono (fun _ hr => hr.append hbuf)
    (fun _ hr => hr)

end Direct

section Table

variable {needed : Nat} {v : TableVars}

theorem tableData_snd (buf : Nat → UInt8) {idx pos : Nat} (hidx : idx < needed)
    (hpos : cursor + pos = 102400 + 4096 * idx)
    (hlast : 102400 + 4096 * needed < cursor + nbyte + 4096 ∧
      cursor + nbyte ≤ 102400 + 4096 * needed) :
    (tableData buf nbyte needed idx pos).2 ≤ nbyte ∧
      cursor + (tableData buf nbyte needed idx pos).2 ≤ 102400 + 4096 * (idx + 1) ∧
      pos < (tableData buf nbyte needed idx pos).2 ∧
      (idx + 1 < needed →
        cursor + (tableData buf nbyte needed idx pos).2 = 102400 + 4096 * (idx + 1)) ∧
      (needed ≤ idx + 1 → (tableData buf nbyte needed idx pos).2 = nbyte) := by
  rw [tableData]
  split
  · refine ⟨le_refl _, ?_, ?_, ?_, fun _ => rfl⟩ <;> simp only <;> omega
  · refine ⟨?_, ?_, ?_, ?_, ?_⟩ <;> simp only <;> omega

theorem AppendTable.round (h : AppendTable m0 data cursor nbyte needed ino v)
    (hmax : cursor + nbyte ≤ 2 ^ 20) (hbuf : ∀ k, k < nbyte → buf k = data (cursor + k))
    (hidx : v.idx < needed) :
    Ensures (writeSlot buf nbyte cursor v.bytesWritten
        (tableData buf nbyte needed v.idx v.bytesWritten) v.firstBlock v.dev (get16 v.table v.idx))
      (fun r => AppendTable m0 data cursor nbyte needed ino
        ⟨r.1, set16 v.table v.idx r.2.1, v.idx + 1, r.2.2, false⟩)
      (NoBlockLeft v.dev (get16 v.table v.idx)) := by
  have hpos := h.pos hidx
  have hlast := h.last
  have hB : blocksOf (cursor + v.bytesWritten) = 25 + v.idx := by
    rw [hpos, blocksOf]
    omega
  have hlaid := h.laid
  have hbytes := h.bytes
  rw [hB] at hlaid
  rw [show cursor + v.bytesWritten = 4096 * (25 + v.idx) by omega] at hbytes
  have hslot : blockSlot (25 + v.idx) = .entry v.idx := by
    rw [blockSlot, if_neg (by omega), show 25 + v.idx - 25 = v.idx by omega]
  have hzero : get16 v.table v.idx = 0 := by
    by_contra hne
    have := (hlaid.mapped (25 + v.idx)).mp (by
      rw [hslot]
      exact fun he => hne (UInt16.toNat_inj.mp he))
    omega
  have hd := tableData_snd buf hidx hpos hlast
  have hnames := Inode.names_entry ino v.table (k := v.idx) (by omega)
    (findFreeBit v.dev.blocksBitmap)
  rw [← hslot] at hnames
  have hblocks : blocksOf (cursor + (tableData buf nbyte needed v.idx v.bytesWritten).2)
      = 25 + v.idx + 1 := by
    rw [blocksOf]
    omega
  refine hlaid.writeSlot h.first hzero _ _ fun hf => ?_
  have hadd := hlaid.appendBytes (cursor + (tableData buf nbyte needed v.idx v.bytesWritten).2)
    (x := (tableData buf nbyte needed v.idx v.bytesWritten).1) hf hnames hbytes (by omega)
    (fun k hk hlt' => by
      rw [get_tableData hk (by omega), hbuf _ (by omega)]
      congr 1
      omega)
  refine ⟨?_, hadd.2, Or.inl rfl, hlast, hd.2.2.2.1, hd.2.2.2.2⟩
  rw [hblocks]
  exact hadd.1

theorem AppendDirect.behind {dev0 : Dev} {ino0 : Inode} {v : WriteVars}
    (h : AppendDirect m0 data cursor nbyte dev0 ino0 v) (hcur : cursor ≤ 102400)
    (hlt : v.bytesWritten < nbyte) (hblock : 25 ≤ v.block) :
    cursor + v.bytesWritten = 102400 ∧ (v.firstBlock = false ∨ cursor % 4096 = 0) := by
  rcases h.facts.left_eq hlt hblock with ⟨-, h0, hc⟩ | ⟨hf, hc⟩
  · exact ⟨by omega, Or.inr (by omega)⟩
  · exact ⟨hc, Or.inl hf⟩

theorem AppendDirect.create {dev0 : Dev} {ino0 : Inode} {v : WriteVars}
    (h : AppendDirect m0 data cursor nbyte dev0 ino0 v) (hcur : cursor ≤ 102400)
    (hmax : cursor + nbyte ≤ 2 ^ 20) (hlt : v.bytesWritten < nbyte) (hblock : 25 ≤ v.block)
    (hf : findFreeBit v.dev.blocksBitmap ≠ 0) :
    AppendTable m0 data cursor nbyte (blocksNeeded (nbyte - v.bytesWritten))
      { v.ino with singleIndirectBlock := findFreeBit v.dev.blocksBitmap }
      ⟨v.dev.take (findFreeBit v.dev.blocksBitmap), Arr.fill 0, 0, v.bytesWritten,
        v.firstBlock⟩ := by
  have hpos := h.behind hcur hlt hblock
  have htab : (fun _ => 0 : Nat → UInt16) = get16 (Arr.fill 0 : Block) := by
    funext k
    rw [get16_fill_zero]
  have hneeded : 4096 * blocksNeeded (nbyte - v.bytesWritten) < nbyte - v.bytesWritten + 4096 ∧
      nbyte - v.bytesWritten ≤ 4096 * blocksNeeded (nbyte - v.bytesWritten) := by
    rw [blocksNeeded]
    split <;> omega
  have hlaid := h.laid
  have hbytes := h.bytes
  rw [htab] at hlaid hbytes
  refine ⟨?_, ?_, hpos.2, by omega, fun _ => hpos.1, ?_⟩
  · exact hlaid.addTable hf (Inode.names_single _ _ _)
  · intro p hp
    rw [byteAt, Inode.names_single, Function.update_of_ne (blockSlot_ne_table _)]
    exact hbytes p hp
  · intro hle
    simp only at hle
    omega

end Table

/-! ### The whole write -/

/-- What the direct loop has written so far is a file. -/
theorem AppendDirect.fileAt {dev0 : Dev} {ino0 : Inode} {v : WriteVars}
    (h : AppendDirect m0 data cursor nbyte dev0 ino0 v) (hcur : cursor ≤ 102400) :
    cursor + v.bytesWritten ≤ 102400 ∧ FileAt m0 v.dev v.ino data (cursor + v.bytesWritten) := by
  have hlen : cursor + v.bytesWritten ≤ 102400 := by
    cases hf : v.firstBlock with
    | true =>
      have := (h.facts.first hf).1
      omega
    | false =>
      have := h.facts.later hf
      omega
  exact ⟨hlen, h.laid.fileAt hlen h.bytes⟩

theorem AppendTable.fileAt {needed : Nat} {v : TableVars}
    (h : AppendTable m0 data cursor nbyte needed ino v) (hdone : needed ≤ v.idx)
    (hlong : 102400 < cursor + nbyte) :
    v.bytesWritten = nbyte ∧ FileAt m0 (v.dev.store ino.singleIndirectBlock.toNat v.table) ino data
      (cursor + nbyte) := by
  have hbw := h.done hdone
  have hs := h.laid.table.mpr rfl
  have hne : ino.names (get16 v.table) .table ≠ 0 := fun he => hs (UInt16.toNat_inj.mp he)
  have hlt : ino.singleIndirectBlock.toNat < 8192 := (h.laid.owned.used_of_ne _ hne).1
  have htab : tableOf (v.dev.store ino.singleIndirectBlock.toNat v.table).disk ino
      = get16 v.table := by
    funext k
    rw [tableOf, if_neg hs, Dev.store_disk, Arr.get_set_self _ hlt]
  have hlaid := h.laid
  have hbytes := h.bytes
  rw [hbw] at hlaid hbytes
  refine ⟨hbw, ⟨?_, ?_⟩⟩
  · rw [htab, decide_eq_true hlong]
    exact hlaid
  · intro p hp
    have hblock : ino.names (get16 v.table) (blockSlot (p / 4096)) ≠ 0 :=
      (hlaid.mapped _).mpr (by rw [blocksOf]; omega)
    rw [htab, byteAt, Dev.store_disk, Arr.get_set_ne _ ?_]
    · exact hbytes p hp
    · exact hlaid.owned.ne hblock (blockSlot_ne_table _)

/-! ### A write that runs out of blocks -/

/-- The free blocks of `dev'` were free in `dev` and are as they were. -/
def FreeKept (dev dev' : Dev) : Prop :=
  ∀ b, getBit b dev'.blocksBitmap = false →
    getBit b dev.blocksBitmap = false ∧ dev'.disk.get b = dev.disk.get b

/-- The table in memory is lost: on the disk its block, which was free, is as it was. -/
structure TableLost (m0 : Arr 1024 UInt8) (data : Nat → UInt8) (len : Nat) (dev dev' : Dev)
    (ino : Inode) (t : Block) : Prop where
  laid : Laid m0 dev'.blocksBitmap ino (get16 t) (blocksOf len) true
  bytes : ∀ p, p < len → byteAt dev'.disk ino (get16 t) p = data p
  free : getBit ino.singleIndirectBlock.toNat dev.blocksBitmap = false
  stale : dev'.disk.get ino.singleIndirectBlock.toNat = dev.disk.get ino.singleIndirectBlock.toNat

/-- **What a write leaves that runs out of blocks**: a file that ends with a whole block; or,
when it has taken a block for the table, one whose table is lost. -/
structure AppendExit (m0 : Arr 1024 UInt8) (data : Nat → UInt8) (cursor nbyte : Nat) (dev : Dev)
    (e : WriteExit) : Prop where
  why : e.why = .noSpace
  full : freeCount e.dev.blocksBitmap = 0
  lt : e.bytesWritten < nbyte
  whole : (cursor + e.bytesWritten) % 4096 = 0
  left : (FileAt m0 e.dev e.ino data (cursor + e.bytesWritten) ∧
      cursor + e.bytesWritten ≤ 102400) ∨
    ∃ t, TableLost m0 data (cursor + e.bytesWritten) dev e.dev e.ino t ∧
      102400 ≤ cursor + e.bytesWritten

theorem FreeKept.refl (dev : Dev) : FreeKept dev dev := fun _ hb => ⟨hb, rfl⟩

/-- The rounds of the direct loop write to marked blocks. -/
theorem AppendDirect.freeKept {dev0 dev dev' : Dev} {ino0 : Inode} {v : WriteVars} {slot : UInt16}
    {written : Nat} (h : AppendDirect m0 data cursor nbyte dev0 ino0
      ⟨dev', v.ino.setDirect v.block slot, written, v.block + 1, false⟩) (hblock : v.block < 25)
    (hfree : FreeKept dev v.dev) (hgrows : Grows v.dev dev')
    (hdisk : ∀ b, b ≠ slot.toNat → dev'.disk.get b = v.dev.disk.get b) : FreeKept dev dev' := by
  intro b hb
  have hold : getBit b v.dev.blocksBitmap = false := by
    refine Bool.eq_false_iff.mpr ?_
    intro hset
    rw [hgrows.bits b hset] at hb
    cases hb
  have hself := names_setDirect_self v.ino (fun _ => 0) hblock slot
  have hne : b ≠ slot.toNat := by
    rintro rfl
    by_cases h0 : slot.toNat = 0
    · rw [h0, h.laid.kept 0 h.laid.zero] at hb
      cases hb
    · have := (h.laid.owned.used_of_ne (blockSlot v.block) (by rw [hself]; exact h0)).2.1
      rw [hself, hb] at this
      cases this
  exact ⟨(hfree b hold).1, (hdisk b hne).trans (hfree b hold).2⟩

theorem AppendTable.stale {needed : Nat} {dev' : Dev} {v : TableVars} {slot : UInt16}
    {written : Nat} (h : AppendTable m0 data cursor nbyte needed ino
      ⟨dev', set16 v.table v.idx slot, v.idx + 1, written, false⟩) (hidx : v.idx < 2048)
    (hdisk : ∀ b, b ≠ slot.toNat → dev'.disk.get b = v.dev.disk.get b) :
    dev'.disk.get ino.singleIndirectBlock.toNat
      = v.dev.disk.get ino.singleIndirectBlock.toNat := by
  have hs := h.laid.table.mpr rfl
  have hne := h.laid.owned.ne (x := .table) (y := .entry v.idx)
    (fun he => hs (UInt16.toNat_inj.mp he)) (by simp)
  rw [Inode.names_entry _ _ hidx, Function.update_self,
    Function.update_of_ne (by simp)] at hne
  exact hdisk _ hne

/-- A write at the end of a file of at most `102400` bytes is done in full, or runs out of
blocks. -/
theorem writeBlocks_append_cases (h : FileAt m0 dev ino data cursor) (hcur : cursor ≤ 102400)
    (hmax : cursor + nbyte ≤ 2 ^ 20) (hbuf : ∀ k, k < nbyte → buf k = data (cursor + k)) :
    Ensures (writeBlocks buf nbyte cursor dev ino)
      (fun v => v.bytesWritten = nbyte ∧ FileAt m0 v.dev v.ino data (cursor + nbyte))
      (AppendExit m0 data cursor nbyte dev) := by
  have hproof : WriteProof buf nbyte cursor
      (fun v => AppendDirect m0 data cursor nbyte dev ino v ∧ FreeKept dev v.dev)
      (fun needed ino' v => AppendTable m0 data cursor nbyte needed ino' v ∧ needed ≤ 2048 ∧
        102400 < cursor + nbyte ∧ getBit ino'.singleIndirectBlock.toNat dev.blocksBitmap = false ∧
        v.dev.disk.get ino'.singleIndirectBlock.toNat
          = dev.disk.get ino'.singleIndirectBlock.toNat)
      (fun v => v.bytesWritten = nbyte ∧ FileAt m0 v.dev v.ino data (cursor + nbyte))
      (AppendExit m0 data cursor nbyte dev) :=
    { direct := by
        rintro v ⟨hv, hfree⟩ hlt hblock
        refine (((hv.round hbuf hlt hblock).and (writeSlot_grows buf nbyte cursor v.bytesWritten _
          v.firstBlock v.dev _)).and (writeSlot_disk buf nbyte cursor v.bytesWritten _ v.firstBlock
          v.dev _)).mono ?_ ?_
        · rintro r ⟨⟨hr, hgrows, -⟩, hdisk⟩
          exact ⟨hr, hr.freeKept hblock hfree hgrows hdisk⟩
        · rintro r ⟨⟨⟨rfl, hslot, hfull⟩, -⟩, -⟩
          have hsame : v.ino.setDirect v.block (v.ino.directBlock.get v.block) = v.ino := by
            rw [Inode.setDirect, Arr.set_get]
          have hlow := ((hv.directWrite hbuf).at hlt).1
          have hhole : ¬ v.block < blocksOf (cursor + v.bytesWritten) := by
            rw [← hv.laid.mapped, names_direct _ _ hblock, hslot]
            exact fun hne => hne rfl
          rw [blocksOf] at hhole
          obtain ⟨hle, hfile⟩ := hv.fileAt hcur
          simp only [hsame]
          exact ⟨rfl, hfull, hlt, by simp only; omega, Or.inl ⟨⟨hfile.laid, hfile.bytes⟩, hle⟩⟩
      done := by
        rintro v ⟨hv, -⟩ hdone
        have hbw : v.bytesWritten = nbyte := le_antisymm hv.facts.le hdone
        have hfile := (hv.fileAt hcur).2
        rw [hbw] at hfile
        exact ⟨hbw, hfile⟩
      enter := fun v hv _ _ hs _ => absurd hv.1.laid.single_eq_zero hs
      enterError := fun v hv _ hb => by
        rw [hv.1.laid.single_eq_zero] at hb
        exact absurd hb (by decide)
      create := by
        rintro v ⟨hv, hfree⟩ hlt hblock - hf
        have hpos := (hv.behind hcur hlt hblock).1
        have hold := hfree _ (findFreeBit_spec hf).2.1
        exact ⟨hv.create hcur hmax hlt hblock hf, blocksNeeded_le (by omega), by omega, hold.1,
          hold.2⟩
      createError := by
        rintro v ⟨hv, -⟩ hlt hblock - hf
        have hpos := (hv.behind hcur hlt hblock).1
        obtain ⟨hle, hfile⟩ := hv.fileAt hcur
        exact ⟨rfl, freeCount_of_findFreeBit_eq_zero (hv.laid.kept 0 hv.laid.zero) hf, hlt,
          by simp only; omega, Or.inl ⟨⟨hfile.laid, hfile.bytes⟩, hle⟩⟩
      table := by
        rintro needed ino' v ⟨hv, hneeded, hlong, hold, hstale⟩ hidx
        have hpos := hv.pos hidx
        have hlast := hv.last
        refine ((hv.round hmax hbuf hidx).and (writeSlot_disk buf nbyte cursor v.bytesWritten _
          v.firstBlock v.dev _)).mono ?_ ?_
        · rintro r ⟨hr, hdisk⟩
          exact ⟨hr, hneeded, hlong, hold, (hr.stale (by omega) hdisk).trans hstale⟩
        · rintro r ⟨⟨rfl, -, hfull⟩, -⟩
          exact ⟨rfl, hfull, by simp only; omega, by simp only; omega,
            Or.inr ⟨v.table, ⟨hv.laid, hv.bytes, hold, hstale⟩, by simp only; omega⟩⟩
      leave := fun needed ino' v hv hdone _ => hv.1.fileAt hdone hv.2.2.1
      leaveError := fun needed ino' v hv _ hb => by
        have hs := hv.1.laid.table.mpr rfl
        have := (hv.1.laid.owned.used_of_ne .table fun he => hs (UInt16.toNat_inj.mp he)).1
        rw [Inode.names] at this
        omega }
  obtain ⟨-, hlaid, hbytes⟩ := h.direct hcur
  exact hproof.sound ⟨⟨directFacts_start _ _ _ _, hlaid, hbytes⟩, FreeKept.refl dev⟩

theorem AppendExit.count {e : WriteExit} (h : AppendExit m0 data cursor nbyte dev e) :
    freeCount m0 < blocksOf (cursor + nbyte) + (decide (102400 < cursor + nbyte)).toNat := by
  have hfull := h.full
  have hlt := h.lt
  have hwhole := h.whole
  rcases h.left with ⟨hfile, hle⟩ | ⟨t, hlost, hge⟩
  · have hcount := hfile.laid.count
    rw [decide_eq_false (show ¬ 102400 < cursor + e.bytesWritten by omega), blocksOf] at hcount
    simp only [Bool.toNat_false] at hcount
    rw [blocksOf]
    omega
  · have hcount := hlost.laid.count
    rw [blocksOf] at hcount
    simp only [Bool.toNat_true] at hcount
    rw [decide_eq_true (show 102400 < cursor + nbyte by omega), blocksOf]
    simp only [Bool.toNat_true]
    omega

/-- **A write at the end of a file** of at most `102400` bytes is done in full when the
blocks for it are there. -/
theorem writeBlocks_append (h : FileAt m0 dev ino data cursor) (hcur : cursor ≤ 102400)
    (hmax : cursor + nbyte ≤ 2 ^ 20) (hroom : RoomFor m0 (cursor + nbyte))
    (hbuf : ∀ k, k < nbyte → buf k = data (cursor + k)) :
    Ensures (writeBlocks buf nbyte cursor dev ino)
      (fun v => v.bytesWritten = nbyte ∧ FileAt m0 v.dev v.ino data (cursor + nbyte))
      (fun _ => False) := by
  refine (writeBlocks_append_cases h hcur hmax hbuf).mono (fun _ hv => hv) ?_
  intro e he
  have := he.count
  rw [RoomFor] at hroom
  omega

end EC440.FileSystems
