import EC440.FileSystems.Laid

/-!
# Writing into the direct blocks of a file

A write into a file without a table, at a cursor that is not behind the end of the file.  The
first round reads the block of the cursor when the cursor is inside of it; all other rounds
write whole blocks, and the last one fills what it does not need with zeros.  So a write may
change bytes behind the ones it is asked to write: those from its end to the end of that block
(`Padded`).  `patched` is what becomes of the bytes of the file.

`DirectWrite` is the invariant of the loop, and `DirectWrite.round` one round: it stops early
only because no block is free.
-/

namespace EC440.FileSystems

open EC440.Lib

/-- Byte `q` lies behind the end of a write of `n` bytes at `cursor`, in the last block of the
write, and that block is not read before it is written. -/
def Padded (cursor n q : Nat) : Prop :=
  0 < n ∧ cursor + n ≤ q ∧ q / 4096 = (cursor + n - 1) / 4096 ∧
    (cursor % 4096 = 0 ∨ cursor / 4096 < q / 4096)

instance (cursor n q : Nat) : Decidable (Padded cursor n q) := by
  rw [Padded]
  infer_instance

/-- Byte `q` of a file with the bytes `data`, after `n` bytes of `buf` are written at
`cursor`. -/
def patched (data buf : Nat → UInt8) (cursor n q : Nat) : UInt8 :=
  if cursor ≤ q ∧ q < cursor + n then buf (q - cursor)
  else if Padded cursor n q then 0
  else data q

variable {m0 : Arr 1024 UInt8} {data buf : Nat → UInt8} {len cursor nbyte n n' b q : Nat}

theorem patched_zero : patched data buf cursor 0 q = data q := by
  rw [patched, if_neg (by omega), if_neg (fun h => absurd h.1 (by omega))]

theorem patched_written (h : cursor ≤ q) (hlt : q < cursor + n) :
    patched data buf cursor n q = buf (q - cursor) := if_pos ⟨h, hlt⟩

theorem patched_padded (h : Padded cursor n q) : patched data buf cursor n q = 0 := by
  rw [patched, if_neg (by have := h.2.1; omega), if_pos h]

theorem patched_kept (h : q < cursor ∨ cursor + n ≤ q) (hp : ¬ Padded cursor n q) :
    patched data buf cursor n q = data q := by
  rw [patched, if_neg (by omega), if_neg hp]

theorem patched_append (hbuf : ∀ k, k < n → buf k = data (cursor + k)) (hq : q < cursor + n) :
    patched data buf cursor n q = data q := by
  by_cases hc : cursor ≤ q
  · rw [patched_written hc hq, hbuf _ (by omega), Nat.add_sub_of_le hc]
  · exact patched_kept (by omega) (fun hp => by have := hp.2.1; omega)

theorem patched_other (hlow : 4096 * b ≤ cursor + n) (hn : n < n')
    (hend : cursor + n' ≤ 4096 * (b + 1)) (hq : q / 4096 ≠ b) :
    patched data buf cursor n' q = patched data buf cursor n q := by
  have hno' : ¬ Padded cursor n' q := by
    rintro ⟨-, hle, heq, -⟩
    omega
  have hno : ¬ Padded cursor n q := by
    rintro ⟨-, hle, heq, -⟩
    omega
  by_cases hin : cursor ≤ q ∧ q < cursor + n
  · rw [patched_written hin.1 hin.2, patched_written hin.1 (by omega)]
  · rw [patched_kept (by omega) hno, patched_kept (by omega) hno']

/-! ### What a round writes -/

/-- Behind the end of the write, a block of data has zeros. -/
theorem get_directData_rest {pos k : Nat} (hk : k < 4096)
    (hge : (directData buf nbyte pos).2 ≤ pos + k) : (directData buf nbyte pos).1.get k = 0 := by
  rw [directData] at hge ⊢
  split at hge
  · simp only at hge
    omega
  · rename_i h
    rw [if_neg h]
    simp only at hge
    show (paddedBlock buf pos (nbyte - pos)).get k = 0
    rw [paddedBlock, Arr.get_blit _ _ _ _ hk, if_neg (by omega), Arr.get_fill 0 hk]

/-- A block that is written whole. -/
theorem directData_patched {pos k : Nat} (hpos : cursor + pos = 4096 * b) (hlt : pos < nbyte)
    (hk : k < 4096) : (directData buf nbyte pos).1.get k
      = patched data buf cursor (directData buf nbyte pos).2 (4096 * b + k) := by
  have hd := directData_snd buf hlt
  by_cases hin : pos + k < (directData buf nbyte pos).2
  · rw [get_directData hk hin, patched_written (by omega) (by omega)]
    congr 1
    omega
  · rw [get_directData_rest hk (by omega), patched_padded ⟨by omega, by omega, by omega, by omega⟩]

/-- The block of the cursor, when the cursor is inside of it. -/
theorem blit_patched {x : Block} {k : Nat} (hn : 0 < nbyte) (hc : cursor % 4096 ≠ 0)
    (hb : b = cursor / 4096) (hk : k < 4096)
    (hx : 4096 * b + k < cursor ∨ cursor + firstWriteSize nbyte cursor ≤ 4096 * b + k →
      x.get k = data (4096 * b + k)) :
    (x.blit (cursor % 4096) buf (firstWriteSize nbyte cursor)).get k
      = patched data buf cursor (firstWriteSize nbyte cursor) (4096 * b + k) := by
  have hws := firstWriteSize_le nbyte cursor
  rw [Arr.get_blit _ _ _ _ hk]
  split
  · rw [patched_written (by omega) (by omega)]
    congr 1
    omega
  · rw [hx (by omega), patched_kept (by omega) (fun hp => by have := hp.2; omega)]

/-! ### The loop -/

/-- The loop over the direct blocks, in a file of `len` bytes that has no table. -/
structure DirectWrite (m0 : Arr 1024 UInt8) (data buf : Nat → UInt8) (len cursor nbyte : Nat)
    (dev0 : Dev) (ino0 : Inode) (v : WriteVars) : Prop where
  facts : DirectFacts cursor nbyte dev0 ino0 v
  laid : Laid m0 v.dev.blocksBitmap v.ino (fun _ => 0)
    (blocksOf (max len (cursor + v.bytesWritten))) false
  bytes : ∀ q, q < max len (cursor + v.bytesWritten) →
    byteAt v.dev.disk v.ino (fun _ => 0) q = patched data buf cursor v.bytesWritten q

variable {dev0 : Dev} {ino0 : Inode} {v : WriteVars}

/-- Where the loop stands. -/
theorem DirectWrite.at (h : DirectWrite m0 data buf len cursor nbyte dev0 ino0 v)
    (hlt : v.bytesWritten < nbyte) : 4096 * v.block ≤ cursor + v.bytesWritten ∧
      (v.firstBlock = false ∨ cursor % 4096 = 0 → cursor + v.bytesWritten = 4096 * v.block) := by
  cases hf : v.firstBlock with
  | true =>
    obtain ⟨h0, hb⟩ := h.facts.first hf
    refine ⟨by omega, ?_⟩
    rintro (h1 | h1)
    · cases h1
    · omega
  | false =>
    have := (h.facts.later hf).2.2 hlt
    exact ⟨by omega, fun _ => this⟩

theorem DirectWrite.store (h : DirectWrite m0 data buf len cursor nbyte dev0 ino0 v)
    (hlt : v.bytesWritten < nbyte) {ino : Inode} {bitmap : Arr 1024 UInt8} {x : Block}
    (hn : v.bytesWritten < n) (hend : cursor + n ≤ 4096 * (v.block + 1))
    (hlaid : Laid m0 bitmap ino (fun _ => 0) (blocksOf (max len (cursor + n))) false)
    (hsame : ∀ c, c ≠ v.block →
      ino.names (fun _ => 0) (blockSlot c) = v.ino.names (fun _ => 0) (blockSlot c))
    (hx : ∀ k, k < 4096 → 4096 * v.block + k < max len (cursor + n) →
      x.get k = patched data buf cursor n (4096 * v.block + k)) :
    ∀ q, q < max len (cursor + n) →
      byteAt (v.dev.disk.set (ino.names (fun _ => 0) (blockSlot v.block)) x) ino (fun _ => 0) q
        = patched data buf cursor n q := by
  obtain ⟨hlow, -⟩ := h.at hlt
  have hne : ino.names (fun _ => 0) (blockSlot v.block) ≠ 0 :=
    (hlaid.mapped _).mpr (by rw [blocksOf]; omega)
  intro q hq
  have hold : q / 4096 ≠ v.block → q < max len (cursor + v.bytesWritten) := by omega
  rw [byteAt_set hlaid.owned (hlaid.owned.used_of_ne _ hne).1 hsame
    (fun hqb => (h.laid.mapped _).mpr (by have := hold hqb; rw [blocksOf]; omega))]
  split
  · rw [hx (q % 4096) (by omega) (by omega)]
    congr 1
    omega
  · rename_i hqb
    rw [h.bytes q (hold hqb), patched_other hlow hn hend hqb]

/-- What a round makes of the inode and the bytes. -/
def RoundDone (m0 : Arr 1024 UInt8) (data buf : Nat → UInt8) (len cursor : Nat) (v : WriteVars)
    (r : Dev × UInt16 × Nat) : Prop :=
  Laid m0 r.1.blocksBitmap (v.ino.setDirect v.block r.2.1) (fun _ => 0)
      (blocksOf (max len (cursor + r.2.2))) false ∧
    ∀ q, q < max len (cursor + r.2.2) →
      byteAt r.1.disk (v.ino.setDirect v.block r.2.1) (fun _ => 0) q
        = patched data buf cursor r.2.2 q

theorem names_direct (ino : Inode) (tab : Nat → UInt16) {j : Nat} (hj : j < 25) :
    ino.names tab (blockSlot j) = (ino.directBlock.get j).toNat := by
  rw [blockSlot, if_pos hj]
  rfl

theorem names_setDirect_self (ino : Inode) (tab : Nat → UInt16) {j : Nat} (hj : j < 25)
    (slot : UInt16) : (ino.setDirect j slot).names tab (blockSlot j) = slot.toNat := by
  rw [names_direct _ _ hj]
  show ((ino.directBlock.set j slot).get j).toNat = slot.toNat
  rw [Arr.get_set_self _ hj]

/-- A round on a block the file has: `x` is written there. -/
theorem DirectWrite.rewrite (h : DirectWrite m0 data buf len cursor nbyte dev0 ino0 v)
    (hlt : v.bytesWritten < nbyte) (hblock : v.block < 25) {x : Block}
    (hb : 4096 * v.block < max len (cursor + v.bytesWritten)) (hn : v.bytesWritten < n)
    (hend : cursor + n ≤ 4096 * (v.block + 1))
    (hx : ∀ k, k < 4096 → 4096 * v.block + k < max len (cursor + n) →
      x.get k = patched data buf cursor n (4096 * v.block + k)) :
    RoundDone m0 data buf len cursor v
      (v.dev.store (v.ino.directBlock.get v.block).toNat x, v.ino.directBlock.get v.block, n) := by
  have hsame : v.ino.setDirect v.block (v.ino.directBlock.get v.block) = v.ino := by
    rw [Inode.setDirect, Arr.set_get]
  have hblocks : blocksOf (max len (cursor + n)) = blocksOf (max len (cursor + v.bytesWritten)) := by
    have := (h.at hlt).1
    rw [blocksOf, blocksOf]
    omega
  have hlaid := h.laid
  rw [← hblocks] at hlaid
  rw [RoundDone]
  simp only [hsame]
  refine ⟨hlaid, ?_⟩
  rw [Dev.store_disk, ← names_direct v.ino (fun _ => 0) hblock]
  exact h.store hlt hn hend hlaid (fun _ _ => rfl) hx

/-- A round on the next slot, when a block is free. -/
theorem DirectWrite.next (h : DirectWrite m0 data buf len cursor nbyte dev0 ino0 v)
    (hlt : v.bytesWritten < nbyte) (hblock : v.block < 25)
    (hpos : cursor + v.bytesWritten = 4096 * v.block) (hlen : len ≤ 4096 * v.block)
    (hf : findFreeBit v.dev.blocksBitmap ≠ 0) :
    RoundDone m0 data buf len cursor v
      ((v.dev.take (findFreeBit v.dev.blocksBitmap)).store (findFreeBit v.dev.blocksBitmap).toNat
          (directData buf nbyte v.bytesWritten).1, findFreeBit v.dev.blocksBitmap,
        (directData buf nbyte v.bytesWritten).2) := by
  have hd := directData_snd buf hlt
  have hB : blocksOf (max len (cursor + v.bytesWritten)) = v.block := by
    rw [blocksOf]
    omega
  have hB' : blocksOf (max len (cursor + (directData buf nbyte v.bytesWritten).2)) = v.block + 1 := by
    rw [blocksOf]
    omega
  have hnames := Inode.names_setDirect v.ino (fun _ => 0) hblock (findFreeBit v.dev.blocksBitmap)
  rw [← show blockSlot v.block = .direct v.block from if_pos hblock] at hnames
  have hlaid := h.laid
  rw [hB] at hlaid
  have hlaid' := hlaid.append hf hnames
  rw [← hB'] at hlaid'
  have hself := names_setDirect_self v.ino (fun _ => 0) hblock (findFreeBit v.dev.blocksBitmap)
  refine ⟨hlaid', ?_⟩
  simp only [Dev.store_disk, Dev.take_disk]
  rw [← hself]
  refine h.store hlt (by omega) (by omega) hlaid' ?_ (fun k hk _ => directData_patched hpos hlt hk)
  intro c hc
  rw [hnames, Function.update_of_ne (fun he => hc (blockSlot_inj he))]

/-- **A round of the direct loop** writes its block, or stops because no block is free. -/
theorem DirectWrite.round (h : DirectWrite m0 data buf len cursor nbyte dev0 ino0 v)
    (hcur : cursor ≤ len) (hlt : v.bytesWritten < nbyte) (hblock : v.block < 25) :
    Ensures (writeSlot buf nbyte cursor v.bytesWritten (directData buf nbyte v.bytesWritten)
        v.firstBlock v.dev (v.ino.directBlock.get v.block))
      (fun r => DirectWrite m0 data buf len cursor nbyte dev0 ino0
        ⟨r.1, v.ino.setDirect v.block r.2.1, r.2.2, v.block + 1, false⟩)
      (NoBlockLeft v.dev (v.ino.directBlock.get v.block)) := by
  obtain ⟨hlow, hwhole⟩ := h.at hlt
  have hd := directData_snd buf hlt
  have hmapped := h.laid.mapped v.block
  rw [names_direct _ _ hblock, blocksOf] at hmapped
  have hdone : Ensures (writeSlot buf nbyte cursor v.bytesWritten
      (directData buf nbyte v.bytesWritten) v.firstBlock v.dev (v.ino.directBlock.get v.block))
      (RoundDone m0 data buf len cursor v)
      (NoBlockLeft v.dev (v.ino.directBlock.get v.block)) := by
    rcases writeSlot_cases buf nbyte cursor v.bytesWritten (directData buf nbyte v.bytesWritten)
        v.firstBlock v.dev (v.ino.directBlock.get v.block) with
      ⟨hf, hc, -, hr⟩ | ⟨hf, hs, hfree, hr⟩ | ⟨hf, hs, -, hr⟩ | ⟨-, hs, hfree, hr⟩ | ⟨hb, -⟩
    · -- the cursor is inside the block, and what is before it is in the file
      obtain ⟨h0, hb⟩ := h.facts.first hf
      have hws := firstWriteSize_le nbyte cursor
      rw [hr]
      refine h.rewrite hlt hblock (by omega) (by omega) (by omega) ?_
      intro k hk hq
      rw [h0, Nat.zero_add] at hq ⊢
      refine blit_patched (by omega) hc hb hk ?_
      intro hout
      have hbyte := h.bytes (4096 * v.block + k) (by omega)
      rw [byteAt, show (4096 * v.block + k) / 4096 = v.block by omega,
        show (4096 * v.block + k) % 4096 = k by omega, names_direct _ _ hblock, h0,
        patched_zero] at hbyte
      exact hbyte
    · have hpos := hwhole hf
      have hlen : len ≤ 4096 * v.block := by
        by_contra hgt
        exact hmapped.mpr (by omega) (by rw [hs]; rfl)
      rw [hr]
      exact h.next hlt hblock hpos hlen hfree
    · have hpos := hwhole hf
      have hlen := hmapped.mp fun he => hs (UInt16.toNat_inj.mp he)
      rw [hr]
      exact h.rewrite hlt hblock (by omega) (by omega) (by omega)
        (fun k hk _ => directData_patched hpos hlt hk)
    · rw [hr]
      exact ⟨rfl, hs, freeCount_of_findFreeBit_eq_zero (h.laid.kept 0 h.laid.zero) hfree⟩
    · have hne : v.ino.names (fun _ => 0) (blockSlot v.block) ≠ 0 := by
        rw [names_direct _ _ hblock]
        omega
      have := (h.laid.owned.used_of_ne _ hne).1
      rw [names_direct _ _ hblock] at this
      omega
  exact ((h.facts.round hlt hblock).and hdone).mono (fun r hr => ⟨hr.1, hr.2.1, hr.2.2⟩)
    (fun _ hr => hr.2)

/-! ### The whole write -/

theorem DirectWrite.kept {dev' : Dev} {slot : UInt16}
    (h : DirectWrite m0 data buf len cursor nbyte dev0 ino0
      ⟨dev', v.ino.setDirect v.block slot, n, v.block + 1, false⟩) (hblock : v.block < 25)
    (hlow : 4096 * v.block < cursor + n)
    (hdisk : ∀ b, b ≠ slot.toNat → dev'.disk.get b = v.dev.disk.get b) :
    ∀ b, getBit b m0 = true → dev'.disk.get b = v.dev.disk.get b := by
  intro b hb
  have hself := names_setDirect_self v.ino (fun _ => 0) hblock slot
  have hne := (h.laid.mapped v.block).mpr (by rw [blocksOf]; simp only; omega)
  have hfree := (h.laid.owned.used_of_ne _ hne).2.2
  rw [hself] at hfree
  refine hdisk b ?_
  rintro rfl
  rw [hb] at hfree
  cases hfree

/-- **A write that ends in the direct blocks** of a file is done in full when the blocks for
it are there, and no block that was marked before the file was made is changed. -/
theorem writeBlocks_direct {dev : Dev} {ino : Inode} (h : FileAt m0 dev ino data len)
    (hlen : len ≤ 102400) (hcur : cursor ≤ len) (hmax : cursor + nbyte ≤ 102400)
    (hroom : blocksOf (max len (cursor + nbyte)) ≤ freeCount m0) (buf : Nat → UInt8) :
    Ensures (writeBlocks buf nbyte cursor dev ino)
      (fun v => v.bytesWritten = nbyte ∧
        FileAt m0 v.dev v.ino (patched data buf cursor nbyte) (max len (cursor + nbyte)) ∧
        ∀ b, getBit b m0 = true → v.dev.disk.get b = dev.disk.get b) (fun _ => False) := by
  have hproof : WriteProof buf nbyte cursor
      (fun v => DirectWrite m0 data buf len cursor nbyte dev ino v ∧
        ∀ b, getBit b m0 = true → v.dev.disk.get b = dev.disk.get b)
      (fun _ _ _ => False)
      (fun v => v.bytesWritten = nbyte ∧
        FileAt m0 v.dev v.ino (patched data buf cursor nbyte) (max len (cursor + nbyte)) ∧
        ∀ b, getBit b m0 = true → v.dev.disk.get b = dev.disk.get b) (fun _ => False) :=
    { direct := by
        rintro v ⟨hv, hkept⟩ hlt hblock
        have hlow := (hv.at hlt).1
        refine (((hv.round hcur hlt hblock).and (writeSlot_grows buf nbyte cursor v.bytesWritten _
          v.firstBlock v.dev _)).and (writeSlot_disk buf nbyte cursor v.bytesWritten _ v.firstBlock
          v.dev _)).mono ?_ ?_
        · rintro r ⟨⟨hr, -, -, hcase⟩, hdisk⟩
          have hgain : v.bytesWritten < r.2.2 := by
            rcases hcase with ⟨-, -, -, hw⟩ | ⟨-, -, hw⟩
            · have := firstWriteSize_le nbyte cursor
              omega
            · rw [hw]
              exact (directData_snd buf hlt).2.2.1
          exact ⟨hr, fun b hb => (hr.kept hblock (by omega) hdisk b hb).trans (hkept b hb)⟩
        · rintro r ⟨⟨⟨-, hslot, hfull⟩, -⟩, -⟩
          -- the slot is the next one, so a block is missing
          have hhole : ¬ v.block < blocksOf (max len (cursor + v.bytesWritten)) := by
            rw [← hv.laid.mapped, names_direct _ _ hblock, hslot]
            exact fun hne => hne rfl
          have hcount := hv.laid.count
          rw [blocksOf] at hroom hhole hcount
          simp only [Bool.toNat_false] at hcount
          omega
      done := by
        rintro v ⟨hv, hkept⟩ hdone
        have hbw : v.bytesWritten = nbyte := le_antisymm hv.facts.le hdone
        have hlaid := hv.laid
        have hbytes := hv.bytes
        rw [hbw] at hlaid hbytes
        exact ⟨hbw, hlaid.fileAt (by omega) hbytes, hkept⟩
      enter := fun v hv _ _ hs _ => absurd hv.1.laid.single_eq_zero hs
      enterError := fun v hv _ hb => by
        rw [hv.1.laid.single_eq_zero] at hb
        exact absurd hb (by decide)
      create := by
        rintro v ⟨hv, -⟩ hlt hblock - -
        have := hv.facts.left_eq hlt hblock
        omega
      createError := by
        rintro v ⟨hv, -⟩ hlt hblock - -
        have := hv.facts.left_eq hlt hblock
        omega
      table := fun _ _ _ hv => hv.elim
      leave := fun _ _ _ hv => hv.elim
      leaveError := fun _ _ _ hv => hv.elim }
  obtain ⟨-, hlaid, hbytes⟩ := h.direct hlen
  have hstart : max len (cursor + 0) = len := by omega
  refine hproof.sound ⟨⟨directFacts_start _ _ _ _, ?_, ?_⟩, fun _ _ => rfl⟩
  · rw [hstart]
    exact hlaid
  · rw [hstart]
    intro q hq
    rw [hbytes q hq, patched_zero]

end EC440.FileSystems
