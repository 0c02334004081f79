import EC440.FileSystems.Stream

/-!
# Reads at the end of a file

A read asks for the size of the file in its first block only.  Behind it, the direct loop asks
before a block and then reads the block whole, and the loop over the table reads every block that is
there.  So a read that is asked for more than the file has stops at its end only if the file ends with
the first block of the read, or with a whole block that has none behind it: `RunsOut` is this
condition.

`readBlocks_end` is the loops of `fs_read` on a file whose blocks are there, and `fsRead_stops_iff`
the call.
-/

namespace EC440.FileSystems

open EC440.Lib

variable {s : State} {fildes : Int} {dev : Dev} {ino : Inode} {nbyte cursor size : Nat} {v : ReadVars}

/-- The bytes of an inode, as the blocks it names hold them. -/
def Inode.bytes (ino : Inode) (disk : Disk) : Nat → UInt8 := byteAt disk ino (tableOf disk ino)

/-- The blocks of the first `size` bytes are blocks of the disk. -/
def BlocksBelow (disk : Disk) (ino : Inode) (size : Nat) : Prop :=
  ∀ b, 4096 * b < size → ino.names (tableOf disk ino) (blockSlot b) ≠ 0 ∧
    ino.names (tableOf disk ino) (blockSlot b) < 8192

/-- **A read that is asked for more than the file has stops at its end**: a file in the direct blocks
ends with a block, or in the first block of the read; a larger one ends with a block, and the table
has no entry behind it, as far as the read goes. -/
structure RunsOut (disk : Disk) (ino : Inode) (nbyte cursor size : Nat) : Prop where
  direct : EndsWithBlock cursor size
  table : 102400 < size → size % 4096 = 0 ∧ ∀ k, size ≤ 102400 + 4096 * k →
    k < blocksNeeded (cursor + nbyte - 102400) → tableOf disk ino k = 0

/-! ### The rest of the buffer -/

/-- The buffer behind the bytes read is the caller's. -/
structure RestKept (buf : Nat → UInt8) (nbyte : Nat) (v : ReadVars) : Prop where
  le : v.bytesRead ≤ nbyte
  first : v.firstBlock = true → v.bytesRead = 0
  rest : ∀ k, v.bytesRead ≤ k → v.buf k = buf k

section Rest

variable {buf : Nat → UInt8}

theorem RestKept.round (h : RestKept buf nbyte v) (b : UInt16) :
    Ensures (readBlock dev nbyte cursor size b v) (RestKept buf nbyte) (fun _ => True) := by
  have hcopy : ∀ (block : Block) (off n i : Nat), v.bytesRead + n ≤ nbyte →
      RestKept buf nbyte ⟨copyOut v.buf v.bytesRead block off n, v.bytesRead + n, i, false⟩ := by
    intro block off n i hn
    refine ⟨hn, nofun, ?_⟩
    intro k hk
    simp only at hk
    simp only [copyOut]
    rw [if_neg (by omega)]
    exact h.rest k (by omega)
  have hle := h.le
  rw [readBlock]
  by_cases hb : b = 0
  · rw [if_pos hb]
    exact ⟨h.le, h.first, h.rest⟩
  · rw [if_neg hb]
    by_cases hdisk : b.toNat < 8192
    · simp only [blockRead_of_lt dev hdisk]
      cases hf : v.firstBlock with
      | true =>
        have h0 := h.first hf
        have hfr := firstReadSize_le nbyte cursor size
        have hread := hcopy (dev.disk.get b.toNat) (cursor % 4096) (firstReadSize nbyte cursor size)
          (v.i + 1) (by omega)
        rw [h0] at hread
        simp only [if_true, ensures_ok, h0]
        exact hread
      | false =>
        simp only [Bool.false_eq_true, if_false]
        split
        · have hread := hcopy (dev.disk.get b.toNat) 0 (nbyte - v.bytesRead) (v.i + 1) (by omega)
          rw [Nat.add_sub_cancel' hle] at hread
          exact hread
        · exact hcopy _ _ _ _ (by omega)
    · rw [blockRead_of_ge dev (by omega)]
      trivial

theorem restKept_loop (h : RestKept buf nbyte v) (cond : ReadVars → Bool) (slot : ReadVars → UInt16)
    (n : Nat) : Ensures (loop cond (fun v => readBlock dev nbyte cursor size (slot v) v) n v)
      (RestKept buf nbyte) (fun _ => True) := by
  induction n generalizing v with
  | zero => exact h
  | succ n ih =>
    rw [loop]
    split
    · have hround : Ensures (readBlock dev nbyte cursor size (slot v) v) (RestKept buf nbyte)
          (fun _ => True) := h.round (slot v)
      cases hr : readBlock dev nbyte cursor size (slot v) v with
      | ok w => exact ih (hround.of_ok hr)
      | error w => trivial
    · exact h

theorem readBlocks_rest (dev : Dev) (ino : Inode) (nbyte cursor size : Nat) (buf : Nat → UInt8) :
    Ensures (readBlocks dev ino nbyte cursor size buf) (RestKept buf nbyte) (fun _ => True) := by
  have hstart : RestKept buf nbyte ⟨buf, 0, cursor / 4096, true⟩ :=
    ⟨Nat.zero_le _, fun _ => rfl, fun _ _ => rfl⟩
  have hd : Ensures (readDirect dev ino nbyte cursor size ⟨buf, 0, cursor / 4096, true⟩)
      (RestKept buf nbyte) (fun _ => True) := restKept_loop hstart _ _ 25
  rw [readBlocks]
  cases hr : readDirect dev ino nbyte cursor size ⟨buf, 0, cursor / 4096, true⟩ with
  | error v => trivial
  | ok v =>
    have hv := hd.of_ok hr
    have hv' : RestKept buf nbyte { v with i := if cursor / 4096 < 25 then 0 else cursor / 4096 } :=
      ⟨hv.le, hv.first, hv.rest⟩
    simp only [readIndirect]
    split
    · split
      · trivial
      · exact restKept_loop hv' _ _ _
    · exact hv

end Rest

/-! ### The direct blocks -/

theorem Inode.bytes_block (ino : Inode) (disk : Disk) (b : Nat) {k : Nat} (hk : k < 4096) :
    ino.bytes disk (4096 * b + k)
      = (disk.get (ino.names (tableOf disk ino) (blockSlot b))).get k := by
  rw [Inode.bytes, byteAt, show (4096 * b + k) / 4096 = b by omega,
    show (4096 * b + k) % 4096 = k by omega]

theorem BlocksBelow.direct {disk : Disk} (h : BlocksBelow disk ino size) {j : Nat} (hj : j < 25)
    (hlt : 4096 * j < size) :
    ino.directBlock.get j ≠ 0 ∧ (ino.directBlock.get j).toNat < 8192 ∧ ∀ k, k < 4096 →
      (disk.get (ino.directBlock.get j).toNat).get k = ino.bytes disk (4096 * j + k) := by
  obtain ⟨hne, hdisk⟩ := h j hlt
  have hslot : blockSlot j = .direct j := if_pos hj
  rw [hslot] at hne hdisk
  refine ⟨fun h0 => hne (by rw [Inode.names, h0]; rfl), hdisk, ?_⟩
  intro k hk
  rw [ino.bytes_block disk j hk, hslot]
  rfl

theorem BlocksBelow.entry {disk : Disk} (h : BlocksBelow disk ino size) {j : Nat}
    (hlt : 102400 + 4096 * j < size) :
    tableOf disk ino j ≠ 0 ∧ (tableOf disk ino j).toNat < 8192 ∧ ∀ k, k < 4096 →
      (disk.get (tableOf disk ino j).toNat).get k = ino.bytes disk (4096 * (25 + j) + k) := by
  obtain ⟨hne, hdisk⟩ := h (25 + j) (by omega)
  have hslot : blockSlot (25 + j) = .entry j := by
    rw [blockSlot, if_neg (by omega), Nat.add_sub_cancel_left]
  rw [hslot] at hne hdisk
  refine ⟨fun h0 => hne (by rw [Inode.names, h0]; rfl), hdisk, ?_⟩
  intro k hk
  rw [ino.bytes_block disk (25 + j) hk, hslot]
  rfl

theorem readDirect_short (hb : BlocksBelow dev.disk ino size) (hcur : cursor < 102400)
    (hcs : cursor ≤ size) (hend : size - cursor ≤ 4096 - cursor % 4096) (buf : Nat → UInt8) :
    Ensures (readDirect dev ino nbyte cursor size ⟨buf, 0, cursor / 4096, true⟩)
      (fun w => w.bytesRead = min nbyte (size - cursor) ∧
        ∀ k, k < w.bytesRead → w.buf k = ino.bytes dev.disk (cursor + k)) (fun _ => False) := by
  have hfr := firstReadSize_le nbyte cursor size
  rw [readDirect, loop]
  by_cases hcond : cursor / 4096 < 25 ∧ nbyte - 0 > 0 ∧ size > 0 + cursor
  · -- one round on the block of the cursor, and no other
    rw [if_pos (decide_eq_true hcond)]
    obtain ⟨hb0, hdisk, hbytes⟩ := hb.direct hcond.1 (by omega)
    have hround : readBlock dev nbyte cursor size (ino.directBlock.get (cursor / 4096))
        ⟨buf, 0, cursor / 4096, true⟩ = .ok ⟨copyOut buf 0
          (dev.disk.get (ino.directBlock.get (cursor / 4096)).toNat) (cursor % 4096)
          (firstReadSize nbyte cursor size), 0 + firstReadSize nbyte cursor size, cursor / 4096 + 1,
          false⟩ := by
      rw [readBlock, if_neg hb0, blockRead_of_lt dev hdisk]
      rfl
    have hread : 0 + firstReadSize nbyte cursor size = min nbyte (size - cursor) := by omega
    simp only [hround]
    rw [loop_of_false (by rw [decide_eq_false_iff_not]; simp only; omega)]
    refine ⟨hread, ?_⟩
    intro k hk
    simp only at hk
    simp only [copyOut]
    rw [if_pos (by omega), Nat.sub_zero, hbytes _ (by omega)]
    congr 1
    omega
  · rw [if_neg (by rw [decide_eq_true_eq]; exact hcond)]
    exact ⟨by simp only; omega, fun k hk => absurd hk (by simp)⟩

theorem readDirect_long (hb : BlocksBelow dev.disk ino size) (hcur : cursor < 102400)
    (hend : 4096 - cursor % 4096 < size - cursor) (buf : Nat → UInt8) :
    Ensures (readDirect dev ino nbyte cursor size ⟨buf, 0, cursor / 4096, true⟩)
      (fun w => ReadsBack (ino.bytes dev.disk) cursor nbyte 0 w ∧ w.i ≤ 25 ∧
        4096 * w.i < size + 4096 ∧ (25 ≤ w.i ∨ nbyte ≤ w.bytesRead ∨ size ≤ w.bytesRead + cursor))
      (fun _ => False) := by
  have hstart : ReadsBack (ino.bytes dev.disk) cursor nbyte 0 ⟨buf, 0, cursor / 4096, true⟩ :=
    ⟨fun k hk => absurd hk (by simp), fun _ => ⟨rfl, Nat.zero_add _⟩, nofun⟩
  refine (loop_rule _ _ (fun w => ReadsBack (ino.bytes dev.disk) cursor nbyte 0 w ∧ w.i ≤ 25 ∧
    4096 * w.i < size + 4096) (fun _ => False) (fun w => 25 - w.i) ?_ ?_ 25 _
    ⟨hstart, by simp only; omega, by simp only; omega⟩ (by simp only; omega)).mono ?_ (fun _ he => he)
  · intro w _ hc
    simp only [decide_eq_true_eq] at hc
    omega
  · rintro w ⟨hw, hwi, -⟩ hc
    simp only [decide_eq_true_eq] at hc
    have hpos : 4096 * w.i < size := by
      cases hf : w.firstBlock with
      | true =>
        have := hw.first hf
        omega
      | false =>
        have := hw.later hf
        omega
    obtain ⟨hne, hdisk, hbytes⟩ := hb.direct hc.1 hpos
    refine (hw.round (by omega) (le_refl _) (fun _ => firstReadSize_eq (by omega)) hne hdisk ?_).mono
      (fun w' hw' => ⟨⟨hw'.1, by omega, by omega⟩, by omega⟩) (fun _ he => he)
    intro k hk _
    rw [Nat.zero_add]
    exact hbytes k hk
  · rintro w ⟨⟨hw, hwi, hlt⟩, hc⟩
    simp only [decide_eq_false_iff_not] at hc
    exact ⟨hw, hwi, hlt, by omega⟩

/-! ### The table -/

/-- The file has entries up to `last`, and the read goes on to `needed`.  It is in the file as long as
it has found no entry behind `last`, and past the end of the file when it has. -/
structure AtEntry (disk : Disk) (ino : Inode) (cursor nbyte size last needed : Nat) (v : ReadVars) :
    Prop where
  later : v.firstBlock = false
  le : v.bytesRead ≤ nbyte
  entries : (ReadsBack (ino.bytes disk) cursor nbyte 25 { v with i := min v.i last } ∧
      ∀ k, last ≤ k → k < v.i → tableOf disk ino k = 0) ∨
    ((∃ k, last ≤ k ∧ k < needed ∧ tableOf disk ino k ≠ 0) ∧ size < cursor + v.bytesRead)

theorem AtEntry.round {last needed : Nat}
    (h : AtEntry dev.disk ino cursor nbyte size last needed v) (hb : BlocksBelow dev.disk ino size)
    (hlast : 102400 + 4096 * last < size + 4096 ∧ size ≤ 102400 + 4096 * last)
    (hneeded : 102400 + 4096 * needed < cursor + nbyte + 4096) (hi : v.i < needed) :
    Ensures (readBlock dev nbyte cursor size (tableOf dev.disk ino v.i) v)
      (fun w => AtEntry dev.disk ino cursor nbyte size last needed w ∧ w.i = v.i + 1)
      (fun _ => ∃ k, last ≤ k ∧ k < needed ∧ tableOf dev.disk ino k ≠ 0) := by
  have hle := h.le
  have hf := h.later
  rcases h.entries with ⟨hreads, hzero⟩ | ⟨hfound, hpast⟩
  · by_cases hin : v.i < last
    · -- an entry of the file
      have hmin : { v with i := min v.i last } = v := by rw [Nat.min_eq_left (by omega)]
      rw [hmin] at hreads
      have hpos := hreads.later hf
      obtain ⟨hne, hdisk, hbytes⟩ := hb.entry (j := v.i) (by omega)
      refine (hreads.round (by omega) (le_refl _) (fun h1 => absurd (hf.symm.trans h1) (by decide)) hne
        hdisk fun k hk _ => hbytes k hk).mono ?_ (fun _ he => he.elim)
      rintro w ⟨hw, hwi, hwf⟩
      have hmin' : { w with i := min w.i last } = w := by rw [Nat.min_eq_left (by omega)]
      have := hw.later hwf
      refine ⟨⟨hwf, by omega, Or.inl ⟨by rw [hmin']; exact hw, fun k hk hkw => by omega⟩⟩, hwi⟩
    · have hpos : cursor + v.bytesRead = min (4096 * (25 + min v.i last)) (cursor + nbyte) :=
        hreads.later hf
      by_cases hentry : tableOf dev.disk ino v.i = 0
      · rw [hentry, readBlock, if_pos rfl]
        refine ⟨⟨hf, hle, Or.inl ⟨?_, ?_⟩⟩, rfl⟩
        · rw [Nat.min_eq_right (by omega)] at hreads
          simp only
          rw [Nat.min_eq_right (by omega)]
          exact hreads
        · intro k hk hkv
          by_cases hkv' : k = v.i
          · rw [hkv']
            exact hentry
          · simp only at hkv
            exact hzero k hk (by omega)
      · -- a block that is not of the file
        have hfound : ∃ k, last ≤ k ∧ k < needed ∧ tableOf dev.disk ino k ≠ 0 :=
          ⟨v.i, by omega, hi, hentry⟩
        refine (readBlock_cases _ v).mono ?_ (fun _ _ => hfound)
        rintro w ⟨hwi, ⟨h0, -, -⟩ | ⟨-, -, h1, -, -⟩ | ⟨-, -, -, hwf, hbr⟩⟩
        · exact absurd h0 hentry
        · rw [hf] at h1
          cases h1
        · exact ⟨⟨hwf, by omega, Or.inr ⟨hfound, by omega⟩⟩, hwi⟩
  · refine (readBlock_cases _ v).mono ?_ (fun _ _ => hfound)
    rintro w ⟨hwi, ⟨-, hbr, hwf⟩ | ⟨-, -, h1, -, -⟩ | ⟨-, -, -, hwf, hbr⟩⟩
    · exact ⟨⟨hwf.trans hf, by omega, Or.inr ⟨hfound, by omega⟩⟩, hwi⟩
    · rw [hf] at h1
      cases h1
    · exact ⟨⟨hwf, by omega, Or.inr ⟨hfound, by omega⟩⟩, hwi⟩

/-- What a read of `nbyte` bytes has done, where `nbyte` is at most the largest size of a file. -/
structure ReadEnds (disk : Disk) (ino : Inode) (cursor nbyte size : Nat) (v : ReadVars) : Prop where
  stops : v.bytesRead = min nbyte (size - cursor) ↔
    nbyte ≤ size - cursor ∨ RunsOut disk ino nbyte cursor size
  bytes : v.bytesRead = min nbyte (size - cursor) →
    ∀ k, k < v.bytesRead → v.buf k = ino.bytes disk (cursor + k)

/-- An entry behind the file keeps a read from stopping. -/
theorem not_runsOut {disk : Disk} {last needed : Nat} (hcur : cursor < 102400) (hsize : 102400 < size)
    (hlast : size ≤ 102400 + 4096 * last) (hneeded : needed = blocksNeeded (cursor + nbyte - 102400))
    (hbound : 102400 + 4096 * needed < cursor + nbyte + 4096)
    (hfound : ∃ k, last ≤ k ∧ k < needed ∧ tableOf disk ino k ≠ 0) :
    ¬ (nbyte ≤ size - cursor ∨ RunsOut disk ino nbyte cursor size) := by
  obtain ⟨k, hk, hkn, hne⟩ := hfound
  rintro (hle | hout)
  · omega
  · exact hne ((hout.table hsize).2 k (by omega) (by omega))

theorem readIndirect_end (hb : BlocksBelow dev.disk ino size) (hcur : cursor < 102400)
    (hsize : 102400 < size) (hmax : nbyte ≤ 2 ^ 20)
    (hv : ReadsBack (ino.bytes dev.disk) cursor nbyte 0 v) (hf : v.firstBlock = false)
    (hpos : cursor + v.bytesRead = 102400) (hlt : v.bytesRead < nbyte) :
    Ensures (readIndirect dev ino nbyte cursor size v)
      (ReadEnds dev.disk ino cursor nbyte size)
      (fun _ => ¬ (nbyte ≤ size - cursor ∨ RunsOut dev.disk ino nbyte cursor size)) := by
  obtain ⟨hs, hdisk, -⟩ := tableOf_ne_zero (hb.entry (j := 0) (by omega)).1
  have htab : ∀ k, get16 (dev.disk.get ino.singleIndirectBlock.toNat) k = tableOf dev.disk ino k :=
    fun k => (if_neg hs).symm
  obtain ⟨last, hlast⟩ : ∃ last, 102400 + 4096 * last < size + 4096 ∧ size ≤ 102400 + 4096 * last :=
    ⟨blocksOf (size - 102400), by rw [blocksOf]; omega⟩
  have hrem : nbyte - v.bytesRead = cursor + nbyte - 102400 := by omega
  obtain ⟨needed, hn⟩ : ∃ needed, needed = blocksNeeded (cursor + nbyte - 102400) := ⟨_, rfl⟩
  have hneeded : 102400 + 4096 * needed < cursor + nbyte + 4096 ∧
      cursor + nbyte ≤ 102400 + 4096 * needed := by
    rw [hn, blocksNeeded]
    split <;> omega
  have hstart : AtEntry dev.disk ino cursor nbyte size last needed { v with i := 0 } := by
    refine ⟨hf, by simp only; omega, Or.inl ⟨⟨hv.bytes, ?_, ?_⟩, fun k _ hk => absurd hk (by simp)⟩⟩
    · intro h1
      exact absurd (hf.symm.trans h1) (by decide)
    · intro _
      simp only
      omega
  rw [readIndirect, if_pos ⟨by omega, hs, by omega⟩, blockRead_of_lt dev hdisk]
  simp only [if_pos (show cursor / 4096 < 25 by omega), hrem, htab, ← hn]
  refine (loop_rule _ _ (fun w => AtEntry dev.disk ino cursor nbyte size last needed w ∧ w.i ≤ needed)
    (fun _ => ∃ k, last ≤ k ∧ k < needed ∧ tableOf dev.disk ino k ≠ 0) (fun w => needed - w.i) ?_ ?_ _ _
    ⟨hstart, Nat.zero_le _⟩ (Nat.sub_le _ _)).mono ?_
    (fun _ he => not_runsOut hcur hsize hlast.2 hn hneeded.1 he)
  · intro w _ hc
    simp only [decide_eq_true_eq] at hc
    omega
  · rintro w ⟨hw, -⟩ hc
    simp only [decide_eq_true_eq] at hc
    exact (hw.round hb hlast hneeded.1 hc).mono (fun w' hw' => ⟨⟨hw'.1, by omega⟩, by omega⟩) (fun _ he => he)
  · rintro w ⟨⟨hw, hwi⟩, hc⟩
    simp only [decide_eq_false_iff_not] at hc
    have hi : w.i = needed := by omega
    rcases hw.entries with ⟨hreads, hzero⟩ | ⟨hfound, hpast⟩
    · have hend : cursor + w.bytesRead = min (4096 * (25 + min w.i last)) (cursor + nbyte) :=
        hreads.later hw.later
      refine ⟨⟨?_, ?_⟩, fun _ => hreads.bytes⟩
      · intro hbr
        by_cases hle : nbyte ≤ size - cursor
        · exact Or.inl hle
        · refine Or.inr ⟨fun hsmall => absurd hsize (by omega), fun _ => ⟨by omega, ?_⟩⟩
          intro k hk hkn
          exact hzero k (by omega) (by omega)
      · rintro (hle | hout)
        · omega
        · have := (hout.table hsize).1
          omega
    · have hno := not_runsOut hcur hsize hlast.2 hn hneeded.1 hfound
      exact ⟨⟨fun hbr => by omega, fun hyes => absurd hyes hno⟩, fun hbr => by omega⟩

/-- Where a read stands that stops with the direct blocks: at the end of the request, or at the end of
the last block of the file. -/
theorem ReadsBack.ends {data : Nat → UInt8} (h : ReadsBack data cursor nbyte 0 v)
    (hend : 4096 - cursor % 4096 < size - cursor) (hi : v.i ≤ 25)
    (hexit : 25 ≤ v.i ∨ nbyte ≤ v.bytesRead ∨ size ≤ v.bytesRead + cursor)
    (hsmall : nbyte ≤ v.bytesRead ∨ size ≤ 102400) :
    v.bytesRead = nbyte ∧ (cursor + nbyte ≤ 4096 * v.i ∨ nbyte = 0) ∨
      cursor + v.bytesRead = 4096 * v.i ∧ size ≤ 4096 * v.i ∧ v.bytesRead < nbyte := by
  cases hf : v.firstBlock with
  | true =>
    have := h.first hf
    omega
  | false =>
    have := h.later hf
    omega

/-- **The loops of `fs_read`** on a file whose blocks are there. -/
theorem readBlocks_end (hb : BlocksBelow dev.disk ino size) (hcur : cursor < 102400)
    (hcs : cursor ≤ size) (hmax : nbyte ≤ 2 ^ 20) (buf : Nat → UInt8) :
    Ensures (readBlocks dev ino nbyte cursor size buf) (ReadEnds dev.disk ino cursor nbyte size)
      (fun _ => ¬ (nbyte ≤ size - cursor ∨ RunsOut dev.disk ino nbyte cursor size)) := by
  rw [readBlocks]
  by_cases hend : size - cursor ≤ 4096 - cursor % 4096
  · have hout : RunsOut dev.disk ino nbyte cursor size :=
      ⟨fun _ => Or.inr hend, fun hsize => absurd hsize (by omega)⟩
    have hd : Ensures (readDirect dev ino nbyte cursor size ⟨buf, 0, cursor / 4096, true⟩) _ _ :=
      readDirect_short hb hcur hcs hend buf
    cases hr : readDirect dev ino nbyte cursor size ⟨buf, 0, cursor / 4096, true⟩ with
    | error w => exact (hd.of_error hr).elim
    | ok w =>
      obtain ⟨hbr, hbytes⟩ := hd.of_ok hr
      simp only [readIndirect]
      rw [if_neg (by omega)]
      exact ⟨⟨fun _ => Or.inr hout, fun _ => hbr⟩, fun _ => hbytes⟩
  · have hd : Ensures (readDirect dev ino nbyte cursor size ⟨buf, 0, cursor / 4096, true⟩) _ _ :=
      readDirect_long hb hcur (by omega) buf
    cases hr : readDirect dev ino nbyte cursor size ⟨buf, 0, cursor / 4096, true⟩ with
    | error w => exact (hd.of_error hr).elim
    | ok w =>
      obtain ⟨hw, hwi, hlt, hexit⟩ := hd.of_ok hr
      by_cases hgo : w.bytesRead < nbyte ∧ 102400 < size
      · have hf : w.firstBlock = false := by
          cases hf : w.firstBlock with
          | true =>
            have := hw.first hf
            omega
          | false => rfl
        have := hw.later hf
        exact readIndirect_end hb hcur hgo.2 hmax hw hf (by omega) hgo.1
      · have hstop := hw.ends (by omega) hwi hexit (by omega)
        simp only [readIndirect]
        rw [if_neg (by omega)]
        refine ⟨⟨?_, ?_⟩, fun _ => hw.bytes⟩
        · intro hbr
          by_cases hle : nbyte ≤ size - cursor
          · exact Or.inl hle
          · exact Or.inr ⟨fun _ => Or.inl (by omega), fun hsize => absurd hsize (by omega)⟩
        · rintro (hle | hout)
          · omega
          · by_cases hsize : size ≤ 102400
            · have := hout.direct hsize
              omega
            · omega

/-! ### The call -/

/-- **A read that stops at the end of the file** has read what is left up to there, and nothing else
in the buffer has changed. -/
structure StopsAtEnd (s : State) (fildes : Int) (buf : Nat → UInt8) (nbyte n : Nat) : Prop where
  ret : (fsRead s fildes buf nbyte).1 = n
  bytes : ∀ k, (fsRead s fildes buf nbyte).2.1 k =
    if k < n then (s.inodeOf fildes).bytes s.dev.disk ((s.fd fildes).offset.toNat + k) else buf k
  state : (fsRead s fildes buf nbyte).2.2 = { s with
    fdTable := s.fdTable.set fildes.toNat { s.fd fildes with offset := (s.fd fildes).offset + n } }

theorem fsRead_open (hrange : 0 ≤ fildes ∧ fildes ≤ 31) (hu : (s.fd fildes).isUsed = true)
    (buf : Nat → UInt8) (nbyte : Nat) :
    fsRead s fildes buf nbyte =
      match readBlocks s.dev (s.inodeOf fildes) (min nbyte (2 ^ 20)) (s.fd fildes).offset.toNat
        (s.inodeOf fildes).fileSize.toNat buf with
      | .error v => (-1, v.buf, s)
      | .ok v => (toInt32 v.bytesRead, v.buf, { s with
          fdTable := s.fdTable.set fildes.toNat
            { s.fd fildes with offset := toInt32 ((s.fd fildes).offset + v.bytesRead) } }) := by
  have hmin : (if nbyte > 2 ^ 20 then 2 ^ 20 else nbyte) = min nbyte (2 ^ 20) := by split <;> omega
  rw [fsRead, if_neg (by omega), if_neg (by rw [hu]; decide)]
  exact hmin ▸ rfl

/-- A read that ends in the file returns what it is asked for. -/
theorem fsRead_inside (hrange : 0 ≤ fildes ∧ fildes ≤ 31) (hu : (s.fd fildes).isUsed = true)
    {p n : Nat} (hoff : (s.fd fildes).offset = p) (hp : p < 102400)
    (hb : BlocksBelow s.dev.disk (s.inodeOf fildes) (s.inodeOf fildes).fileSize.toNat)
    (hn : p + n ≤ (s.inodeOf fildes).fileSize.toNat) (hmax : n ≤ 2 ^ 20) (buf : Nat → UInt8) :
    (fsRead s fildes buf n).1 = n ∧ ∀ k, k < n →
      (fsRead s fildes buf n).2.1 k = (s.inodeOf fildes).bytes s.dev.disk (p + k) := by
  have hcur : (s.fd fildes).offset.toNat = p := by omega
  have hends := readBlocks_end hb hp (by omega) hmax buf
  rw [fsRead_open hrange hu, Nat.min_eq_left hmax, hcur]
  cases hr : readBlocks s.dev (s.inodeOf fildes) n p (s.inodeOf fildes).fileSize.toNat buf with
  | error v => exact absurd (Or.inl (by omega)) (hends.of_error hr)
  | ok v =>
    have hv := hends.of_ok hr
    have hbr := hv.stops.mpr (Or.inl (by omega))
    have hn' : v.bytesRead = n := by omega
    simp only [hn']
    refine ⟨toInt32_of_small (by omega) (by omega), ?_⟩
    intro k hk
    exact hv.bytes hbr k (by omega)

/-- **The file is read back** from its start. -/
theorem fsLseek_read (hrange : 0 ≤ fildes ∧ fildes ≤ 31) (hu : (s.fd fildes).isUsed = true)
    (hb : BlocksBelow s.dev.disk (s.inodeOf fildes) (s.inodeOf fildes).fileSize.toNat) {n : Nat}
    (hn : n ≤ (s.inodeOf fildes).fileSize.toNat) (hmax : n ≤ 2 ^ 20) :
    (fsLseek s fildes 0).1 = 0 ∧ ∀ buf, (fsRead (fsLseek s fildes 0).2 fildes buf n).1 = n ∧
      ∀ k, k < n → (fsRead (fsLseek s fildes 0).2 fildes buf n).2.1 k
        = (s.inodeOf fildes).bytes s.dev.disk k := by
  have hseek := fsLseek_inside s hrange (Nat.zero_le _) (by decide)
  rw [Nat.cast_zero] at hseek
  obtain ⟨u, hu'⟩ : ∃ u, u = (fsLseek s fildes 0).2 := ⟨_, rfl⟩
  rw [← hu', hseek]
  have hfd : u.fd fildes = { s.fd fildes with offset := 0 } := by
    rw [hu', hseek]
    exact Arr.get_set_self _ (by omega) _
  have hof : u.fileOf fildes = s.fileOf fildes := by rw [State.fileOf, hfd]
  have hino : u.inodeOf fildes = s.inodeOf fildes := by
    rw [State.inodeOf, hof, hu', hseek]
  have hdev : u.dev = s.dev := by rw [hu', hseek]
  have hread : ∀ buf, _ := fsRead_inside (s := u) hrange (by rw [hfd]; exact hu)
    (p := 0) (n := n) (by rw [hfd]; rfl) (by decide) (by rw [hino, hdev]; exact hb)
    (by rw [hino]; omega) hmax
  refine ⟨rfl, ?_⟩
  intro buf
  obtain ⟨hret, hbytes⟩ := hread buf
  refine ⟨hret, ?_⟩
  intro k hk
  rw [hbytes k hk, hino, hdev, Nat.zero_add]

/-- **When a read stops at the end of the file.**  From an offset in the direct blocks, on a file
whose blocks are there, `fs_read` returns the smaller of the request and what is left, and those bytes,
exactly when the request ends in the file or the read runs out with it (`RunsOut`).  A request is cut
at `2 ^ 20`, which matters only for a file with more than that left. -/
theorem fsRead_stops_iff (hrange : 0 ≤ fildes ∧ fildes ≤ 31) (hu : (s.fd fildes).isUsed = true)
    (h0 : 0 ≤ (s.fd fildes).offset)
    (hcs : (s.fd fildes).offset ≤ (s.inodeOf fildes).fileSize.toNat)
    (hcur : (s.fd fildes).offset < 102400)
    (hb : BlocksBelow s.dev.disk (s.inodeOf fildes) (s.inodeOf fildes).fileSize.toNat)
    (buf : Nat → UInt8) (nbyte : Nat) :
    StopsAtEnd s fildes buf nbyte
        (min nbyte ((s.inodeOf fildes).fileSize.toNat - (s.fd fildes).offset.toNat)) ↔
      (nbyte ≤ 2 ^ 20 ∨ (s.inodeOf fildes).fileSize.toNat - (s.fd fildes).offset.toNat ≤ 2 ^ 20) ∧
      (min nbyte (2 ^ 20) ≤ (s.inodeOf fildes).fileSize.toNat - (s.fd fildes).offset.toNat ∨
        RunsOut s.dev.disk (s.inodeOf fildes) (min nbyte (2 ^ 20)) (s.fd fildes).offset.toNat
          (s.inodeOf fildes).fileSize.toNat) := by
  have hmax : min nbyte (2 ^ 20) ≤ 2 ^ 20 := Nat.min_le_right _ _
  have hends := (readBlocks_end hb (by omega) (by omega) hmax buf).and
    (readBlocks_rest s.dev (s.inodeOf fildes) (min nbyte (2 ^ 20)) (s.fd fildes).offset.toNat
      (s.inodeOf fildes).fileSize.toNat buf)
  have hcall := fsRead_open hrange hu buf nbyte
  cases hr : readBlocks s.dev (s.inodeOf fildes) (min nbyte (2 ^ 20)) (s.fd fildes).offset.toNat
      (s.inodeOf fildes).fileSize.toNat buf with
  | error v =>
    obtain ⟨hno, -⟩ := hends.of_error hr
    rw [hr] at hcall
    constructor
    · intro h
      have := h.ret
      rw [hcall] at this
      simp only at this
      omega
    · exact fun h => absurd h.2 hno
  | ok v =>
    obtain ⟨hv, hrest⟩ := hends.of_ok hr
    have hle := hrest.le
    rw [hr] at hcall
    simp only at hcall
    rw [toInt32_of_small (show (0 : Int) ≤ v.bytesRead by omega) (by omega),
      toInt32_of_small (show 0 ≤ (s.fd fildes).offset + v.bytesRead by omega) (by omega)] at hcall
    constructor
    · intro h
      have hret := h.ret
      rw [hcall] at hret
      simp only at hret
      exact ⟨by omega, hv.stops.mp (by omega)⟩
    · rintro ⟨hcut, hstop⟩
      have hbr := hv.stops.mpr hstop
      have hn : min nbyte ((s.inodeOf fildes).fileSize.toNat - (s.fd fildes).offset.toNat)
          = v.bytesRead := by omega
      rw [hn]
      refine ⟨by rw [hcall], ?_, by rw [hcall]⟩
      intro k
      rw [hcall]
      simp only
      split
      · exact hv.bytes hbr k ‹_›
      · exact hrest.rest k (by omega)

/-- A file that ends one byte behind its first block, open at its start. -/
def twoBlocks : List Call :=
  [.create nameA, .open nameA, .write 0 (fun _ => 7) 4097, .lseek 0 0]

theorem twoBlocks_facts :
    ((run step (fresh zeroDisk) twoBlocks).fd 0).isUsed = true ∧
    ((run step (fresh zeroDisk) twoBlocks).fd 0).offset = 0 ∧
    ((run step (fresh zeroDisk) twoBlocks).inodeOf 0).fileSize.toNat = 4097 ∧
    ∀ b, b < 2 →
      ((run step (fresh zeroDisk) twoBlocks).inodeOf 0).names (tableOf
        (run step (fresh zeroDisk) twoBlocks).dev.disk
        ((run step (fresh zeroDisk) twoBlocks).inodeOf 0)) (blockSlot b) ≠ 0 ∧
      ((run step (fresh zeroDisk) twoBlocks).inodeOf 0).names (tableOf
        (run step (fresh zeroDisk) twoBlocks).dev.disk
        ((run step (fresh zeroDisk) twoBlocks).inodeOf 0)) (blockSlot b) < 8192 := by
  decide +kernel

/-- The 4097 bytes are read when 4097 are asked for. -/
theorem fsRead_stops_request :
    StopsAtEnd (run step (fresh zeroDisk) twoBlocks) 0 (fun _ => 0) 4097 4097 := by
  obtain ⟨hu, hoff, hsize, hblocks⟩ := twoBlocks_facts
  have h := (fsRead_stops_iff (show (0 : Int) ≤ 0 ∧ (0 : Int) ≤ 31 by decide) hu (by omega) (by omega)
    (by omega) (fun b hb => hblocks b (by omega)) (fun _ => 0) 4097).mpr ⟨by omega, Or.inl (by omega)⟩
  rw [hsize, hoff] at h
  exact h

/-- When 8192 are asked for, 8192 are read. -/
theorem fsRead_runs_past :
    ((run step (fresh zeroDisk) twoBlocks).fd 0).offset = 0 ∧
    ((run step (fresh zeroDisk) twoBlocks).inodeOf 0).fileSize.toNat = 4097 ∧
    BlocksBelow (run step (fresh zeroDisk) twoBlocks).dev.disk
      ((run step (fresh zeroDisk) twoBlocks).inodeOf 0) 4097 ∧
    (fsRead (run step (fresh zeroDisk) twoBlocks) 0 (fun _ => 0) 8192).1 = 8192 := by
  obtain ⟨-, hoff, hsize, hblocks⟩ := twoBlocks_facts
  exact ⟨hoff, hsize, fun b hb => hblocks b (by omega), by decide +kernel⟩

end EC440.FileSystems
