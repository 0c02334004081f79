import EC440.FileSystems.Blocks
import EC440.FileSystems.EndOfFile

/-!
# Writing over a file

A write into the direct blocks of a file should change the bytes it is asked to write and no
others.  It does change others: the last block of a write is written whole, with zeros behind
the bytes of the caller, unless it is also the block the write begins inside of.  So the bytes
of the file behind the write are lost up to the end of that block (`Padded`).

`fsWrite_direct` is the call on a file that was only written at its end, and
`fsWrite_changes_only_iff` says when nothing is lost.  The other files lie in blocks that were
marked when this file was made (`Apart`), and keep their bytes in any case.
-/

namespace EC440.FileSystems

open EC440.Lib

/-- `bytes` with `w` in the place of what they have at `p`. -/
def splice (bytes w : List UInt8) (p : Nat) : List UInt8 :=
  bytes.take p ++ w ++ bytes.drop (p + w.length)

/-- The contents of the other files than `i` were marked in `m0`, and so were their tables. -/
structure Apart (m0 : Arr 1024 UInt8) (i : Nat) (s : State) : Prop where
  blocks : ∀ j, j ≠ i → ∀ b, 4096 * b < (s.inodeTable.get j).fileSize.toNat →
    getBit (s.ref (j, blockSlot b)) m0 = true
  table : ∀ j, j ≠ i → 102400 < (s.inodeTable.get j).fileSize.toNat →
    getBit (s.inodeTable.get j).singleIndirectBlock.toNat m0 = true

/-- The other files than `i` have the bytes they had. -/
structure OthersKept (i : Nat) (s s' : State) : Prop where
  inode : ∀ j, j ≠ i → s'.inodeTable.get j = s.inodeTable.get j
  bytes : ∀ j, j ≠ i → ∀ q, q < (s.inodeTable.get j).fileSize.toNat →
    (s.inodeTable.get j).bytes s'.dev.disk q = (s.inodeTable.get j).bytes s.dev.disk q

/-- The state after `fs_lseek(fildes, p)` and `fs_write(fildes, w)`. -/
def afterWrite (s : State) (fildes : Int) (p : Nat) (w : List UInt8) : State :=
  (fsWrite (fsLseek s fildes p).2 fildes (fun k => w.getD k 0) w.length).2

/-- **A write that changes only what it was asked to write**: the file, which had the bytes
`bytes`, is read back with `w` at `p`, and the other files are as they were. -/
structure ChangesOnly (s : State) (fildes : Int) (bytes : List UInt8) (p : Nat) (w : List UInt8) :
    Prop where
  seek : (fsLseek s fildes p).1 = 0
  ret : (fsWrite (fsLseek s fildes p).2 fildes (fun k => w.getD k 0) w.length).1 = w.length
  size : fsGetFilesize (afterWrite s fildes p w) fildes
    = ((max bytes.length (p + w.length) : Nat) : Int)
  back : ∀ mem, readAll fildes mem (fsLseek (afterWrite s fildes p w) fildes 0).2
    [max bytes.length (p + w.length)]
      = [(((max bytes.length (p + w.length) : Nat) : Int), splice bytes w p)]
  others : OthersKept (s.fileOf fildes) s (afterWrite s fildes p w)

/-! ### The bytes -/

theorem length_splice {bytes w : List UInt8} {p : Nat} (hp : p ≤ bytes.length) :
    (splice bytes w p).length = max bytes.length (p + w.length) := by
  simp only [splice, List.length_append, List.length_take, List.length_drop]
  omega

theorem getD_splice {bytes w : List UInt8} {p : Nat} (hp : p ≤ bytes.length) (q : Nat) :
    (splice bytes w p).getD q 0
      = if p ≤ q ∧ q < p + w.length then w.getD (q - p) 0 else bytes.getD q 0 := by
  have htake : (bytes.take p).length = p := by
    rw [List.length_take]
    omega
  rw [splice, List.append_assoc]
  by_cases hqp : q < p
  · rw [List.getD_append _ _ _ _ (by omega), if_neg (by omega)]
    simp only [List.getD_eq_getElem?_getD, List.getElem?_take_of_lt hqp]
  · rw [List.getD_append_right _ _ _ _ (by omega), htake]
    by_cases hqw : q < p + w.length
    · rw [if_pos (by omega), List.getD_append _ _ _ _ (by omega)]
    · rw [if_neg (by omega), List.getD_append_right _ _ _ _ (by omega)]
      simp only [List.getD_eq_getElem?_getD, List.getElem?_drop]
      congr 2
      omega

/-- What the file has is what it should have, when nothing but zeros is lost. -/
theorem patched_eq_splice_iff {bytes w : List UInt8} {p : Nat} (hp : p ≤ bytes.length) :
    (∀ q, q < max bytes.length (p + w.length) →
      patched (fun q => bytes.getD q 0) (fun k => w.getD k 0) p w.length q
        = (splice bytes w p).getD q 0) ↔
    ∀ q, q < bytes.length → Padded p w.length q → bytes.getD q 0 = 0 := by
  constructor
  · intro h q hq hpad
    have := h q (by omega)
    rw [patched_padded hpad, getD_splice hp, if_neg (by have := hpad.2.1; omega)] at this
    exact this.symm
  · intro h q hq
    rw [getD_splice hp]
    split
    · rename_i hin
      rw [patched_written hin.1 hin.2]
    · rename_i hout
      by_cases hpad : Padded p w.length q
      · have := hpad.2.1
        rw [patched_padded hpad, h q (by omega) hpad]
      · exact patched_kept (by omega) hpad

/-! ### The call -/

variable {m0 : Arr 1024 UInt8} {data : Nat → UInt8} {fildes : Int} {len p : Nat} {s : State}

/-- **`fs_write` into the direct blocks of a file**, from an offset in the file. -/
theorem fsWrite_direct (h : Streaming m0 data fildes len s) (hlen : len ≤ 102400)
    (hoff : (s.fd fildes).offset = p) (hp : p ≤ len) {nbyte : Nat} (hend : p + nbyte ≤ 102400)
    (hroom : blocksOf (max len (p + nbyte)) ≤ freeCount m0) (buf : Nat → UInt8) :
    ∃ dev ino, fsWrite s fildes buf nbyte = ((nbyte : Int), { s with
        dev := dev
        inodeTable := s.inodeTable.set (s.fileOf fildes) ino
        fdTable := s.fdTable.set fildes.toNat
          { s.fd fildes with offset := ((p + nbyte : Nat) : Int) } }) ∧
      ino.fileSize.toNat = max len (p + nbyte) ∧
      FileAt m0 dev ino (patched data buf p nbyte) (max len (p + nbyte)) ∧
      ∀ b, getBit b m0 = true → dev.disk.get b = s.dev.disk.get b := by
  have hreq : writeRequest (s.fd fildes).offset nbyte = nbyte := by
    rw [writeRequest_eq nbyte (by omega) (by omega) (by omega)]
    omega
  have hcur : (s.fd fildes).offset.toNat = p := by omega
  have hw := (writeBlocks_direct h.bytes hlen hp hend hroom buf).and
    (writeBlocks_wrote buf nbyte p s.dev (s.inodeOf fildes))
  have hsize := h.size
  cases hr : writeBlocks buf nbyte p s.dev (s.inodeOf fildes) with
  | error e => exact absurd (hw.of_error hr).1 id
  | ok v =>
    obtain ⟨⟨hbw, hfile, hkept⟩, hwrote⟩ := hw.of_ok hr
    obtain ⟨size, hsz, hfin⟩ := finishWrite_eq s fildes v.dev v.ino (n := nbyte) (by omega)
      (by omega)
    rw [hwrote.kept.size] at hsz
    refine ⟨v.dev, { v.ino with fileSize := size }, ?_, by simp only; omega, hfile.resize size,
      hkept⟩
    rw [fsWrite_open h.range h.used h.file, writeOutcome, hreq, hcur, hr]
    simp only
    rw [hbw, hfin, hoff]
    rfl

/-- Blocks that were marked in `m0` are the same, so the other files are. -/
theorem Apart.othersKept {i : Nat} {s' : State} (h : Apart m0 i s)
    (hino : ∀ j, j ≠ i → s'.inodeTable.get j = s.inodeTable.get j)
    (hdisk : ∀ b, getBit b m0 = true → s'.dev.disk.get b = s.dev.disk.get b) :
    OthersKept i s s' := by
  refine ⟨hino, ?_⟩
  intro j hj q hq
  have hblock := hdisk _ (h.blocks j hj (q / 4096) (by omega))
  have hnames : (s.inodeTable.get j).names (tableOf s'.dev.disk (s.inodeTable.get j))
      (blockSlot (q / 4096)) = s.ref (j, blockSlot (q / 4096)) := by
    rw [State.ref, blockSlot]
    split
    · rfl
    · rename_i hge
      have htab := hdisk _ (h.table j hj (by omega))
      simp only [Inode.names, tableOf, htab]
  rw [Inode.bytes, Inode.bytes, byteAt, byteAt, hnames, hblock]
  rfl

/-- In a state that owns its blocks, what the other files name was marked before the file was
made. -/
theorem OI.apart (h : OI s) (hs : Streaming m0 data fildes len s) :
    Apart m0 (s.fileOf fildes) s := by
  have hmarked : ∀ j sl, j ≠ s.fileOf fildes → getBit (s.ref (j, sl)) m0 = true := by
    intro j sl hj
    by_cases h0 : s.ref (j, sl) = 0
    · rw [h0]
      exact hs.bytes.laid.zero
    · rcases hs.bytes.laid.added _ (h.owned.used_of_ne _ h0).2.2 with hm | ⟨sl', hsl'⟩
      · exact hm
      · -- the block would be one of this file as well
        have := h.owned.inj (j, sl) (s.fileOf fildes, sl') h0 hsl'.symm
        exact absurd (Prod.mk.inj this).1 hj
  exact ⟨fun j hj b _ => hmarked j _ hj, fun j hj _ => hmarked j .table hj⟩

theorem afterWrite_streaming (h : Streaming m0 data fildes len s)
    (hapart : Apart m0 (s.fileOf fildes) s) (hlen : len ≤ 102400) (hp : p ≤ len) {w : List UInt8}
    (hend : p + w.length ≤ 102400) (hroom : blocksOf (max len (p + w.length)) ≤ freeCount m0) :
    (fsWrite (fsLseek s fildes p).2 fildes (fun k => w.getD k 0) w.length).1 = w.length ∧
      Streaming m0 (patched data (fun k => w.getD k 0) p w.length) fildes (max len (p + w.length))
        (afterWrite s fildes p w) ∧
      OthersKept (s.fileOf fildes) s (afterWrite s fildes p w) := by
  have hsize := h.size
  obtain ⟨-, hsought, hoff⟩ := fsLseek_streaming h hp
  obtain ⟨dev, ino, hcall, hino, hfile, hkept⟩ := fsWrite_direct hsought hlen hoff hp hend hroom
    (fun k => w.getD k 0)
  have hof : (fsLseek s fildes p).2.fileOf fildes = s.fileOf fildes := by
    rw [fsLseek_inside s h.range (by omega) (by omega)]
    have hr := h.range
    simp only [State.fileOf, State.fd]
    rw [Arr.get_set_self _ (by omega)]
  have htable : (fsLseek s fildes p).2.inodeTable = s.inodeTable := by
    rw [fsLseek_inside s h.range (by omega) (by omega)]
  have hdev : (fsLseek s fildes p).2.dev = s.dev := by
    rw [fsLseek_inside s h.range (by omega) (by omega)]
  have hget : ((fsLseek s fildes p).2.inodeTable.set ((fsLseek s fildes p).2.fileOf fildes) ino).get
      ((fsLseek s fildes p).2.fileOf fildes) = ino := Arr.get_set_self _ hsought.file _
  rw [afterWrite, hcall]
  refine ⟨rfl, (hsought.moved rfl (by omega) ?_ ?_).1, hapart.othersKept ?_ ?_⟩
  · rw [hget]
    exact hino
  · rw [hget]
    exact hfile
  · intro j hj
    show ((fsLseek s fildes p).2.inodeTable.set _ ino).get j = _
    rw [hof, Arr.get_set_ne _ hj, htable]
  · rw [hdev] at hkept
    exact hkept

/-- **When a write changes only what it was asked to write.**  A file that was only written at
its end, has at most `102400` bytes and is written up to there at most, is read back with the new
bytes in their place exactly when what it has behind them in the last block of the write is zero,
unless the write begins inside of that block.  The other files are as they were. -/
theorem fsWrite_changes_only_iff {bytes w : List UInt8}
    (h : Streaming m0 (fun q => bytes.getD q 0) fildes bytes.length s)
    (hapart : Apart m0 (s.fileOf fildes) s) (hlen : bytes.length ≤ 102400) (hp : p ≤ bytes.length)
    (hend : p + w.length ≤ 102400)
    (hroom : blocksOf (max bytes.length (p + w.length))
      ≤ blocksOf bytes.length + freeCount s.dev.blocksBitmap) :
    ChangesOnly s fildes bytes p w ↔
      ∀ q, q < bytes.length → Padded p w.length q → bytes.getD q 0 = 0 := by
  have hcount := h.bytes.laid.count
  rw [decide_eq_false (show ¬ 102400 < bytes.length by omega), Bool.toNat_false] at hcount
  obtain ⟨hret, hstream, hothers⟩ := afterWrite_streaming h hapart hlen hp hend (by omega)
  obtain ⟨-, hback, hoff⟩ := fsLseek_streaming hstream (Nat.zero_le _)
  have hread : ∀ mem, (fsRead (fsLseek (afterWrite s fildes p w) fildes 0).2 fildes mem
        (max bytes.length (p + w.length))).1 = ((max bytes.length (p + w.length) : Nat) : Int) ∧
      ∀ q, q < max bytes.length (p + w.length) →
        (fsRead (fsLseek (afterWrite s fildes p w) fildes 0).2 fildes mem
          (max bytes.length (p + w.length))).2.1 q
        = patched (fun q => bytes.getD q 0) (fun k => w.getD k 0) p w.length q := by
    intro mem
    obtain ⟨hr, hb, -⟩ := fsRead_streaming hback hoff (by omega)
      (show 0 + max bytes.length (p + w.length) ≤ _ by omega) mem
    exact ⟨hr, fun q hq => (hb q hq).trans (by rw [Nat.zero_add])⟩
  rw [← patched_eq_splice_iff hp]
  constructor
  · intro hc q hq
    have hlist := hc.back (fun _ => 0)
    simp only [readAll, List.cons.injEq, Prod.mk.injEq, and_true] at hlist
    have hmap := hlist.2
    rw [map_range_eq_iff (length_splice hp)] at hmap
    rw [← hmap q hq, (hread _).2 q hq]
  · intro hpatch
    refine ⟨(fsLseek_streaming h hp).1, hret, fsGetFilesize_streaming hstream, ?_, hothers⟩
    intro mem
    simp only [readAll, List.cons.injEq, Prod.mk.injEq, and_true]
    refine ⟨(hread mem).1, ?_⟩
    rw [map_range_eq_iff (length_splice hp)]
    intro q hq
    rw [(hread mem).2 q hq, hpatch q hq]

def twoBytes : State :=
  (writeAll 0 (run step (fresh zeroDisk) [.create nameA, .open nameA]) [[7, 7]]).2

theorem twoBytes_streaming :
    Streaming (fresh zeroDisk).dev.blocksBitmap (fun q => [7, 7].getD q 0) 0 2 twoBytes := by
  obtain ⟨hnew, hzero⟩ := newFile_nameA
  obtain ⟨hstart, hoff⟩ := hnew.streaming (unusedEmpty_fresh zeroDisk) hzero
    (fun q => [7, 7].getD q 0)
  exact (writeAll_streaming [[7, 7]] hstart hoff
    ⟨by rw [hoff]; decide, trivial⟩ (by simp) (fun k _ => by simp)
    (by rw [freeCount_fresh]; decide)).2

theorem twoBytes_eq : twoBytes = run step (fresh zeroDisk)
      [.create nameA, .open nameA, .write 0 (fun k => [7, 7].getD k 0) 2] := by
  rw [twoBytes, writeAll, writeAll]
  rfl

theorem twoBytes_owned : OI twoBytes := by
  rw [twoBytes_eq]
  refine ownership_kept zeroDisk [.create nameA, .open nameA, .write 0 (fun k => [7, 7].getD k 0) 2]
    ⟨⟨⟨by decide, by decide⟩, trivial⟩, ⟨trivial, Or.inl (by decide)⟩,
      ⟨⟨by decide, ?_⟩, trivial⟩, trivial⟩
  decide +kernel

/-- A byte written over the second one. -/
theorem fsWrite_changes_only_twoBytes : ChangesOnly twoBytes 0 [7, 7] 1 [9] := by
  have hs := twoBytes_streaming
  have hoi := twoBytes_owned
  have hold : blocksOf ([7, 7] : List UInt8).length = 1 := by decide
  have hnew : blocksOf (max ([7, 7] : List UInt8).length (1 + ([9] : List UInt8).length)) = 1 := by
    decide
  have hroom : blocksOf (max ([7, 7] : List UInt8).length (1 + ([9] : List UInt8).length))
      ≤ blocksOf ([7, 7] : List UInt8).length + freeCount twoBytes.dev.blocksBitmap := by
    rw [hnew, hold]
    exact Nat.le_add_right _ _
  refine (fsWrite_changes_only_iff hs (hoi.apart hs) (by decide) (by decide) (by decide) hroom).mpr ?_
  intro q hq hpad
  have := hpad.2.1
  simp only [List.length_cons, List.length_nil] at hq this
  omega

/-- A byte written over the first one takes the second one with it. -/
theorem fsWrite_loses_byte :
    Streaming (fresh zeroDisk).dev.blocksBitmap (fun q => [7, 7].getD q 0) 0 2 twoBytes ∧
    OI twoBytes ∧ ¬ ChangesOnly twoBytes 0 [7, 7] 0 [9] := by
  have hs := twoBytes_streaming
  have hoi := twoBytes_owned
  refine ⟨hs, hoi, ?_⟩
  intro h
  exact absurd (h.back (fun _ => 0)) (by decide +kernel)

end EC440.FileSystems
