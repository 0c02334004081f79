import EC440.FileSystems.ShortWrite
import EC440.FileSystems.WriteFrame

/-!
# What a truncate keeps

`fs_truncate` gives back the direct blocks behind the new end, and when the new end is behind the
direct blocks, everything the table names: also the blocks in front of the new end.  They are free,
the file still names them, and the next file that is written gets one of them.

A file that is cut in the direct blocks keeps what it needs, but the slots behind the new end name
blocks that may become another file's.  `Inode.cut` is the inode without these slots.  In the state
with the cut inode in the place of the real one every block has one owner (`FileInv.cut`), and calls
on other files do not tell the two apart, so the bytes of the cut inode stay (`KeptFile`).
-/

namespace EC440.FileSystems

open EC440.Lib

variable {s : State} {i length : Nat} {G ino : Inode} {data buf : Nat → UInt8} {fildes : Int}

/-! ### What a truncate gives back -/

theorem getBit_releaseDirect_of_ne (ino : Inode) {b : Nat} :
    ∀ (n start : Nat) (bitmap : Arr 1024 UInt8), getBit b bitmap = true →
      (∀ j, start ≤ j → ino.directBlock.get j ≠ 0 → (ino.directBlock.get j).toNat ≠ b) →
      getBit b (releaseDirect ino n start bitmap).2 = true := by
  intro n
  induction n with
  | zero => exact fun _ _ h _ => h
  | succ n ih =>
    intro start bitmap h hne
    rw [releaseDirect]
    split
    · split
      · rename_i h0
        refine ih _ _ ?_ (fun j hj => hne j (by omega))
        rw [getBit_clearBit, h, decide_eq_false (fun he => hne start (le_refl _) h0 he.symm)]
        rfl
      · exact h
    · exact h

theorem getBit_truncatedBitmap_of_ne {dev : Dev} {b : Nat} (hb : getBit b dev.blocksBitmap = true)
    (hdirect : ∀ j, startingBlock length ≤ j → ino.directBlock.get j ≠ 0 →
      (ino.directBlock.get j).toNat ≠ b)
    (htable : ∀ k, tableOf dev.disk ino k ≠ 0 → (tableOf dev.disk ino k).toNat ≠ b) :
    getBit b (truncatedBitmap dev ino length) = true := by
  have hd := getBit_releaseDirect_of_ne ino 25 (startingBlock length) _ hb hdirect
  rw [truncatedBitmap]
  split
  · rename_i hs
    refine (getBit_clearBlocks _ _ _ _).mpr ⟨hd, ?_⟩
    intro k _ hk
    have := htable k
    rw [tableOf, if_neg hs.1] at this
    exact this hk
  · exact hd

/-! ### The inode that is left -/

/-- The inode with its first `n` direct blocks only. -/
def Inode.cut (ino : Inode) (n : Nat) : Inode :=
  { ino with
    directBlock := Arr.ofFn (fun j => if j < n then ino.directBlock.get j else 0)
    singleIndirectBlock := 0 }

theorem Inode.get_cut (ino : Inode) (n j : Nat) :
    (ino.cut n).directBlock.get j = if j < n then ino.directBlock.get j else 0 := by
  show (Arr.ofFn (fun j => if j < n then ino.directBlock.get j else 0) : Arr 25 UInt16).get j = _
  by_cases hj : j < 25
  · exact Arr.get_ofFn _ hj
  · rw [Arr.get_of_ge _ (by omega), Arr.get_of_ge ino.directBlock (by omega)]
    exact (ite_self _).symm

theorem Inode.cut_names (ino : Inode) (n : Nat) (disk : Disk) {sl : Slot}
    (h : (ino.cut n).names (tableOf disk (ino.cut n)) sl ≠ 0) :
    ∃ j, j < n ∧ sl = .direct j ∧
      (ino.cut n).names (tableOf disk (ino.cut n)) sl = (ino.directBlock.get j).toNat := by
  cases sl with
  | direct j =>
    rw [Inode.names, Inode.get_cut] at h ⊢
    by_cases hj : j < n
    · exact ⟨j, hj, rfl, by rw [if_pos hj]⟩
    · rw [if_neg hj] at h
      exact absurd rfl h
  | table => exact absurd rfl h
  | entry k =>
    rw [Inode.names, tableOf_eq_zero (by rfl)] at h
    exact absurd rfl h

theorem startingBlock_eq (hlen : length ≤ 102400) : startingBlock length = blocksOf length := by
  rw [startingBlock, blocksOf]
  split <;> omega

theorem get_withInode (s : State) (hi : i < 64) (G : Inode) (j : Nat) :
    (s.withInode i G).inodeTable.get j = if j = i then G else s.inodeTable.get j := by
  show (s.inodeTable.set i G).get j = _
  rw [Arr.get_set]
  exact if_congr (by simp [hi]) rfl rfl

theorem withInode_self (s : State) (i : Nat) : s.withInode i (s.inodeTable.get i) = s := by
  rw [State.withInode, Arr.set_get]

/-- The state behind `fs_truncate`, with nothing behind the new end. -/
def State.cut (s : State) (fildes : Int) (length : Nat) : State :=
  let s' := finishTruncate s fildes.toNat length
    (truncatedBitmap s.dev (s.inodeOf fildes) length)
  s'.withInode (s.fileOf fildes) ((s'.inodeTable.get (s.fileOf fildes)).cut (blocksOf length))

theorem get_stateCut (s : State) (hfile : s.fileOf fildes < 64) (length j : Nat) :
    (s.cut fildes length).inodeTable.get j =
      if j = s.fileOf fildes then
        { (s.inodeOf fildes).cut (blocksOf length) with fileSize := toUInt32 length }
      else s.inodeTable.get j := by
  rw [State.cut, get_withInode _ hfile]
  split
  · show ((s.inodeTable.set (s.fileOf fildes) _).get (s.fileOf fildes)).cut _ = _
    rw [Arr.get_set_self _ hfile]
    rfl
  · rename_i hj
    exact Arr.get_set_ne _ hj _

theorem cut_ref (hfile : s.fileOf fildes < 64) {x : Nat × Slot}
    (h : (s.cut fildes length).ref x ≠ 0) : (s.cut fildes length).ref x = s.ref x ∧
      (x.1 = s.fileOf fildes → ∃ j, j < blocksOf length ∧ x.2 = .direct j) := by
  obtain ⟨j, sl⟩ := x
  have hdisk : (s.cut fildes length).dev.disk = s.dev.disk := rfl
  rw [State.ref, get_stateCut s hfile, hdisk] at h ⊢
  simp only at h ⊢
  by_cases hj : j = s.fileOf fildes
  · rw [if_pos hj] at h ⊢
    obtain ⟨k, hk, hsl, he⟩ := ((s.inodeOf fildes).cut_names (blocksOf length) s.dev.disk) h
    refine ⟨he.trans ?_, fun _ => ⟨k, hk, hsl⟩⟩
    rw [State.ref, hsl, hj]
    rfl
  · rw [if_neg hj]
    exact ⟨rfl, fun he => absurd he hj⟩

theorem cut_bit (hlen : length ≤ 102400) {b : Nat}
    (hb : getBit b s.dev.blocksBitmap = true)
    (hne : ∀ sl, s.ref (s.fileOf fildes, sl) = b → b ≠ 0 → ∃ j, j < blocksOf length ∧ sl = .direct j) :
    getBit b (s.cut fildes length).dev.blocksBitmap = true := by
  refine getBit_truncatedBitmap_of_ne hb ?_ ?_
  · intro j hj h0 he
    obtain ⟨k, hk, hsl⟩ := hne (.direct j) he (fun hb0 => h0 (UInt16.toNat_inj.mp (he.trans hb0)))
    rw [startingBlock_eq hlen] at hj
    cases hsl
    omega
  · intro k h0 he
    obtain ⟨j, -, hsl⟩ := hne (.entry k) he (fun hb0 => h0 (UInt16.toNat_inj.mp (he.trans hb0)))
    cases hsl

theorem OI.cut (h : OI s) (hfile : s.fileOf fildes < 64)
    (hused : getBit (s.fileOf fildes) s.inodesBitmap = true) (hlen : length ≤ 102400) :
    OI (s.cut fildes length) := by
  refine ⟨?_, h.owned.drop (fun x hx => (cut_ref hfile hx).1) ?_, ?_⟩
  · intro b hb
    -- no inode names one of the first five blocks
    refine cut_bit hlen (h.reserved b hb) ?_
    intro sl he h0
    have := (h.owned.used_of_ne (s.fileOf fildes, sl) (by rwa [he])).1
    omega
  · intro x hx
    obtain ⟨he, hown⟩ := cut_ref hfile hx
    rw [he] at hx
    obtain ⟨h5, hlt, hbit⟩ := h.owned.used_of_ne x hx
    refine ⟨h5, hlt, cut_bit hlen hbit ?_⟩
    intro sl hsl _
    obtain rfl := h.owned.inj x (s.fileOf fildes, sl) hx hsl.symm
    exact hown rfl
  · intro j hj hb
    have hne : j ≠ s.fileOf fildes := by
      rintro rfl
      rw [show getBit (s.fileOf fildes) (s.cut fildes length).inodesBitmap = true from hused] at hb
      cases hb
    rw [get_stateCut s hfile, if_neg hne]
    exact h.unused j hj hb

theorem BlockInv.cut (h : BlockInv s) (hu : (s.fd fildes).isUsed = true) (hlen : length ≤ 102400) :
    BlockInv (s.cut fildes length) := by
  have hfile : s.fileOf fildes < 64 := h.file _
  have hfd := finishTruncate_fd s fildes.toNat length
    (truncatedBitmap s.dev (s.inodeOf fildes) length) (by omega)
  have hget := get_stateCut s hfile length
  have hdir : DirInv (s.cut fildes length) := by
    refine h.dir.same ⟨rfl, rfl, ?_⟩
    intro j
    rw [hget]
    split
    · rename_i hj
      rw [hj]
      rfl
    · rfl
  refine ⟨hdir, h.oi.cut hfile (h.inUse _ hu) hlen, ?_, ?_, ?_, ?_, ?_⟩
  · intro k
    rcases hfd k with ⟨-, -, hg⟩ | ⟨-, hg⟩ <;>
    · rw [show (s.cut fildes length).fdTable.get k = _ from hg]
      exact h.file k
  · intro k
    rcases hfd k with ⟨-, -, hg⟩ | ⟨-, hg⟩
    · rw [show (s.cut fildes length).fdTable.get k = _ from hg]
      show 0 ≤ (length : Int) ∧ (length : Int) ≤ 2 ^ 20
      omega
    · rw [show (s.cut fildes length).fdTable.get k = _ from hg]
      exact h.offset k
  · intro k hk
    rcases hfd k with ⟨-, -, hg⟩ | ⟨-, hg⟩ <;>
    · rw [show (s.cut fildes length).fdTable.get k = _ from hg] at hk ⊢
      exact h.inUse k hk
  · intro j
    rw [hget]
    split
    · show (toUInt32 (length : Int)).toNat ≤ _
      rw [toUInt32_of_small (by omega) (by omega)]
      omega
    · exact h.size j
  · intro j k hk
    rw [hget]
    split
    · rfl
    · exact h.high j k hk

theorem MapInv.cut (h : MapInv s) (hfile : s.fileOf fildes < 64) (hlen : length ≤ 102400)
    (hle : length ≤ (s.inodeOf fildes).fileSize.toNat)
    (hothers : ∀ k, k ≠ fildes.toNat → (s.fdTable.get k).isUsed = true →
      (s.fdTable.get k).inodeNumber.toNat = s.fileOf fildes → (s.fdTable.get k).offset ≤ length) :
    MapInv (s.cut fildes length) := by
  have hfd := finishTruncate_fd s fildes.toNat length
    (truncatedBitmap s.dev (s.inodeOf fildes) length) (by omega)
  have hget := get_stateCut s hfile length
  have hown : Mapped ((s.cut fildes length).inodeTable.get (s.fileOf fildes)) length := by
    rw [hget, if_pos rfl]
    refine ⟨?_, fun hlt => by omega⟩
    intro j hj hlt
    show ((s.inodeOf fildes).cut (blocksOf length)).directBlock.get j ≠ 0
    rw [Inode.get_cut, if_pos (by rw [blocksOf]; omega)]
    exact (h.size (s.fileOf fildes)).direct j hj (lt_of_lt_of_le hlt hle)
  refine ⟨?_, ?_⟩
  · intro j
    by_cases hj : j = s.fileOf fildes
    · have hsize : ((s.cut fildes length).inodeTable.get j).fileSize.toNat = length := by
        rw [hget, if_pos hj]
        show (toUInt32 (length : Int)).toNat = length
        rw [toUInt32_of_small (by omega) (by omega)]
        omega
      rw [hsize, hj]
      exact hown
    · rw [hget, if_neg hj]
      exact h.size j
  · intro k hk
    have hoff : ((s.cut fildes length).fdTable.get k).inodeNumber.toNat = s.fileOf fildes →
        ((s.cut fildes length).fdTable.get k).offset.toNat ≤ length := by
      intro hfk
      rcases hfd k with ⟨-, -, hg⟩ | ⟨hle, hg⟩
      · rw [show (s.cut fildes length).fdTable.get k = _ from hg]
        show (length : Int).toNat ≤ length
        omega
      · rw [show (s.cut fildes length).fdTable.get k = _ from hg] at hk hfk ⊢
        by_cases hkf : k = fildes.toNat
        · have := hle hkf
          omega
        · have := hothers k hkf hk hfk
          omega
    by_cases hj : ((s.cut fildes length).fdTable.get k).inodeNumber.toNat = s.fileOf fildes
    · rw [hj]
      exact hown.mono (hoff hj)
    · rw [hget, if_neg hj]
      rcases hfd k with ⟨rfl, -, hg⟩ | ⟨-, hg⟩
      · rw [show (s.cut fildes length).fdTable.get _ = _ from hg] at hj
        exact absurd rfl hj
      · rw [show (s.cut fildes length).fdTable.get k = _ from hg] at hk ⊢
        exact h.cursor k hk

/-! ### Calls on other files -/

/-- Descriptor `fildes` is open on inode `i`, a file of the `len` bytes `data`.  They lie in the
blocks of `G`: with it in the place of the inode, every block has one owner.  The other descriptors
of the file have not moved. -/
structure KeptFile (i : Nat) (G : Inode) (data : Nat → UInt8) (len : Nat) (fildes : Int) (s : State) :
    Prop where
  inv : FileInv (s.withInode i G)
  range : 0 ≤ fildes ∧ fildes ≤ 31
  used : (s.fd fildes).isUsed = true
  file : s.fileOf fildes = i
  lt : i < 64
  number : G.inodeNumber = (s.inodeTable.get i).inodeNumber
  size : (s.inodeTable.get i).fileSize.toNat = len
  direct : ∀ j, 4096 * j < len → (s.inodeTable.get i).directBlock.get j = G.directBlock.get j
  table : 102400 < len → (s.inodeTable.get i).singleIndirectBlock = G.singleIndirectBlock
  blocks : BlocksBelow s.dev.disk G len
  bytes : ∀ p, p < len → G.bytes s.dev.disk p = data p
  others : ∀ k, k ≠ fildes.toNat → (s.fdTable.get k).isUsed = true →
    (s.fdTable.get k).inodeNumber.toNat = i → (s.fdTable.get k).offset = 0

variable {len : Nat} {c : Call}

theorem KeptFile.names (h : KeptFile i G data len fildes s) {b : Nat} (hb : 4096 * b < len) :
    (s.inodeTable.get i).names (tableOf s.dev.disk (s.inodeTable.get i)) (blockSlot b)
      = G.names (tableOf s.dev.disk G) (blockSlot b) := by
  rw [blockSlot]
  split
  · rw [Inode.names, Inode.names, h.direct b hb]
  · rw [Inode.names, Inode.names, tableOf_congr _ (h.table (by omega))]

/-- **The file is read back.** -/
theorem KeptFile.read (h : KeptFile i G data len fildes s) (hmax : len ≤ 2 ^ 20) :
    (fsLseek s fildes 0).1 = 0 ∧ ∀ mem, (fsRead (fsLseek s fildes 0).2 fildes mem len).1 = len ∧
      ∀ k, k < len → (fsRead (fsLseek s fildes 0).2 fildes mem len).2.1 k = data k := by
  have hino : s.inodeOf fildes = s.inodeTable.get i := by rw [State.inodeOf, h.file]
  have hb : BlocksBelow s.dev.disk (s.inodeOf fildes) (s.inodeOf fildes).fileSize.toNat := by
    rw [hino, h.size]
    intro b hb
    rw [h.names hb]
    exact h.blocks b hb
  obtain ⟨hseek, hread⟩ := fsLseek_read (n := len) h.range h.used hb
    (by rw [hino, h.size]) hmax
  refine ⟨hseek, ?_⟩
  intro mem
  refine ⟨(hread mem).1, ?_⟩
  intro k hk
  rw [(hread mem).2 k hk, hino, ← h.bytes k hk, Inode.bytes, byteAt, Inode.bytes, byteAt,
    h.names (by omega)]

theorem fsWrite_tables (s : State) (fildes : Int) (buf : Nat → UInt8) (nbyte : Nat) :
    ∃ ino off, (fsWrite s fildes buf nbyte).2.inodeTable = s.inodeTable.set (s.fileOf fildes) ino ∧
      (fsWrite s fildes buf nbyte).2.fdTable
        = s.fdTable.set fildes.toNat { s.fd fildes with offset := off } := by
  have hself : s.fdTable.set fildes.toNat (s.fd fildes) = s.fdTable := Arr.set_get _ _
  rcases fsWrite_cases s fildes buf nbyte with
    h | ⟨-, -, -, -, ⟨v, -, h⟩ | ⟨e, -, -, h⟩ | ⟨e, -, -, h⟩⟩
  · rw [h]
    exact ⟨s.inodeTable.get (s.fileOf fildes), (s.fd fildes).offset, (Arr.set_get _ _).symm,
      hself.symm⟩
  · rw [h]
    exact ⟨_, _, rfl, rfl⟩
  · rw [h]
    exact ⟨_, _, rfl, rfl⟩
  · rw [h]
    exact ⟨_, (s.fd fildes).offset, rfl, hself.symm⟩

/-- What a call on another file leaves alone: the inode, the open descriptors of the file, and a new
one stands at its start. -/
theorem OtherFile.tables (hc : OtherFile i s c) :
    (step s c).2.inodeTable.get i = s.inodeTable.get i ∧
    (∀ k, (s.fdTable.get k).isUsed = true → (s.fdTable.get k).inodeNumber.toNat = i →
      (step s c).2.fdTable.get k = s.fdTable.get k) ∧
    ∀ k, ((step s c).2.fdTable.get k).inodeNumber.toNat = i →
      (step s c).2.fdTable.get k = s.fdTable.get k ∨ ((step s c).2.fdTable.get k).offset = 0 := by
  cases c, hc using OtherFile.split with
  | create name =>
    obtain ⟨r, t, bits, h, -⟩ := fsCreate_frame s name
    rw [step, h]
    exact ⟨rfl, fun _ _ _ => rfl, fun _ _ => Or.inl rfl⟩
  | «open» name =>
    rcases fsOpen_cases s name with h | ⟨j, fd, -, hfd, h⟩
    · rw [step, h]
      exact ⟨rfl, fun _ _ _ => rfl, fun _ _ => Or.inl rfl⟩
    · obtain ⟨-, hfree⟩ := findFd_eq_some hfd
      rw [step, h]
      refine ⟨rfl, ?_, ?_⟩
      · intro k hk _
        refine Arr.get_set_ne _ ?_ _
        rintro rfl
        rw [hfree] at hk
        cases hk
      · intro k _
        simp only
        rw [Arr.get_set]
        split
        · exact Or.inr rfl
        · exact Or.inl rfl
  | closed f buf nbyte hclosed =>
    rw [step, fsWrite_closed hclosed]
    exact ⟨rfl, fun _ _ _ => rfl, fun _ _ => Or.inl rfl⟩
  | write f buf nbyte _ hc =>
    obtain ⟨ino, off, hino, hfd⟩ := fsWrite_tables s f buf nbyte
    rw [step, hino, hfd]
    refine ⟨Arr.get_set_ne _ (Ne.symm hc) _, ?_, ?_⟩
    · intro k _ hk
      refine Arr.get_set_ne _ ?_ _
      rintro rfl
      exact hc hk
    · intro k hk
      rcases Arr.get_set_cases s.fdTable f.toNat k { s.fd f with offset := off } with ⟨hg, rfl⟩ | hg
      · rw [hg] at hk
        exact absurd hk hc
      · exact Or.inl hg

/-- A call that keeps the files keeps them with another inode in the place of `i`. -/
theorem OtherFile.keepsFiles (hc : OtherFile i s c) (hk : KeepsFiles s c) (G : Inode) :
    KeepsFiles (s.withInode i G) c := by
  cases c, hc using OtherFile.split with
  | create name => exact hk
  | «open» name => exact hk
  | closed f buf nbyte hclosed => exact fun hopen => absurd hopen hclosed
  | write f buf nbyte hopen hc =>
    intro _
    have hino : (s.withInode i G).inodeOf f = s.inodeOf f := Arr.get_set_ne _ hc _
    rw [hino]
    exact hk hopen

theorem OtherFile.disk (hc : OtherFile i s c) (hk : KeepsFiles s c) (hi : i < 64)
    (hinv : BlockInv (s.withInode i G)) {sl : Slot}
    (h0 : G.names (tableOf s.dev.disk G) sl ≠ 0) :
    (step s c).2.dev.disk.get (G.names (tableOf s.dev.disk G) sl)
      = s.dev.disk.get (G.names (tableOf s.dev.disk G) sl) := by
  have href : (s.withInode i G).ref (i, sl) = G.names (tableOf s.dev.disk G) sl := by
    rw [State.ref, get_withInode s hi, if_pos rfl]
    rfl
  cases c, hc using OtherFile.split with
  | create name =>
    obtain ⟨r, t, bits, h, -⟩ := fsCreate_frame s name
    rw [step, h]
  | «open» name =>
    rcases fsOpen_cases s name with h | ⟨j, fd, -, -, h⟩ <;> rw [step, h]
  | closed f buf nbyte hclosed => rw [step, fsWrite_closed hclosed]
  | write f buf nbyte hopen hc =>
    have hsame := fsWrite_othersSame hinv f buf (hk hopen).1 (i, sl) (Ne.symm hc) (by rwa [href])
    rw [fsWrite_withInode hc, href] at hsame
    exact hsame

/-- **A call on another file keeps the file.** -/
theorem KeptFile.step (h : KeptFile i G data len fildes s) (hc : OtherFile i s c)
    (hk : KeepsFiles s c) : KeptFile i G data len fildes (step s c).2 := by
  obtain ⟨hino, hfd, hnew⟩ := hc.tables
  have hdisk : ∀ sl, G.names (tableOf s.dev.disk G) sl ≠ 0 →
      (EC440.FileSystems.step s c).2.dev.disk.get (G.names (tableOf s.dev.disk G) sl)
        = s.dev.disk.get (G.names (tableOf s.dev.disk G) sl) :=
    fun _ h0 => hc.disk hk h.lt h.inv.blocks h0
  have hget : (EC440.FileSystems.step s c).2.fd fildes = s.fd fildes := hfd _ h.used h.file
  have hinv := h.inv.step (hc.keepsFiles hk G)
  rw [step_withInode hc h.number] at hinv
  have htab : tableOf (EC440.FileSystems.step s c).2.dev.disk G = tableOf s.dev.disk G := by
    funext k
    by_cases hs : G.singleIndirectBlock = 0
    · rw [tableOf, tableOf, if_pos hs, if_pos hs]
    · have : (EC440.FileSystems.step s c).2.dev.disk.get G.singleIndirectBlock.toNat = _ :=
        hdisk .table fun he => hs (UInt16.toNat_inj.mp he)
      rw [tableOf, tableOf, if_neg hs, if_neg hs, this]
      rfl
  refine ⟨hinv, h.range, ?_, ?_, h.lt, ?_, ?_, ?_, ?_, ?_, ?_, ?_⟩
  · rw [hget]
    exact h.used
  · rw [State.fileOf, hget]
    exact h.file
  · rw [hino]
    exact h.number
  · rw [hino]
    exact h.size
  · rw [hino]
    exact h.direct
  · rw [hino]
    exact h.table
  · intro b hb
    rw [htab]
    exact h.blocks b hb
  · intro p hp
    rw [← h.bytes p hp, Inode.bytes, byteAt, Inode.bytes, byteAt, htab,
      hdisk _ (h.blocks _ (by omega)).1]
  · intro k hkf hu hfile
    rcases hnew k hfile with hsame | h0
    · rw [hsame] at hu hfile ⊢
      exact h.others k hkf hu hfile
    · exact h0

theorem KeptFile.run (h : KeptFile i G data len fildes s) {cs : List Call}
    (hcs : RunOk EC440.FileSystems.step (fun s c => OtherFile i s c ∧ KeepsFiles s c) s cs) :
    KeptFile i G data len fildes (EC440.Lib.run EC440.FileSystems.step s cs) :=
  run_invariant (I := KeptFile i G data len fildes) (fun _ _ hs hc => hs.step hc.1 hc.2) cs s h hcs

/-- Before a truncate the file names the blocks of its own inode, and calls on other files leave it
that way. -/
theorem KeptFile.run_self (h : KeptFile i (s.inodeTable.get i) data len fildes s) {cs : List Call}
    (hcs : RunOk EC440.FileSystems.step (fun s c => OtherFile i s c ∧ KeepsFiles s c) s cs) {t : State}
    (ht : t = EC440.Lib.run EC440.FileSystems.step s cs) :
    KeptFile i (t.inodeTable.get i) data len fildes t := by
  have hsame : t.inodeTable.get i = s.inodeTable.get i := by
    rw [ht]
    exact run_invariant (I := fun t => t.inodeTable.get i = s.inodeTable.get i)
      (fun _ _ hs hc => hc.1.tables.1.trans hs) cs s rfl hcs
  rw [hsame, ht]
  exact h.run hcs

/-! ### The cut -/

/-- **A truncate in the direct blocks keeps the bytes in front of the new end.** -/
theorem KeptFile.truncate (h : KeptFile i (s.inodeTable.get i) data len fildes s)
    (hmax : len ≤ 2 ^ 20) (hle : length ≤ len) (hcut : length = len ∨ length ≤ 102400) :
    (fsTruncate s fildes length).1 = 0 ∧
      ∃ G, KeptFile i G data length fildes (fsTruncate s fildes length).2 := by
  have hfile := h.file
  subst hfile
  have hsize : (s.inodeOf fildes).fileSize.toNat = len := h.size
  have hinv := h.inv
  rw [withInode_self] at hinv
  rcases fsTruncate_cases s fildes length with ⟨hbad, -⟩ | ⟨-, -, -, heq, he⟩ | ⟨-, -, -, -, hlt, he⟩
  · have := hbad h.range.1 h.range.2 h.used (by omega)
    omega
  · obtain rfl : length = len := by omega
    rw [he]
    exact ⟨rfl, _, h⟩
  · have hlen : length ≤ 102400 := by omega
    have hothers : ∀ k, k ≠ fildes.toNat → (s.fdTable.get k).isUsed = true →
        (s.fdTable.get k).inodeNumber.toNat = s.fileOf fildes → (s.fdTable.get k).offset ≤ length := by
      intro k hk hu hf
      rw [h.others k hk hu hf]
      omega
    have hfd := finishTruncate_fd s fildes.toNat length
      (truncatedBitmap s.dev (s.inodeOf fildes) length) (by omega)
    have hown : (finishTruncate s fildes.toNat length
        (truncatedBitmap s.dev (s.inodeOf fildes) length)).inodeTable.get (s.fileOf fildes)
        = { s.inodeOf fildes with fileSize := toUInt32 length } := Arr.get_set_self _ h.lt _
    obtain ⟨G, hG⟩ : ∃ G, G = { s.inodeOf fildes with
      fileSize := toUInt32 length }.cut (blocksOf length) := ⟨_, rfl⟩
    have hdirect : ∀ j, 4096 * j < length →
        G.directBlock.get j = (s.inodeOf fildes).directBlock.get j := by
      intro j hj
      rw [hG, Inode.get_cut, if_pos (by rw [blocksOf]; omega)]
    -- in front of the new end the cut inode names what the file did
    have hnames : ∀ b, 4096 * b < length → G.names (tableOf s.dev.disk G) (blockSlot b)
        = (s.inodeOf fildes).names (tableOf s.dev.disk (s.inodeOf fildes)) (blockSlot b) := by
      intro b hb
      rw [names_direct _ _ (by omega), names_direct _ _ (by omega), hdirect b hb]
    rw [he, Int.toNat_natCast]
    refine ⟨rfl, G, ?_, h.range, ?_, ?_, h.lt, ?_, ?_, ?_, ?_, ?_, ?_, ?_⟩
    · have hcutInv : FileInv (s.cut fildes length) := ⟨hinv.blocks.cut h.used hlen,
        hinv.map.cut h.lt hlen (by omega) hothers⟩
      rw [State.cut] at hcutInv
      simp only [hown] at hcutInv
      rw [hG]
      exact hcutInv
    · rcases hfd fildes.toNat with ⟨-, -, hg⟩ | ⟨-, hg⟩ <;>
      · rw [State.fd, hg]
        exact h.used
    · rcases hfd fildes.toNat with ⟨-, -, hg⟩ | ⟨-, hg⟩ <;>
      · rw [State.fileOf, State.fd, hg]
    · rw [hown, hG]
      rfl
    · rw [hown]
      show (toUInt32 (length : Int)).toNat = length
      rw [toUInt32_of_small (by omega) (by omega)]
      omega
    · intro j hj
      rw [hown, hdirect j hj]
    · intro hlt
      omega
    · intro b hb
      show G.names (tableOf s.dev.disk G) (blockSlot b) ≠ 0 ∧
        G.names (tableOf s.dev.disk G) (blockSlot b) < 8192
      rw [hnames b hb]
      exact h.blocks b (by omega)
    · intro p hp
      show byteAt s.dev.disk G (tableOf s.dev.disk G) p = data p
      rw [← h.bytes p (by omega), byteAt, hnames _ (by omega)]
      rfl
    · intro k hk hu hf
      rcases hfd k with ⟨he, -⟩ | ⟨-, hg⟩
      · exact absurd he hk
      · rw [hg] at hu hf ⊢
        exact h.others k hk hu hf

/-! ### The file that was written -/

theorem holes_le (ino : Inode) (j : Nat) : holes ino j ≤ 25 - j :=
  le_trans List.countP_le_length (by rw [List.length_range'])

/-- A file that was empty and is laid out had the room for its table. -/
theorem FileAt.roomForTable {dev dev' : Dev} {n : Nat}
    (h : FileAt dev.blocksBitmap dev' ino buf n) (ino' : Inode) : RoomForTable dev ino' 0 n := by
  intro _ hlt
  have hcount := h.laid.count
  have hholes := holes_le ino' (0 / 4096)
  have hneeded : blocksNeeded (0 + n - 102400) ≤ blocksOf n - 25 := by
    refine blocksNeeded_le ?_
    rw [blocksOf]
    omega
  rw [decide_eq_true (show 102400 < n by omega), Bool.toNat_true] at hcount
  have h25 : 25 ≤ blocksOf n := by
    rw [blocksOf]
    omega
  refine Or.inr ?_
  omega

/-- **A file written by one `fs_write`.** -/
theorem EmptyFile.keptFile (h : EmptyFile s fildes) (hinv : FileInv s) {n : Nat} (hn : n ≤ 2 ^ 20)
    (buf : Nat → UInt8) (hret : (fsWrite s fildes buf n).1 = n) :
    KeptFile (s.fileOf fildes) ((fsWrite s fildes buf n).2.inodeTable.get (s.fileOf fildes)) buf n
      fildes (fsWrite s fildes buf n).2 := by
  rcases h.write_cases hn buf with ⟨dev, ino, hcall, hsize, hfile⟩ | ⟨e, hcall, hsize, he⟩
  · have hok : KeepsFiles s (.write fildes buf n) := by
      intro _
      refine ⟨by omega, ?_⟩
      have hreq : writeRequest (s.fd fildes).offset n = n := by
        rw [h.offset, writeRequest_eq n (by omega) (by omega) (by omega)]
        omega
      rw [hreq, h.offset]
      exact hfile.roomForTable _
    have hinv' := hinv.write buf hok
    obtain ⟨size, s', hfin, hsz, hdev, hfd, hof, hino⟩ := h.finishWrite dev hsize hn
    obtain ⟨ino', off, -, hfds⟩ := fsWrite_tables s fildes buf n
    rw [hcall, hfin] at hinv' hfds ⊢
    have hget : s'.inodeTable.get (s.fileOf fildes) = { ino with fileSize := size } := by
      rw [← hof]
      exact hino
    have hlaid := hfile.resize size
    refine ⟨?_, h.range, ?_, hof, h.file, rfl, ?_, fun _ _ => rfl, fun _ => rfl, ?_, ?_, ?_⟩
    · rw [withInode_self]
      exact hinv'
    · show (s'.fd fildes).isUsed = true
      rw [hfd]
      exact h.used
    · simp only [hget]
      exact hsz
    · simp only [hget, hdev]
      exact hlaid.blocksBelow
    · simp only [hget, hdev]
      exact hlaid.bytes
    · intro k hk hu hf
      simp only at hfds hu hf ⊢
      rw [hfds, Arr.get_set_ne _ hk] at hu hf ⊢
      -- the file had no block, so none of its descriptors had moved
      have hmapped := hinv.map.cursor k hu
      have hoff := (hinv.blocks.offset k).1
      rw [hf] at hmapped
      by_contra hne
      exact hmapped.direct 0 (by decide) (by omega) (h.direct 0)
  · obtain ⟨size, s', hfin, -⟩ := h.finishWrite e.dev hsize (show e.bytesWritten ≤ 2 ^ 20 by
      have := he.lt
      omega)
    have hlt := he.lt
    rw [hcall, hfin] at hret
    simp only at hret
    omega

/-- **What a truncate keeps.**  A file is written by one `fs_write` of `n` bytes and cut to its length
or inside of its direct blocks.  Whatever is done to other files, in between and then, the bytes in
front of the new end are read back.  In the whole run no write loses a new table and no other
truncate gives back a block. -/
theorem truncate_reads_back (blank : Disk) (before between after : List Call) (fildes : Int)
    (buf : Nat → UInt8) {n length : Nat} {s t : State}
    (hbefore : RunOk step KeepsFiles (fresh blank) before)
    (hempty : EmptyFile (run step (fresh blank) before) fildes) (hn : n ≤ 2 ^ 20)
    (hwrite : (fsWrite (run step (fresh blank) before) fildes buf n).1 = n)
    (hbetween : RunOk step
      (fun s c => OtherFile ((run step (fresh blank) before).fileOf fildes) s c ∧ KeepsFiles s c)
      (fsWrite (run step (fresh blank) before) fildes buf n).2 between)
    (hs : s = run step (fsWrite (run step (fresh blank) before) fildes buf n).2 between)
    (hle : length ≤ n) (hcut : length = n ∨ length ≤ 102400)
    (hafter : RunOk step (fun s' c => OtherFile (s.fileOf fildes) s' c ∧ KeepsFiles s' c)
      (fsTruncate s fildes length).2 after)
    (ht : t = run step (fsTruncate s fildes length).2 after) :
    (fsTruncate s fildes length).1 = 0 ∧ (fsLseek t fildes 0).1 = 0 ∧
      ∀ mem, (fsRead (fsLseek t fildes 0).2 fildes mem length).1 = length ∧
        ∀ k, k < length → (fsRead (fsLseek t fildes 0).2 fildes mem length).2.1 k = buf k := by
  have hwritten := hempty.keptFile (run_fileInv blank hbefore) hn buf hwrite
  have hkept := hwritten.run_self hbetween hs
  obtain ⟨hret, G, hG⟩ := hkept.truncate hn hle hcut
  rw [hkept.file] at hafter
  rw [ht]
  exact ⟨hret, (hG.run hafter).read (by omega)⟩

/-- Two bytes are written to a file, another file is made, and the first is cut to one byte. -/
def cutToOne : State :=
  (fsTruncate (run step (fsWrite (run step (fresh zeroDisk) [.create nameA, .open nameA]) 0
    (fun _ => 7) 2).2 [.create nameB, .open nameB]) 0 1).2

/-- The byte is read back after a write to the other file. -/
theorem truncate_reads_back_oneByte :
    (fsRead (fsLseek (run step cutToOne [.write 1 (fun _ => 9) 1]) 0 0).2 0 (fun _ => 0) 1).2.1 0
      = 7 := by
  obtain ⟨hnew, hzero⟩ := newFile_nameA
  have hA : ValidName nameA := ⟨by decide, by decide⟩
  have hB : ValidName nameB := ⟨by decide, by decide⟩
  have hsizes : 2 ≤ 2 ^ 20 ∧ 1 < 2 ^ 63 := by decide
  have heval : (fsWrite (run step (fresh zeroDisk) [.create nameA, .open nameA]) 0
        (fun _ => 7) 2).1 = 2 ∧
      cutToOne.fileOf 1 ≠ (run step (fsWrite (run step (fresh zeroDisk)
        [.create nameA, .open nameA]) 0 (fun _ => 7) 2).2 [.create nameB, .open nameB]).fileOf 0 ∧
      ¬ 102400 < (cutToOne.fd 1).offset.toNat + writeRequest (cutToOne.fd 1).offset 1 := by
    decide +kernel
  exact ((truncate_reads_back zeroDisk [.create nameA, .open nameA] [.create nameB, .open nameB]
    [.write 1 (fun _ => 9) 1] 0 (fun _ => 7) ⟨hA, Or.inl (by decide), trivial⟩
    (hnew.emptyFile (unusedEmpty_fresh zeroDisk) hzero) hsizes.1 heval.1
    ⟨⟨trivial, hB⟩, ⟨trivial, Or.inl (by decide)⟩, trivial⟩ rfl (by decide) (Or.inr (by decide))
    ⟨⟨fun _ => heval.2.1, fun _ => ⟨hsizes.2, fun _ hlt => absurd hlt heval.2.2⟩⟩, trivial⟩ rfl).2.2
    (fun _ => 0)).2 0 (by decide)

/-- A file of 26 blocks is cut inside of its table, and another file is written. -/
def cutInTable : List Call :=
  [.create nameA, .open nameA, .write 0 (fun _ => 7) 102402, .truncate 0 102401, .create nameB,
    .open nameB, .write 1 (fun _ => 9) 1, .lseek 0 0]

/-- The first block of the table was given to the other file. -/
theorem truncate_loses_block :
    replies step (fresh zeroDisk) cutInTable = [0, 0, 102402, 0, 0, 1, 1, 0] ∧
      (fsRead (run step (fresh zeroDisk) cutInTable) 0 (fun _ => 0) 102401).2.1 102400 ≠ 7 := by
  decide +kernel

end EC440.FileSystems
