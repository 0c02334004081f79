import EC440.FileSystems.Append
import EC440.FileSystems.Descriptors
import Mathlib.Order.Interval.Finset.Nat

/-!
# Writing a file and reading it back

A new file is written in chunks, each behind the last, and then read from the start in
pieces of any size.  The chunks and the pieces need not end where blocks do, and a chunk
may go past the direct blocks, so a block can be filled by several writes and read by
several reads.

`readBlocks_fileAt` is `fs_read` on a file laid out as `FileAt` says.  On the state,
`Streaming` says that a descriptor is open on such a file; `fsWrite_streaming` and
`fsRead_streaming` are one call each, and `writeAll_streaming` and `readAll_streaming` the
whole lists.
-/

namespace EC440.FileSystems

open EC440.Lib

/-! ### Reading a file that is laid out -/

/-- A read of `nbyte` bytes at `cursor` that has come to block `base + v.i` of the file. -/
structure ReadsBack (data : Nat → UInt8) (cursor nbyte base : Nat) (v : ReadVars) : Prop where
  bytes : ∀ k, k < v.bytesRead → v.buf k = data (cursor + k)
  first : v.firstBlock = true → v.bytesRead = 0 ∧ base + v.i = cursor / 4096
  later : v.firstBlock = false → cursor + v.bytesRead = min (4096 * (base + v.i)) (cursor + nbyte)

section Read

variable {m0 : Arr 1024 UInt8} {dev : Dev} {ino : Inode} {data : Nat → UInt8}
  {cursor nbyte base size : Nat} {v : ReadVars}

theorem FileAt.block {len : Nat} (h : FileAt m0 dev ino data len) {b : Nat} (hb : 4096 * b < len) :
    ino.names (tableOf dev.disk ino) (blockSlot b) ≠ 0 ∧
      ino.names (tableOf dev.disk ino) (blockSlot b) < 8192 ∧
      ∀ k, k < 4096 → 4096 * b + k < len →
        (dev.disk.get (ino.names (tableOf dev.disk ino) (blockSlot b))).get k
          = data (4096 * b + k) := by
  have hne := (h.laid.mapped b).mpr (by rw [blocksOf]; omega)
  refine ⟨hne, (h.laid.owned.used_of_ne _ hne).1, ?_⟩
  intro k hk hlt
  have := h.bytes _ hlt
  rw [byteAt, show (4096 * b + k) / 4096 = b by omega,
    show (4096 * b + k) % 4096 = k by omega] at this
  exact this

theorem readsBack_copyOut {buf : Nat → UInt8} {block : Block} {pos off n i : Nat}
    (hbuf : ∀ k, k < pos → buf k = data (cursor + k))
    (hblock : ∀ k, k < n → block.get (off + k) = data (cursor + (pos + k)))
    (hpos : cursor + (pos + n) = min (4096 * (base + i)) (cursor + nbyte)) :
    ReadsBack data cursor nbyte base ⟨copyOut buf pos block off n, pos + n, i, false⟩ := by
  refine ⟨?_, ?_, fun _ => hpos⟩
  · intro k hk
    simp only at hk
    simp only [copyOut]
    by_cases hp : pos ≤ k
    · rw [if_pos ⟨hp, hk⟩, hblock _ (by omega), Nat.add_sub_of_le hp]
    · rw [if_neg (by omega)]
      exact hbuf k (by omega)
  · intro hf
    cases hf

/-- One round, on the block the read has come to, when `data` is known up to `lim` and the first block
does not end with the file. -/
theorem ReadsBack.round (h : ReadsBack data cursor nbyte base v) (hlt : v.bytesRead < nbyte)
    {lim : Nat} (hlim : cursor + nbyte ≤ lim) (hfirst : v.firstBlock = true →
      firstReadSize nbyte cursor size = min nbyte (4096 - cursor % 4096)) {b : UInt16} (hb : b ≠ 0)
    (hdisk : b.toNat < 8192) (hblock : ∀ k, k < 4096 → 4096 * (base + v.i) + k < lim →
      (dev.disk.get b.toNat).get k = data (4096 * (base + v.i) + k)) :
    Ensures (readBlock dev nbyte cursor size b v)
      (fun w => ReadsBack data cursor nbyte base w ∧ w.i = v.i + 1 ∧ w.firstBlock = false)
      (fun _ => False) := by
  have hfrom : ∀ pos off n, off + n ≤ 4096 → cursor + pos = 4096 * (base + v.i) + off →
      cursor + (pos + n) ≤ lim → ∀ k, k < n →
        (dev.disk.get b.toNat).get (off + k) = data (cursor + (pos + k)) := by
    intro pos off n hoff hpos hn k hk
    rw [hblock (off + k) (by omega) (by omega)]
    congr 1
    omega
  rw [readBlock, if_neg hb, blockRead_of_lt dev hdisk]
  cases hf : v.firstBlock with
  | true =>
    obtain ⟨h0, hi⟩ := h.first hf
    have hfr := hfirst hf
    simp only [if_true, ensures_ok, h0]
    refine ⟨readsBack_copyOut (fun k hk => absurd hk (by omega)) ?_ (by omega), True.intro,
      True.intro⟩
    exact hfrom 0 _ _ (by omega) (by omega) (by omega)
  | false =>
    have hpos := h.later hf
    simp only [Bool.false_eq_true, if_false]
    split
    · have hn : v.bytesRead + (nbyte - v.bytesRead) = nbyte := by omega
      have hw : ReadsBack data cursor nbyte base ⟨copyOut v.buf v.bytesRead (dev.disk.get b.toNat) 0
          (nbyte - v.bytesRead), v.bytesRead + (nbyte - v.bytesRead), v.i + 1, false⟩ :=
        readsBack_copyOut h.bytes (hfrom v.bytesRead 0 _ (by omega) (by omega) (by omega)) (by omega)
      rw [hn] at hw
      exact ⟨hw, rfl, rfl⟩
    · exact ⟨readsBack_copyOut h.bytes (hfrom v.bytesRead 0 4096 (by omega) (by omega) (by omega))
        (by omega), rfl, rfl⟩

theorem firstReadSize_eq (hsize : min nbyte (4096 - cursor % 4096) ≤ size - cursor) :
    firstReadSize nbyte cursor size = min nbyte (4096 - cursor % 4096) := by
  have := firstReadSize_le nbyte cursor size
  omega

/-- The direct blocks: the read is done, or it goes on at the first entry of the table. -/
theorem readDirect_fileAt (h : FileAt m0 dev ino data size) (hcur : cursor < 102400)
    (hsize : cursor + nbyte ≤ size) (hv : ReadsBack data cursor nbyte 0 v) (hi : v.i ≤ 25) :
    Ensures (readDirect dev ino nbyte cursor size v)
      (fun w => ReadsBack data cursor nbyte 0 w ∧
        (w.bytesRead = nbyte ∨ w.firstBlock = false ∧ cursor + w.bytesRead = 102400 ∧
          w.bytesRead < nbyte)) (fun _ => False) := by
  refine (loop_rule _ _ (fun w => ReadsBack data cursor nbyte 0 w ∧ w.i ≤ 25) (fun _ => False)
    (fun w => 25 - w.i) ?_ ?_ 25 v ⟨hv, hi⟩ (by omega)).mono ?_ (fun _ he => he)
  · intro w _ hc
    simp only [decide_eq_true_eq] at hc
    omega
  · rintro w ⟨hw, hwi⟩ hc
    simp only [decide_eq_true_eq] at hc
    have hpos : 4096 * (0 + w.i) < size := by
      cases hf : w.firstBlock with
      | true =>
        have := hw.first hf
        omega
      | false =>
        have := hw.later hf
        omega
    obtain ⟨hne, hdisk, hblock⟩ := h.block hpos
    rw [blockSlot, if_pos (show 0 + w.i < 25 by omega), Nat.zero_add] at hne hdisk hblock
    refine (hw.round (by omega) hsize (fun _ => firstReadSize_eq (by omega)) (b := ino.directBlock.get w.i)
      (fun h0 => hne (by rw [Inode.names, h0]; rfl)) hdisk ?_).mono
      (fun w' hw' => ⟨⟨hw'.1, by omega⟩, by omega⟩) (fun _ he => he)
    rw [Nat.zero_add]
    exact hblock
  · rintro w ⟨⟨hw, hwi⟩, hc⟩
    simp only [decide_eq_false_iff_not] at hc
    refine ⟨hw, ?_⟩
    cases hf : w.firstBlock with
    | true =>
      have := hw.first hf
      exact Or.inl (by omega)
    | false =>
      have := hw.later hf
      by_cases hdone : w.bytesRead = nbyte
      · exact Or.inl hdone
      · exact Or.inr ⟨rfl, by omega, by omega⟩

theorem readIndirect_fileAt (h : FileAt m0 dev ino data size) (hcur : cursor < 102400)
    (hsize : cursor + nbyte ≤ size) (hmax : size ≤ 2 ^ 20)
    (hv : ReadsBack data cursor nbyte 0 v) (hf : v.firstBlock = false)
    (hpos : cursor + v.bytesRead = 102400) (hlt : v.bytesRead < nbyte) :
    Ensures (readIndirect dev ino nbyte cursor size v)
      (fun w => ReadsBack data cursor nbyte 25 w ∧ w.bytesRead = nbyte) (fun _ => False) := by
  have hs : ino.singleIndirectBlock ≠ 0 := h.laid.table.mpr (decide_eq_true (by omega))
  have hdisk : ino.singleIndirectBlock.toNat < 8192 :=
    (h.laid.owned.used_of_ne .table fun he => hs (UInt16.toNat_inj.mp he)).1
  have hneeded : cursor + nbyte ≤ 102400 + 4096 * blocksNeeded (nbyte - v.bytesRead) ∧
      102400 + 4096 * blocksNeeded (nbyte - v.bytesRead) < cursor + nbyte + 4096 := by
    rw [blocksNeeded]
    split <;> omega
  have htab : ∀ k, get16 (dev.disk.get ino.singleIndirectBlock.toNat) k = tableOf dev.disk ino k :=
    fun k => (if_neg hs).symm
  have hstart : ReadsBack data cursor nbyte 25 { v with i := 0 } :=
    ⟨hv.bytes, fun h1 => absurd (hf.symm.trans h1) (by decide), fun _ => by simp only; omega⟩
  rw [readIndirect, if_pos ⟨by omega, hs, by omega⟩, blockRead_of_lt dev hdisk]
  simp only [if_pos (show cursor / 4096 < 25 by omega)]
  generalize blocksNeeded (nbyte - v.bytesRead) = needed at hneeded
  refine (loop_rule _ _ (fun w => ReadsBack data cursor nbyte 25 w ∧ w.firstBlock = false ∧
    w.i ≤ needed) (fun _ => False) (fun w => needed - w.i) ?_ ?_ needed _
    ⟨hstart, hf, Nat.zero_le _⟩ (by simp only; omega)).mono ?_ (fun _ he => he)
  · intro w _ hc
    simp only [decide_eq_true_eq] at hc
    omega
  · rintro w ⟨hw, hwf, -⟩ hc
    simp only [decide_eq_true_eq] at hc
    have hl := hw.later hwf
    obtain ⟨hne, hon, hblock⟩ := h.block (b := 25 + w.i) (by omega)
    rw [blockSlot, if_neg (show ¬ 25 + w.i < 25 by omega),
      show 25 + w.i - 25 = w.i by omega] at hne hon hblock
    refine (hw.round (by omega) hsize (fun _ => firstReadSize_eq (by omega))
      (b := get16 (dev.disk.get ino.singleIndirectBlock.toNat) w.i) ?_ ?_ ?_).mono
        (fun w' hw' => ⟨⟨hw'.1, hw'.2.2, by omega⟩, by omega⟩) (fun _ he => he)
    · rw [htab]
      exact fun h0 => hne (by rw [Inode.names, h0]; rfl)
    · rw [htab]
      exact hon
    · rw [htab]
      exact hblock
  · rintro w ⟨⟨hw, hwf, hwi⟩, hc⟩
    simp only [decide_eq_false_iff_not] at hc
    have := hw.later hwf
    exact ⟨hw, by omega⟩

/-- **A read inside the file** that starts in the direct blocks returns all it is asked
for, and the bytes of the file. -/
theorem readBlocks_fileAt (h : FileAt m0 dev ino data size) (hcur : cursor < 102400)
    (hsize : cursor + nbyte ≤ size) (hmax : size ≤ 2 ^ 20) (buf : Nat → UInt8) :
    Ensures (readBlocks dev ino nbyte cursor size buf)
      (fun v => v.bytesRead = nbyte ∧ ∀ k, k < nbyte → v.buf k = data (cursor + k))
      (fun _ => False) := by
  have hstart : ReadsBack data cursor nbyte 0 ⟨buf, 0, cursor / 4096, true⟩ :=
    ⟨fun k hk => absurd hk (by simp), fun _ => ⟨rfl, Nat.zero_add _⟩,
      fun h1 => by cases h1⟩
  have hd := readDirect_fileAt h hcur hsize hstart (by simp only; omega)
  rw [readBlocks]
  cases hr : readDirect dev ino nbyte cursor size ⟨buf, 0, cursor / 4096, true⟩ with
  | error w => exact hd.of_error hr
  | ok w =>
    obtain ⟨hw, hdone | ⟨hf, hpos, hlt⟩⟩ := hd.of_ok hr
    · simp only [readIndirect]
      rw [if_neg (by omega)]
      exact ⟨hdone, fun k hk => hw.bytes k (by omega)⟩
    · exact (readIndirect_fileAt h hcur hsize hmax hw hf hpos hlt).mono
        (fun w' hw' => ⟨hw'.2, fun k hk => hw'.1.bytes k (by omega)⟩) (fun _ he => he)

end Read

/-! ### One call -/

/-- The descriptor `fildes` is open on a file of `len` bytes of `data` that was only
written at its end, and that began with the bitmap `m0`. -/
structure Streaming (m0 : Arr 1024 UInt8) (data : Nat → UInt8) (fildes : Int) (len : Nat)
    (s : State) : Prop where
  range : 0 ≤ fildes ∧ fildes ≤ 31
  used : (s.fd fildes).isUsed = true
  file : s.fileOf fildes < 64
  size : (s.inodeOf fildes).fileSize.toNat = len
  max : len ≤ 2 ^ 20
  bytes : FileAt m0 s.dev (s.inodeOf fildes) data len

theorem FileAt.resize {m0 : Arr 1024 UInt8} {dev : Dev} {ino : Inode} {data : Nat → UInt8}
    {len : Nat} (h : FileAt m0 dev ino data len) (size : UInt32) :
    FileAt m0 dev { ino with fileSize := size } data len := by
  have htab : tableOf dev.disk { ino with fileSize := size } = tableOf dev.disk ino :=
    tableOf_congr dev.disk rfl
  have hnames : Inode.names { ino with fileSize := size } (tableOf dev.disk ino)
      = ino.names (tableOf dev.disk ino) := by
    funext sl
    exact Inode.names_congr _ rfl rfl sl
  refine ⟨⟨h.laid.zero, h.laid.kept, ?_, ?_, ?_, h.laid.table, h.laid.count⟩, ?_⟩
  · rw [htab, hnames]
    exact h.laid.owned
  · rw [htab, hnames]
    exact h.laid.added
  · rw [htab, hnames]
    exact h.laid.mapped
  · intro p hp
    rw [htab, byteAt, hnames]
    exact h.bytes p hp

section Calls

variable {m0 : Arr 1024 UInt8} {data : Nat → UInt8} {fildes : Int} {len : Nat} {s : State}

/-- **`fs_write` at the end of a file**, cut where the file would get too large. -/
theorem fsWrite_append (h : Streaming m0 data fildes len s) (hoff : (s.fd fildes).offset = len)
    (hlen : len ≤ 102400) {buf : Nat → UInt8} {nbyte n : Nat} (hn : nbyte < 2 ^ 63)
    (hcut : n = min nbyte (2 ^ 20 - len)) (hroom : RoomFor m0 (len + n))
    (hbuf : ∀ k, k < n → buf k = data (len + k)) :
    ∃ dev ino, fsWrite s fildes buf nbyte = ((n : Int), { s with
        dev := dev
        inodeTable := s.inodeTable.set (s.fileOf fildes) ino
        fdTable := s.fdTable.set fildes.toNat
          { s.fd fildes with offset := ((len + n : Nat) : Int) } }) ∧
      ino.fileSize.toNat = len + n ∧ FileAt m0 dev ino data (len + n) := by
  have hreq : writeRequest (s.fd fildes).offset nbyte = n := by
    rw [writeRequest_eq nbyte (by omega) (by omega) (by omega)]
    omega
  have hcur : (s.fd fildes).offset.toNat = len := by omega
  have happ := (writeBlocks_append h.bytes hlen (by omega) hroom hbuf).and
    (writeBlocks_wrote buf n len s.dev (s.inodeOf fildes))
  obtain ⟨hr0, hr1⟩ := h.range
  have hfile := h.file
  have hsize := h.size
  cases hr : writeBlocks buf n len s.dev (s.inodeOf fildes) with
  | error e => exact absurd (happ.of_error hr).1 id
  | ok v =>
    obtain ⟨⟨hbw, hfa⟩, hwrote⟩ := happ.of_ok hr
    obtain ⟨size, hsz, hfin⟩ := finishWrite_eq s fildes v.dev v.ino (n := n) (by omega) (by omega)
    rw [hwrote.kept.size] at hsz
    refine ⟨v.dev, { v.ino with fileSize := size }, ?_, by simp only; omega, hfa.resize size⟩
    rw [fsWrite_open h.range h.used h.file, writeOutcome, hreq, hcur, hr]
    simp only
    rw [hbw, hfin, hoff]
    rfl

theorem Streaming.moved (h : Streaming m0 data fildes len s) {s' : State} {off : Int} {len' : Nat}
    {data' : Nat → UInt8}
    (hfd : s'.fdTable = s.fdTable.set fildes.toNat { s.fd fildes with offset := off })
    (hmax : len' ≤ 2 ^ 20) (hsize : (s'.inodeTable.get (s.fileOf fildes)).fileSize.toNat = len')
    (hbytes : FileAt m0 s'.dev (s'.inodeTable.get (s.fileOf fildes)) data' len') :
    Streaming m0 data' fildes len' s' ∧ (s'.fd fildes).offset = off := by
  obtain ⟨hr0, hr1⟩ := h.range
  have hget : s'.fd fildes = { s.fd fildes with offset := off } := by
    rw [State.fd, hfd, Arr.get_set_self _ (by omega)]
  have hof : s'.fileOf fildes = s.fileOf fildes := by rw [State.fileOf, hget]
  refine ⟨⟨h.range, ?_, ?_, ?_, hmax, ?_⟩, ?_⟩
  · rw [hget]
    exact h.used
  · rw [hof]
    exact h.file
  · rw [State.inodeOf, hof]
    exact hsize
  · rw [State.inodeOf, hof]
    exact hbytes
  · rw [hget]

theorem fsWrite_streaming (h : Streaming m0 data fildes len s) (hoff : (s.fd fildes).offset = len)
    (hlen : len ≤ 102400) {buf : Nat → UInt8} {nbyte n : Nat} (hn : nbyte < 2 ^ 63)
    (hcut : n = min nbyte (2 ^ 20 - len)) (hroom : RoomFor m0 (len + n))
    (hbuf : ∀ k, k < n → buf k = data (len + k)) :
    (fsWrite s fildes buf nbyte).1 = n ∧
      Streaming m0 data fildes (len + n) (fsWrite s fildes buf nbyte).2 ∧
      ((fsWrite s fildes buf nbyte).2.fd fildes).offset = ((len + n : Nat) : Int) := by
  obtain ⟨dev, ino, hw, hsize, hfile⟩ := fsWrite_append h hoff hlen hn hcut hroom hbuf
  have hino : (s.inodeTable.set (s.fileOf fildes) ino).get (s.fileOf fildes) = ino :=
    Arr.get_set_self _ h.file _
  rw [hw]
  refine ⟨rfl, h.moved rfl (by omega) ?_ ?_⟩
  · rw [hino, hsize]
  · rw [hino]
    exact hfile

theorem fsGetFilesize_streaming (h : Streaming m0 data fildes len s) :
    fsGetFilesize s fildes = len := by
  obtain ⟨hr0, hr1⟩ := h.range
  have hmax := h.max
  have hsize : (s.inodeTable.get (s.fdTable.get fildes.toNat).inodeNumber.toNat).fileSize.toNat
      = len := h.size
  rw [fsGetFilesize, if_neg (by omega), if_neg (by rw [h.used]; decide), hsize]
  exact toInt32_of_small (by omega) (by omega)

theorem fsLseek_streaming (h : Streaming m0 data fildes len s) {off : Nat} (hoff : off ≤ len) :
    (fsLseek s fildes off).1 = 0 ∧ Streaming m0 data fildes len (fsLseek s fildes off).2 ∧
      ((fsLseek s fildes off).2.fd fildes).offset = off := by
  obtain ⟨hr0, hr1⟩ := h.range
  have hmax := h.max
  have hsize : (s.inodeTable.get (s.fdTable.get fildes.toNat).inodeNumber.toNat).fileSize.toNat
      = len := h.size
  rw [fsLseek, if_neg (by omega)]
  simp only [hsize]
  rw [if_neg (by omega), toInt32_of_small (by omega) (by omega)]
  exact ⟨rfl, h.moved rfl hmax h.size h.bytes⟩

/-- **`fs_read` inside the file**, from the direct blocks on. -/
theorem fsRead_streaming (h : Streaming m0 data fildes len s) {pos : Nat}
    (hoff : (s.fd fildes).offset = pos) (hpos : pos < 102400) {nbyte : Nat}
    (hn : pos + nbyte ≤ len) (buf : Nat → UInt8) :
    (fsRead s fildes buf nbyte).1 = nbyte ∧
      (∀ k, k < nbyte → (fsRead s fildes buf nbyte).2.1 k = data (pos + k)) ∧
      Streaming m0 data fildes len (fsRead s fildes buf nbyte).2.2 ∧
      ((fsRead s fildes buf nbyte).2.2.fd fildes).offset = ((pos + nbyte : Nat) : Int) := by
  obtain ⟨hr0, hr1⟩ := h.range
  have hmax := h.max
  have hread := readBlocks_fileAt h.bytes hpos hn h.max buf
  have hsize : (s.inodeTable.get (s.fdTable.get fildes.toNat).inodeNumber.toNat).fileSize.toNat
      = len := h.size
  have hcur : (s.fdTable.get fildes.toNat).offset.toNat = pos := by
    rw [show (s.fdTable.get fildes.toNat).offset = pos from hoff]
    omega
  rw [fsRead, if_neg (by omega), if_neg (by rw [h.used]; decide)]
  simp only [hsize, hcur, if_neg (show ¬ nbyte > 2 ^ 20 by omega)]
  cases hr : readBlocks s.dev (s.inodeOf fildes) nbyte pos len buf with
  | error v => exact absurd (hread.of_error hr) id
  | ok v =>
    obtain ⟨hbr, hbytes⟩ := hread.of_ok hr
    have hnew : toInt32 ((s.fdTable.get fildes.toNat).offset + nbyte)
        = ((pos + nbyte : Nat) : Int) := by
      rw [show (s.fdTable.get fildes.toNat).offset = pos from hoff,
        toInt32_of_small (by omega) (by omega)]
      omega
    simp only [hbr, hnew]
    exact ⟨toInt32_of_small (by omega) (by omega), hbytes, h.moved rfl hmax h.size h.bytes⟩

end Calls

/-! ### A new file -/

/-- The inodes no file uses have no blocks and no size. -/
def UnusedEmpty (s : State) : Prop :=
  ∀ i, i < 64 → getBit i s.inodesBitmap = false →
    (s.inodeTable.get i).fileSize = 0 ∧ (∀ j, (s.inodeTable.get i).directBlock.get j = 0) ∧
      (s.inodeTable.get i).singleIndirectBlock = 0

/-- `fs_create` made a file in `s`, and `fs_open` opened this file as `fildes`. -/
structure NewFile (s : State) (name : CString) (fildes : Int) (s' : State) : Prop where
  made : (fsCreate s name).1 = 0
  opened : fsOpen (fsCreate s name).2 name = (fildes, s')
  success : 0 ≤ fildes
  same : findInode s.inodesBitmap = some (s'.fileOf fildes)

/-- Where the tables agree, a name of 1 to 15 bytes is opened as the file just made. -/
theorem DirInv.newFile {s : State} (h : DirInv s) {name : CString} (hname : ValidName name)
    (hret : (fsCreate s name).1 = 0) (hfree : ∃ k, k < 32 ∧ (s.fdTable.get k).isUsed = false) :
    NewFile s name (fsOpen (fsCreate s name).2 name).1 (fsOpen (fsCreate s name).2 name).2 := by
  obtain ⟨i, hfind, hnames⟩ := h.fsCreate_names hname hret
  have hfd : (fsCreate s name).2.fdTable = s.fdTable := by
    obtain ⟨r, t, bits, he, -⟩ := fsCreate_frame s name
    rw [he]
  rw [← hfd] at hfree
  obtain ⟨fd, hlt, -, he⟩ := hnames.open hfree
  refine ⟨hret, rfl, ?_, ?_⟩
  · rw [he]
    omega
  · have hget := Arr.get_set_self (fsCreate s name).2.fdTable hlt
      { isUsed := true, inodeNumber := ((fsCreate s name).2.dirTable.get i).inodeNumber, offset := 0 }
    rw [he, hfind]
    simp only [State.fileOf, State.fd, Int.toNat_natCast, hget]
    rw [(hnames.inv.used i hnames.lt hnames.used).1]

theorem fileAt_empty {dev : Dev} {ino : Inode} (data : Nat → UInt8)
    (hzero : getBit 0 dev.blocksBitmap = true) (hdirect : ∀ j, ino.directBlock.get j = 0)
    (hsingle : ino.singleIndirectBlock = 0) : FileAt dev.blocksBitmap dev ino data 0 := by
  have hnames : ino.names (tableOf dev.disk ino) = fun _ => 0 := by
    rw [tableOf_eq_zero hsingle]
    funext sl
    cases sl with
    | direct j =>
      rw [Inode.names, hdirect]
      rfl
    | table =>
      rw [Inode.names, hsingle]
      rfl
    | entry k => rfl
  refine ⟨⟨hzero, fun _ hb => hb, ?_, fun _ hb => Or.inl hb, ?_, ?_, by simp [blocksOf]⟩,
    fun p hp => absurd hp (by omega)⟩
  · rw [hnames]
    exact owned_zero
  · intro b
    rw [hnames, blocksOf]
    simp
  · simp [hsingle]

/-- The descriptor stands at the start of a file that has no byte and no block. -/
structure EmptyFile (s : State) (fildes : Int) : Prop where
  range : 0 ≤ fildes ∧ fildes ≤ 31
  used : (s.fd fildes).isUsed = true
  file : s.fileOf fildes < 64
  offset : (s.fd fildes).offset = 0
  size : (s.inodeOf fildes).fileSize = 0
  direct : ∀ j, (s.inodeOf fildes).directBlock.get j = 0
  single : (s.inodeOf fildes).singleIndirectBlock = 0
  zero : getBit 0 s.dev.blocksBitmap = true

theorem EmptyFile.fileAt {s : State} {fildes : Int} (h : EmptyFile s fildes) (data : Nat → UInt8) :
    FileAt s.dev.blocksBitmap s.dev (s.inodeOf fildes) data 0 :=
  fileAt_empty data h.zero h.direct h.single

theorem NewFile.dev_eq {s s' : State} {name : CString} {fildes : Int}
    (h : NewFile s name fildes s') : s'.dev = s.dev ∧ s'.inodeTable = s.inodeTable := by
  obtain ⟨r, t, bits, hcreate, -⟩ := fsCreate_frame s name
  have hopened := h.opened
  rcases fsOpen_cases (fsCreate s name).2 name with he | ⟨d, fd, -, hfd, he⟩ <;>
  · rw [he, Prod.mk.injEq] at hopened
    rw [← hopened.2, hcreate]
    exact ⟨rfl, rfl⟩

theorem NewFile.emptyFile {s s' : State} {name : CString} {fildes : Int}
    (h : NewFile s name fildes s') (hempty : UnusedEmpty s)
    (hzero : getBit 0 s.dev.blocksBitmap = true) : EmptyFile s' fildes := by
  obtain ⟨hlt, hfree⟩ := findInode_eq_some h.same
  obtain ⟨hsize, hdirect, hsingle⟩ := hempty _ hlt hfree
  obtain ⟨hdev, htable⟩ := h.dev_eq
  rw [← htable] at hsize hdirect hsingle
  have hopened := h.opened
  have hsuccess := h.success
  rcases fsOpen_cases (fsCreate s name).2 name with he | ⟨d, fd, -, hfd, he⟩
  · rw [he, Prod.mk.injEq] at hopened
    omega
  · rw [he, Prod.mk.injEq] at hopened
    obtain ⟨hfildes, hs'⟩ := hopened
    have hlt32 := (findFd_eq_some hfd).1
    have hget : s'.fd fildes =
        ⟨true, ((fsCreate s name).2.dirTable.get d).inodeNumber, 0⟩ := by
      rw [← hs', ← hfildes]
      exact Arr.get_set_self _ hlt32 _
    exact ⟨by omega, by rw [hget], hlt, by rw [hget], hsize, hdirect, hsingle,
      by rw [hdev]; exact hzero⟩

theorem NewFile.streaming {s s' : State} {name : CString} {fildes : Int}
    (h : NewFile s name fildes s') (hempty : UnusedEmpty s)
    (hzero : getBit 0 s.dev.blocksBitmap = true) (data : Nat → UInt8) :
    Streaming s.dev.blocksBitmap data fildes 0 s' ∧ (s'.fd fildes).offset = 0 := by
  have he := h.emptyFile hempty hzero
  refine ⟨⟨he.range, he.used, he.file, by rw [he.size]; rfl, by omega, ?_⟩, he.offset⟩
  rw [← h.dev_eq.1]
  exact he.fileAt data

/-! ### Lists of calls -/

/-- `fs_write` of each chunk in turn: what the calls return, and the state behind them. -/
def writeAll (fildes : Int) : State → List (List UInt8) → List Int × State
  | s, [] => ([], s)
  | s, w :: ws =>
    let call := fsWrite s fildes (fun k => w.getD k 0) w.length
    let rest := writeAll fildes call.2 ws
    (call.1 :: rest.1, rest.2)

/-- Each of these writes begins at an offset of at most `102400`. -/
def WritesInDirect (fildes : Int) : State → List (List UInt8) → Prop
  | _, [] => True
  | s, w :: ws => (s.fd fildes).offset ≤ 102400 ∧
      WritesInDirect fildes (fsWrite s fildes (fun k => w.getD k 0) w.length).2 ws

def accepted : Nat → List (List UInt8) → List Int
  | _, [] => []
  | pos, w :: ws =>
    (min w.length (2 ^ 20 - pos) : Nat) :: accepted (pos + min w.length (2 ^ 20 - pos)) ws

/-- `fs_read` of each size in turn, into memory that holds `mem`: what the calls return and
the bytes they read. -/
def readAll (fildes : Int) (mem : Nat → UInt8) : State → List Nat → List (Int × List UInt8)
  | _, [] => []
  | s, r :: rs =>
    let call := fsRead s fildes mem r
    (call.1, (List.range r).map call.2.1) :: readAll fildes mem call.2.2 rs

/-- Each of these reads begins at an offset below `102400`. -/
def ReadsInDirect (fildes : Int) (mem : Nat → UInt8) : State → List Nat → Prop
  | _, [] => True
  | s, r :: rs => (s.fd fildes).offset < 102400 ∧
      ReadsInDirect fildes mem (fsRead s fildes mem r).2.2 rs

/-- The sizes, and the pieces of these sizes that `bytes` falls into. -/
def slices : List UInt8 → List Nat → List (Int × List UInt8)
  | _, [] => []
  | bytes, r :: rs => ((r : Int), bytes.take r) :: slices (bytes.drop r) rs

theorem blocksOf_mono {m n : Nat} (h : m ≤ n) : blocksOf m ≤ blocksOf n := by
  rw [blocksOf, blocksOf]
  omega

theorem roomFor_of_le {m0 : Arr 1024 UInt8} {m n : Nat} (h : m ≤ n)
    (hfree : blocksOf n + 1 ≤ freeCount m0) : RoomFor m0 m := by
  have := blocksOf_mono h
  have := Bool.toNat_le (decide (102400 < m))
  rw [RoomFor]
  omega

/-- **The writes**, by induction on the chunks.  Only the last of them can be cut, since the
one behind it would begin past the direct blocks. -/
theorem writeAll_streaming {m0 : Arr 1024 UInt8} {data : Nat → UInt8} {fildes : Int}
    (ws : List (List UInt8)) :
    ∀ {len : Nat} {s : State}, Streaming m0 data fildes len s → (s.fd fildes).offset = len →
      WritesInDirect fildes s ws → (∀ w ∈ ws, w.length < 2 ^ 63) →
      (∀ k, k < ws.flatten.length → ws.flatten.getD k 0 = data (len + k)) →
      blocksOf (min (len + ws.flatten.length) (2 ^ 20)) + 1 ≤ freeCount m0 →
      (writeAll fildes s ws).1 = accepted len ws ∧
        Streaming m0 data fildes (min (len + ws.flatten.length) (2 ^ 20))
          (writeAll fildes s ws).2 := by
  induction ws with
  | nil =>
    intro len s h _ _ _ _ _
    have hmax := h.max
    refine ⟨rfl, ?_⟩
    rw [List.flatten_nil, List.length_nil, Nat.add_zero, Nat.min_eq_left hmax]
    exact h
  | cons w ws ih =>
    intro len s h hoff hws hsmall hdata hfree
    obtain ⟨hlen, hrest⟩ := hws
    rw [hoff] at hlen
    simp only [List.flatten_cons, List.length_append] at hdata hfree ⊢
    have hhead : ∀ k, k < min w.length (2 ^ 20 - len) → w.getD k 0 = data (len + k) := by
      intro k hk
      rw [← hdata k (by omega), List.getD_append _ _ _ _ (by omega)]
    obtain ⟨hret, hnext, hoff'⟩ := fsWrite_streaming h hoff (by omega)
      (hsmall w List.mem_cons_self) rfl (roomFor_of_le (by omega) hfree) hhead
    have hcut : ws = [] ∨ min w.length (2 ^ 20 - len) = w.length := by
      cases ws with
      | nil => exact Or.inl rfl
      | cons x xs =>
        have := hrest.1
        rw [hoff'] at this
        exact Or.inr (by omega)
    have htotal : min (len + min w.length (2 ^ 20 - len) + ws.flatten.length) (2 ^ 20)
        = min (len + (w.length + ws.flatten.length)) (2 ^ 20) := by
      rcases hcut with rfl | heq
      · rw [List.flatten_nil, List.length_nil]
        omega
      · rw [heq]
        omega
    have htail : ∀ k, k < ws.flatten.length →
        ws.flatten.getD k 0 = data (len + min w.length (2 ^ 20 - len) + k) := by
      intro k hk
      rcases hcut with rfl | heq
      · cases hk
      · have hd := hdata (w.length + k) (by omega)
        rw [List.getD_append_right _ _ _ _ (by omega), Nat.add_sub_cancel_left] at hd
        rw [heq, Nat.add_assoc]
        exact hd
    have hih := ih hnext hoff' hrest (fun x hx => hsmall x (List.mem_cons_of_mem _ hx)) htail
      (by rw [htotal]; exact hfree)
    rw [htotal] at hih
    refine ⟨?_, hih.2⟩
    simp only [writeAll, accepted]
    rw [hret, hih.1]

theorem map_range_eq_iff {f : Nat → UInt8} {l : List UInt8} {n : Nat} (hl : l.length = n) :
    (List.range n).map f = l ↔ ∀ q, q < n → f q = l.getD q 0 := by
  subst hl
  constructor
  · intro h q hq
    have hget := congrArg (fun l => l.getD q 0) h
    simp only [List.getD_eq_getElem?_getD, List.getElem?_map, List.getElem?_range hq] at hget
    rw [List.getD_eq_getElem?_getD]
    exact hget
  · intro h
    refine List.ext_getElem (by simp) ?_
    intro q h1 h2
    rw [List.getElem_map, List.getElem_range, h q h2, List.getD_eq_getElem _ _ h2]

/-- **The reads**, by induction on the sizes. -/
theorem readAll_streaming {m0 : Arr 1024 UInt8} {bytes : List UInt8} {fildes : Int} {len : Nat}
    (hlen : len ≤ bytes.length) (mem : Nat → UInt8) (rs : List Nat) :
    ∀ {pos : Nat} {s : State}, Streaming m0 (fun p => bytes.getD p 0) fildes len s →
      (s.fd fildes).offset = pos → ReadsInDirect fildes mem s rs → pos + rs.sum ≤ len →
      readAll fildes mem s rs = slices (bytes.drop pos) rs := by
  induction rs with
  | nil =>
    intro pos s _ _ _ _
    rfl
  | cons r rs ih =>
    intro pos s h hoff hrs hsum
    obtain ⟨hpos, hrest⟩ := hrs
    rw [hoff] at hpos
    rw [List.sum_cons] at hsum
    obtain ⟨hret, hbytes, hnext, hoff'⟩ :=
      fsRead_streaming h hoff (by omega) (show pos + r ≤ len by omega) mem
    have hlength : ((bytes.drop pos).take r).length = r := by
      rw [List.length_take, List.length_drop]
      omega
    have hpiece : (List.range r).map (fsRead s fildes mem r).2.1 = (bytes.drop pos).take r := by
      refine (map_range_eq_iff hlength).mpr fun k hk => ?_
      rw [hbytes k hk, List.getD_eq_getElem _ _ (by omega), List.getD_eq_getElem _ _ (by omega),
        List.getElem_take, List.getElem_drop]
    have hih := ih hnext hoff' hrest (by omega)
    rw [readAll, slices]
    rw [hret, hpiece, hih, List.drop_drop]

/-- **A file is read back as it was written**, for every way of cutting the writes and the
reads, up to the first write past the direct blocks. -/
theorem stream_read_back {s s' : State} {name : CString} {fildes : Int} (hempty : UnusedEmpty s)
    (hzero : getBit 0 s.dev.blocksBitmap = true) (hnew : NewFile s name fildes s')
    (chunks : List (List UInt8)) (hsmall : ∀ w ∈ chunks, w.length < 2 ^ 63)
    (hoffsets : WritesInDirect fildes s' chunks)
    (hfree : blocksOf (min chunks.flatten.length (2 ^ 20)) + 1 ≤ freeCount s.dev.blocksBitmap) :
    (writeAll fildes s' chunks).1 = accepted 0 chunks ∧
    fsGetFilesize (writeAll fildes s' chunks).2 fildes
      = ((min chunks.flatten.length (2 ^ 20) : Nat) : Int) ∧
    (fsLseek (writeAll fildes s' chunks).2 fildes 0).1 = 0 ∧
    ∀ (mem : Nat → UInt8) (sizes : List Nat), sizes.sum ≤ min chunks.flatten.length (2 ^ 20) →
      ReadsInDirect fildes mem (fsLseek (writeAll fildes s' chunks).2 fildes 0).2 sizes →
      readAll fildes mem (fsLseek (writeAll fildes s' chunks).2 fildes 0).2 sizes
        = slices chunks.flatten sizes := by
  obtain ⟨hstart, hoff⟩ := hnew.streaming hempty hzero (fun p => chunks.flatten.getD p 0)
  obtain ⟨hret, hwritten⟩ := writeAll_streaming chunks hstart hoff hoffsets hsmall
    (fun k _ => by rw [Nat.zero_add]) (by rw [Nat.zero_add]; exact hfree)
  rw [Nat.zero_add] at hwritten
  obtain ⟨hseek, hback, hoff0⟩ := fsLseek_streaming hwritten (Nat.zero_le _)
  refine ⟨hret, fsGetFilesize_streaming hwritten, hseek, ?_⟩
  intro mem sizes hsum hreads
  exact readAll_streaming (by omega) mem sizes hback hoff0 hreads (by omega)

theorem unusedEmpty_mounted (disk : Disk) (bitmap : Arr 1024 UInt8) :
    UnusedEmpty (mounted disk (emptyTables bitmap)) := by
  intro i _ _
  obtain ⟨n, hn⟩ := get_freshInode disk bitmap i
  rw [hn]
  exact ⟨rfl, fun j => Arr.get_fill_default j, rfl⟩

theorem unusedEmpty_fresh (blank : Disk) : UnusedEmpty (fresh blank) := by
  obtain ⟨disk, he⟩ := fresh_eq blank
  rw [he]
  exact unusedEmpty_mounted disk _

theorem freeCount_fresh (blank : Disk) : freeCount (fresh blank).dev.blocksBitmap = 8187 := by
  obtain ⟨disk, he⟩ := fresh_eq blank
  have hcells : freeCells (fun i => getBit i (fresh blank).dev.blocksBitmap) 8192
      = Finset.Ico 5 8192 := by
    ext b
    have hbit : getBit b (fresh blank).dev.blocksBitmap = decide (b < 5) := by
      rw [he]
      show getBit b (setBits 5 (Arr.fill 0)) = decide (b < 5)
      rw [getBit_setBits 5 b (by omega), get_zeroBitmap, Bool.or_false]
    rw [mem_freeCells, Finset.mem_Ico, hbit, decide_eq_false_iff_not]
    omega
  rw [freeCount, hcells, Nat.card_Ico]

theorem newFile_nameA : NewFile (fresh zeroDisk) nameA 0
    (run step (fresh zeroDisk) [.create nameA, .open nameA]) ∧
    getBit 0 (fresh zeroDisk).dev.blocksBitmap = true := by
  have heval : (fsCreate (fresh zeroDisk) nameA).1 = 0 ∧
      (fsOpen (fsCreate (fresh zeroDisk) nameA).2 nameA).1 = 0 ∧
      findInode (fresh zeroDisk).inodesBitmap
        = some ((run step (fresh zeroDisk) [.create nameA, .open nameA]).fileOf 0) ∧
      getBit 0 (fresh zeroDisk).dev.blocksBitmap = true := by decide +kernel
  obtain ⟨hmade, hopened, hsame, hzero⟩ := heval
  exact ⟨⟨hmade, Prod.ext hopened rfl, by decide, hsame⟩, hzero⟩

/-- Five bytes written as three and two are read as one and three. -/
theorem stream_read_back_fiveBytes :
    (writeAll 0 (run step (fresh zeroDisk) [.create nameA, .open nameA]) [[1, 2, 3], [4, 5]]).1
      = [3, 2] ∧
    readAll 0 (fun _ => 0) (fsLseek (writeAll 0
        (run step (fresh zeroDisk) [.create nameA, .open nameA]) [[1, 2, 3], [4, 5]]).2 0 0).2 [1, 3]
      = [(1, [1]), (3, [2, 3, 4])] := by
  obtain ⟨hnew, hzero⟩ := newFile_nameA
  have hwrites : WritesInDirect 0 (run step (fresh zeroDisk) [.create nameA, .open nameA])
      [[1, 2, 3], [4, 5]] := by
    show _ ∧ _ ∧ True
    decide +kernel
  have hreads : ReadsInDirect 0 (fun _ => 0) (fsLseek (writeAll 0
      (run step (fresh zeroDisk) [.create nameA, .open nameA]) [[1, 2, 3], [4, 5]]).2 0 0).2
      [1, 3] := by
    show _ ∧ _ ∧ True
    decide +kernel
  have h := stream_read_back (unusedEmpty_fresh zeroDisk) hzero hnew [[1, 2, 3], [4, 5]] (by decide) hwrites
    (by rw [freeCount_fresh]; decide)
  exact ⟨h.1, h.2.2.2 (fun _ => 0) [1, 3] (by decide) hreads⟩

end EC440.FileSystems
