import EC440.FileSystems.ReadFacts

/-!
# Descriptors and the size of their files

Between calls an open descriptor should stand inside its file, and no file should be
larger than `2 ^ 20` bytes (`DescInv`).  Three calls can break this, each in its own way:
a read can run past the end of the file (`ReadStays` says when it does not), a truncate
moves only its own descriptor, and a write of nearly `2 ^ 64` bytes passes the check on
the size of the file because the sum wraps.  `DescOk` excludes the three, and then
`DescInv` holds in every run.
-/

namespace EC440.FileSystems

open EC440.Lib

/-! ### What `fs_write` leaves -/

theorem writeRequest_eq {cursor : Int} (nbyte : Nat) (h0 : 0 ≤ cursor) (hc : cursor ≤ 2 ^ 20)
    (hn : cursor + nbyte < 2 ^ 64) :
    writeRequest cursor nbyte = min nbyte (2 ^ 20 - cursor.toNat) := by
  rw [writeRequest, toSize, toSize]
  split <;> omega

theorem finishWrite_eq (s : State) (fildes : Int) (dev : Dev) (ino : Inode) {n : Nat}
    (h0 : 0 ≤ (s.fd fildes).offset) (hmax : (s.fd fildes).offset.toNat + n ≤ 2 ^ 20) :
    ∃ size : UInt32, size.toNat = max ino.fileSize.toNat ((s.fd fildes).offset.toNat + n) ∧
      finishWrite s fildes.toNat dev ino n = ((n : Int), { s with
        dev := dev
        inodeTable := s.inodeTable.set (s.fileOf fildes) { ino with fileSize := size }
        fdTable := s.fdTable.set fildes.toNat
          { s.fd fildes with offset := (s.fd fildes).offset + n } }) := by
  have hcur : toInt32 ((s.fd fildes).offset + n) = (s.fd fildes).offset + n :=
    toInt32_of_small (by omega) (by omega)
  have hret : toInt32 (n : Int) = n := toInt32_of_small (by omega) (by omega)
  have hsize := toUInt32_of_small (x := (s.fd fildes).offset + n) (by omega) (by omega)
  refine ⟨_, ?_, by rw [finishWrite, hcur, hret]⟩
  by_cases hgt : toUInt32 ((s.fd fildes).offset + n) > ino.fileSize
  · have := UInt32.lt_iff_toNat_lt.mp hgt
    rw [if_pos hgt]
    omega
  · have hle : (toUInt32 ((s.fd fildes).offset + n)).toNat ≤ ino.fileSize.toNat := by
      by_contra hlt
      exact hgt (UInt32.lt_iff_toNat_lt.mpr (by omega))
    rw [if_neg hgt]
    omega

theorem Mapped.kept {ino ino' : Inode} {n : Nat} (h : Mapped ino n) (hk : Kept ino ino') :
    Mapped ino' n := by
  refine ⟨?_, ?_⟩
  · intro j hj hlt
    rw [hk.direct j (h.direct j hj hlt)]
    exact h.direct j hj hlt
  · intro hlt
    rw [hk.single (h.table hlt)]
    exact h.table hlt

/-- After `n` bytes are written at `cursor`, the bytes up to there are in blocks. -/
theorem Wrote.mapped {cursor nbyte n : Nat} {dev dev' : Dev} {ino ino' : Inode}
    (h : Wrote cursor nbyte dev ino dev' ino' n) (hc : Mapped ino cursor) :
    Mapped ino' (cursor + n) := by
  refine ⟨?_, h.table hc.start⟩
  intro j hj hlt
  by_cases hjc : j < cursor / 4096
  · exact (hc.kept h.kept).direct j hj (by omega)
  · exact h.direct hc.start j hj (by omega) hlt

theorem Mapped.max {ino : Inode} {m n : Nat} (h : Mapped ino m) (g : Mapped ino n) :
    Mapped ino (max m n) := by
  rcases Nat.le_total m n with hmn | hnm
  · rwa [Nat.max_eq_right hmn]
  · rwa [Nat.max_eq_left hnm]

theorem Mapped.congr {ino ino' : Inode} {n : Nat} (h : Mapped ino n)
    (hd : ino'.directBlock = ino.directBlock)
    (hs : ino'.singleIndirectBlock = ino.singleIndirectBlock) : Mapped ino' n :=
  ⟨by rw [hd]; exact h.direct, by rw [hs]; exact h.table⟩

/-! ### The invariant -/

/-- Every open descriptor stands inside its file, and files have the blocks for their
size, which is at most `2 ^ 20`. -/
structure DescInv (s : State) : Prop where
  dir : DirInv s
  file : ∀ k, (s.fdTable.get k).inodeNumber.toNat < 64
  offset : ∀ k, (s.fdTable.get k).isUsed = true → 0 ≤ (s.fdTable.get k).offset ∧
    (s.fdTable.get k).offset
      ≤ (s.inodeTable.get (s.fdTable.get k).inodeNumber.toNat).fileSize.toNat
  size : ∀ i, (s.inodeTable.get i).fileSize.toNat ≤ 2 ^ 20
  mapped : ∀ i, Mapped (s.inodeTable.get i) (s.inodeTable.get i).fileSize.toNat

/-- The calls that keep `DescInv`.  A write does not wrap, a read stays inside its file,
and a truncate finds no other descriptor behind the new end. -/
def DescOk (s : State) : Call → Prop
  | .write fildes _ nbyte => s.FdOpen fildes → (s.fd fildes).offset + nbyte < 2 ^ 64
  | .read fildes _ nbyte => s.FdOpen fildes →
      ReadStays s.dev (s.inodeOf fildes) (min nbyte (2 ^ 20)) (s.fd fildes).offset.toNat
        (s.inodeOf fildes).fileSize.toNat
  | .truncate fildes length => s.FdOpen fildes → 0 ≤ length →
      ∀ k, k < 32 → k ≠ fildes.toNat → (s.fdTable.get k).isUsed = true →
        (s.fdTable.get k).inodeNumber = (s.fd fildes).inodeNumber →
        (s.fdTable.get k).offset ≤ length
  | c => NamesValid c

theorem DirInv.entry_lt {s : State} (h : DirInv s) {i : Nat} (hi : i < 64) :
    (s.dirTable.get i).inodeNumber.toNat < 64 := by
  by_cases hu : (s.dirTable.get i).isUsed = 0
  · rw [(h.unused i hi hu).1]
    decide
  · rw [(h.used i hi hu).1]
    exact hi

theorem DescInv.inside {s : State} (h : DescInv s) {fildes : Int}
    (hu : (s.fd fildes).isUsed = true) :
    0 ≤ (s.fd fildes).offset ∧ (s.fd fildes).offset ≤ (s.inodeOf fildes).fileSize.toNat ∧
      (s.inodeOf fildes).fileSize.toNat ≤ 2 ^ 20 :=
  ⟨(h.offset _ hu).1, (h.offset _ hu).2, h.size _⟩

theorem DescInv.setFd {s s' : State} (h : DescInv s) (hdir : DirInv s') {k : Nat} {fd : FDesc}
    (hfd : s'.fdTable = s.fdTable.set k fd) (hino : s'.inodeTable = s.inodeTable)
    (hfile : fd.inodeNumber.toNat < 64)
    (hoff : fd.isUsed = true → 0 ≤ fd.offset ∧
      fd.offset ≤ (s.inodeTable.get fd.inodeNumber.toNat).fileSize.toNat) : DescInv s' := by
  refine ⟨hdir, ?_, ?_, by rw [hino]; exact h.size, by rw [hino]; exact h.mapped⟩
  · intro j
    rw [hfd, Arr.get_set]
    split
    · exact hfile
    · exact h.file j
  · intro j
    rw [hfd, hino, Arr.get_set]
    split
    · exact hoff
    · exact h.offset j

theorem DescInv.setInode {s s' : State} (h : DescInv s) (hdir : DirInv s') {i : Nat} {ino : Inode}
    (hino : s'.inodeTable = s.inodeTable.set i ino) (hsize : ino.fileSize.toNat ≤ 2 ^ 20)
    (hmapped : Mapped ino ino.fileSize.toNat)
    (hfile : ∀ k, (s'.fdTable.get k).inodeNumber.toNat < 64)
    (hoff : ∀ k, (s'.fdTable.get k).isUsed = true → 0 ≤ (s'.fdTable.get k).offset ∧
      (s'.fdTable.get k).offset
        ≤ (s'.inodeTable.get (s'.fdTable.get k).inodeNumber.toNat).fileSize.toNat) :
    DescInv s' := by
  refine ⟨hdir, hfile, hoff, ?_, ?_⟩
  · intro j
    rw [hino, Arr.get_set]
    split
    · exact hsize
    · exact h.size j
  · intro j
    rw [hino, Arr.get_set]
    split
    · exact hmapped
    · exact h.mapped j

/-! ### The calls -/

variable {s : State}

theorem DescInv.open (h : DescInv s) (name : CString) : DescInv (fsOpen s name).2 := by
  have hdir : DirInv (fsOpen s name).2 :=
    h.dir.same (step_sameDir s (.open name) (fun _ he => by cases he) (fun _ he => by cases he))
  rcases fsOpen_cases s name with he | ⟨i, fd, hf, -, he⟩
  · rw [he]
    exact h
  · rw [he] at hdir ⊢
    refine h.setFd hdir rfl rfl (h.dir.entry_lt (findName_eq_some.mp hf).1) ?_
    intro _
    exact ⟨le_refl _, Int.natCast_nonneg _⟩

theorem DescInv.close (h : DescInv s) (fildes : Int) : DescInv (fsClose s fildes).2 := by
  have hdir : DirInv (fsClose s fildes).2 :=
    h.dir.same (step_sameDir s (.close fildes) (fun _ he => by cases he) (fun _ he => by cases he))
  rcases fsClose_cases s fildes with he | ⟨-, -, -, he⟩
  · rw [he]
    exact h
  · rw [he] at hdir ⊢
    exact h.setFd hdir rfl rfl (by decide) (fun hu => by cases hu)

theorem DescInv.create (h : DescInv s) {name : CString} (hname : ValidName name) :
    DescInv (fsCreate s name).2 := by
  have hdir := h.dir.create hname
  rcases fsCreate_cases s hname.2 with ⟨he, -⟩ | ⟨-, -, -, he⟩ | ⟨i, -, -, -, he⟩
  · rw [he]
    exact h
  · rw [he]
    exact h
  · rw [he] at hdir ⊢
    exact ⟨hdir, h.file, h.offset, h.size, h.mapped⟩

theorem DescInv.delete (h : DescInv s) {name : CString} (hname : ValidName name) :
    DescInv (fsDelete s name).2 := by
  have hdir := h.dir.delete hname
  rcases fsDelete_cases s name with ⟨-, he⟩ | ⟨d, -, ho, -, he⟩
  · rw [he]
    exact h
  · rw [he] at hdir ⊢
    refine h.setInode hdir rfl (Nat.zero_le _) (mapped_zero _) h.file ?_
    intro k hk
    have hk' : (s.fdTable.get k).isUsed = true := hk
    rw [anyOpen_eq_false.mp ho k] at hk'
    cases hk'

theorem DescInv.lseek (h : DescInv s) (fildes offset : Int) :
    DescInv (fsLseek s fildes offset).2 := by
  have hdir : DirInv (fsLseek s fildes offset).2 :=
    h.dir.same (step_sameDir s (.lseek fildes offset) (fun _ he => by cases he)
      (fun _ he => by cases he))
  rcases fsLseek_cases s fildes offset with he | ⟨-, -, h0, hle, he⟩
  · rw [he]
    exact h
  · have hsize : (s.inodeOf fildes).fileSize.toNat ≤ 2 ^ 20 := h.size _
    have hoff : toInt32 offset = offset := toInt32_of_small h0 (by omega)
    rw [he] at hdir ⊢
    refine h.setFd hdir rfl rfl (h.file _) ?_
    intro _
    show 0 ≤ toInt32 offset ∧ toInt32 offset ≤ _
    rw [hoff]
    exact ⟨h0, hle⟩

theorem DescInv.read (h : DescInv s) {fildes : Int} {nbyte : Nat} (buf : Nat → UInt8)
    (hok : DescOk s (.read fildes buf nbyte)) : DescInv (fsRead s fildes buf nbyte).2.2 := by
  have hdir : DirInv (fsRead s fildes buf nbyte).2.2 :=
    h.dir.same (step_sameDir s (.read fildes buf nbyte) (fun _ he => by cases he)
      (fun _ he => by cases he))
  rcases fsRead_cases s fildes buf nbyte with ⟨-, he⟩ | ⟨hge, hle31, hu, v, hv, he⟩
  · rw [he]
    exact h
  · obtain ⟨h0, hle, hsize⟩ := h.inside hu
    have hfacts := (readBlocks_facts s.dev (s.inodeOf fildes) (min nbyte (2 ^ 20))
      (s.fd fildes).offset.toNat (s.inodeOf fildes).fileSize.toNat buf).of_ok hv
    have hstays := hfacts.stays (h.mapped _) (by omega) (hok ⟨hge, hle31, hu⟩)
    have hoff : toInt32 ((s.fd fildes).offset + v.bytesRead) = (s.fd fildes).offset + v.bytesRead :=
      toInt32_of_small (by omega) (by omega)
    rw [he] at hdir ⊢
    refine h.setFd hdir rfl rfl (h.file _) ?_
    intro _
    show 0 ≤ toInt32 ((s.fd fildes).offset + v.bytesRead) ∧
      toInt32 ((s.fd fildes).offset + v.bytesRead) ≤ ((s.inodeOf fildes).fileSize.toNat : Int)
    rw [hoff]
    omega

/-- A write that leaves inode `ino` with `n` bytes written keeps `DescInv`. -/
theorem DescInv.finishWrite (h : DescInv s) {fildes : Int} (hu : (s.fd fildes).isUsed = true)
    {nbyte n : Nat} {dev : Dev} {ino : Inode}
    (hmax : (s.fd fildes).offset.toNat + nbyte ≤ 2 ^ 20)
    (hw : Wrote (s.fd fildes).offset.toNat nbyte s.dev (s.inodeOf fildes) dev ino n)
    (hdir : DirInv (finishWrite s fildes.toNat dev ino n).2) :
    DescInv (finishWrite s fildes.toNat dev ino n).2 := by
  obtain ⟨h0, hle, hsize⟩ := h.inside hu
  have hn := hw.le
  have hkept := hw.kept
  obtain ⟨size, hsz, he⟩ := finishWrite_eq s fildes dev ino (n := n) h0 (by omega)
  rw [hkept.size] at hsz
  rw [he] at hdir ⊢
  have hcur : (s.fd fildes).offset.toNat ≤ (s.inodeOf fildes).fileSize.toNat := by omega
  have hm : Mapped ino (max (s.inodeOf fildes).fileSize.toNat ((s.fd fildes).offset.toNat + n)) :=
    ((h.mapped _).kept hkept).max (hw.mapped ((h.mapped _).mono hcur))
  refine h.setInode hdir rfl ?_ ?_ ?_ ?_
  · show size.toNat ≤ 2 ^ 20
    omega
  · show Mapped _ size.toNat
    rw [hsz]
    exact hm.congr rfl rfl
  · intro k
    show ((s.fdTable.set fildes.toNat _).get k).inodeNumber.toNat < 64
    rw [Arr.get_set]
    split
    · exact h.file _
    · exact h.file k
  · intro k hk
    have hgrow : ∀ j, (s.inodeTable.get j).fileSize.toNat ≤
        ((s.inodeTable.set (s.fileOf fildes) { ino with fileSize := size }).get j).fileSize.toNat := by
      intro j
      rw [Arr.get_set]
      split
      · rename_i hj
        rw [hj.1]
        show (s.inodeOf fildes).fileSize.toNat ≤ size.toNat
        omega
      · exact le_refl _
    simp only at hk ⊢
    rw [Arr.get_set] at hk ⊢
    split
    · show 0 ≤ (s.fd fildes).offset + n ∧ (s.fd fildes).offset + n ≤
        (((s.inodeTable.set (s.fileOf fildes) { ino with fileSize := size }).get
          (s.fileOf fildes)).fileSize.toNat : Int)
      rw [Arr.get_set_self _ (h.file _)]
      show 0 ≤ (s.fd fildes).offset + n ∧ (s.fd fildes).offset + n ≤ (size.toNat : Int)
      omega
    · rename_i hkf
      rw [if_neg hkf] at hk
      obtain ⟨hk0, hkle⟩ := h.offset k hk
      have := hgrow (s.fdTable.get k).inodeNumber.toNat
      exact ⟨hk0, by omega⟩

theorem DescInv.write (h : DescInv s) {fildes : Int} {nbyte : Nat} (buf : Nat → UInt8)
    (hok : DescOk s (.write fildes buf nbyte)) : DescInv (fsWrite s fildes buf nbyte).2 := by
  have hdir := h.dir.same (fsWrite_sameDir s fildes buf nbyte)
  have hw := writeBlocks_wrote buf (writeRequest (s.fd fildes).offset nbyte)
    (s.fd fildes).offset.toNat s.dev (s.inodeOf fildes)
  rcases fsWrite_cases s fildes buf nbyte with he | ⟨hge, hle31, hu, hlt, hcase⟩
  · rw [he]
    exact h
  · obtain ⟨h0, hle, hsize⟩ := h.inside hu
    have hreq := writeRequest_eq nbyte h0 (by omega) (hok ⟨hge, hle31, hu⟩)
    rcases hcase with ⟨v, ho, he⟩ | ⟨e, ho, -, he⟩ | ⟨e, ho, -, he⟩
    · rw [he] at hdir ⊢
      exact h.finishWrite hu (by omega) (hw.of_ok ho) hdir
    · rw [he] at hdir ⊢
      exact h.finishWrite hu (by omega) (hw.of_error ho) hdir
    · have hkept := (hw.of_error ho).kept
      rw [he] at hdir ⊢
      refine h.setInode hdir rfl ?_ ?_ h.file ?_
      · rw [hkept.size]
        exact hsize
      · rw [hkept.size]
        exact (h.mapped _).kept hkept
      · intro k hk
        obtain ⟨hk0, hkle⟩ := h.offset k hk
        refine ⟨hk0, ?_⟩
        show (s.fdTable.get k).offset ≤ (((s.inodeTable.set (s.fileOf fildes) e.ino).get
          (s.fdTable.get k).inodeNumber.toNat).fileSize.toNat : Int)
        rw [Arr.get_set]
        split
        · rename_i hj
          rw [hkept.size, show s.inodeOf fildes
            = s.inodeTable.get (s.fdTable.get k).inodeNumber.toNat by rw [hj.1]]
          exact hkle
        · exact hkle

theorem finishTruncate_fd (s : State) (fildes length : Nat) (bitmap : Arr 1024 UInt8)
    (hlen : length < 2 ^ 31) (k : Nat) :
    (k = fildes ∧ (s.fdTable.get k).offset > length ∧
      (finishTruncate s fildes length bitmap).fdTable.get k
        = { s.fdTable.get k with offset := length }) ∨
    ((k = fildes → (s.fdTable.get k).offset ≤ length) ∧
      (finishTruncate s fildes length bitmap).fdTable.get k = s.fdTable.get k) := by
  have hlen' : toInt32 (length : Int) = length := toInt32_of_small (by omega) (by omega)
  by_cases hgt : (s.fdTable.get fildes).offset > length
  · have hfd : fildes < 32 := by
      by_contra hge
      rw [Arr.get_of_ge _ (by omega)] at hgt
      exact absurd hgt (by show ¬ ((0 : Int) > length); omega)
    by_cases hk : k = fildes
    · subst hk
      refine Or.inl ⟨rfl, hgt, ?_⟩
      rw [finishTruncate]
      simp only [if_pos hgt, hlen']
      exact Arr.get_set_self _ hfd _
    · refine Or.inr ⟨fun he => absurd he hk, ?_⟩
      rw [finishTruncate]
      simp only [if_pos hgt]
      exact Arr.get_set_ne _ hk _
  · refine Or.inr ⟨fun he => by rw [he]; omega, ?_⟩
    rw [finishTruncate]
    simp only [if_neg hgt]

theorem DescInv.truncate (h : DescInv s) {fildes length : Int}
    (hok : DescOk s (.truncate fildes length)) : DescInv (fsTruncate s fildes length).2 := by
  have hdir := h.dir.same (fsTruncate_sameDir s fildes length)
  rcases fsTruncate_cases s fildes length with ⟨-, he⟩ | ⟨-, -, -, -, he⟩ | ⟨hge, hle31, hu, h0, hlt, he⟩
  · rw [he]
    exact h
  · rw [he]
    exact h
  · obtain ⟨hoff0, hle, hsize⟩ := h.inside hu
    have hsz : (toUInt32 (length.toNat : Int)).toNat = length.toNat := by
      rw [toUInt32_of_small (by omega) (by omega)]
      omega
    have hfd := finishTruncate_fd s fildes.toNat length.toNat
      (truncatedBitmap s.dev (s.inodeOf fildes) length.toNat) (by omega)
    rw [he] at hdir ⊢
    refine h.setInode hdir rfl ?_ ?_ ?_ ?_
    · show (toUInt32 (length.toNat : Int)).toNat ≤ 2 ^ 20
      omega
    · show Mapped _ (toUInt32 (length.toNat : Int)).toNat
      rw [hsz]
      exact ((h.mapped (s.fileOf fildes)).mono (show _ ≤ (s.inodeOf fildes).fileSize.toNat by
        omega)).congr rfl rfl
    · intro k
      rcases hfd k with ⟨-, -, hg⟩ | ⟨-, hg⟩ <;>
      · rw [hg]
        exact h.file k
    · intro k hk
      have hino : ∀ j, j = s.fileOf fildes ∧ s.fileOf fildes < 64 ∧
          ((finishTruncate s fildes.toNat length.toNat
            (truncatedBitmap s.dev (s.inodeOf fildes) length.toNat)).inodeTable.get j).fileSize.toNat
            = length.toNat ∨ j ≠ s.fileOf fildes ∧
          (finishTruncate s fildes.toNat length.toNat
            (truncatedBitmap s.dev (s.inodeOf fildes) length.toNat)).inodeTable.get j
            = s.inodeTable.get j := by
        intro j
        by_cases hj : j = s.fileOf fildes
        · subst hj
          refine Or.inl ⟨rfl, h.file _, ?_⟩
          rw [finishTruncate, Arr.get_set_self _ (h.file _)]
          exact hsz
        · exact Or.inr ⟨hj, Arr.get_set_ne _ hj _⟩
      rcases hfd k with ⟨hkf, hgt, hg⟩ | ⟨hkf, hg⟩
      · rw [hg]
        rcases hino (s.fdTable.get k).inodeNumber.toNat with ⟨-, -, hs⟩ | ⟨hne, -⟩
        · rw [hs]
          exact ⟨Int.natCast_nonneg _, le_refl _⟩
        · exact absurd (by rw [hkf]) hne
      · rw [hg] at hk ⊢
        obtain ⟨hk0, hkle⟩ := h.offset k hk
        refine ⟨hk0, ?_⟩
        rcases hino (s.fdTable.get k).inodeNumber.toNat with ⟨hsame, -, hs⟩ | ⟨-, hs⟩
        · rw [hs]
          by_cases hkk : k = fildes.toNat
          · exact hkf hkk
          · have hk32 : k < 32 := by
              by_contra hge
              rw [Arr.get_of_ge _ (by omega)] at hk
              cases hk
            have := hok ⟨hge, hle31, hu⟩ h0 k hk32 hkk hk (UInt16.toNat_inj.mp hsame)
            omega
        · rw [hs]
          exact hkle

/-! ### Runs -/

theorem DescInv.step (h : DescInv s) {c : Call} (hok : DescOk s c) : DescInv (step s c).2 := by
  cases c with
  | «open» name => exact h.open name
  | close fildes => exact h.close fildes
  | create name => exact h.create hok
  | delete name => exact h.delete hok
  | read fildes buf nbyte => exact h.read buf hok
  | write fildes buf nbyte => exact h.write buf hok
  | getFilesize fildes => exact h
  | listfiles => exact h
  | lseek fildes offset => exact h.lseek fildes offset
  | truncate fildes length => exact h.truncate hok

theorem get_freshFd (disk : Disk) (t : Tables) (k : Nat) :
    (mounted disk t).fdTable.get k = FDesc.closed := Arr.get_fill_default k

theorem get_freshInode (disk : Disk) (bitmap : Arr 1024 UInt8) (i : Nat) :
    ∃ n, (mounted disk (emptyTables bitmap)).inodeTable.get i = Inode.empty n := by
  by_cases hi : i < 64
  · exact ⟨_, get_emptyInode hi bitmap⟩
  · exact ⟨0, Arr.get_of_ge _ (by omega)⟩

theorem descInv_fresh (blank : Disk) : DescInv (fresh blank) := by
  have hdir := dirInv_fresh blank
  obtain ⟨disk, he⟩ := fresh_eq blank
  rw [he] at hdir ⊢
  refine ⟨hdir, ?_, ?_, ?_, ?_⟩
  · intro k
    rw [get_freshFd]
    decide
  · intro k hk
    rw [get_freshFd] at hk
    cases hk
  · intro i
    obtain ⟨n, hn⟩ := get_freshInode disk (Arr.fill 0) i
    rw [hn]
    exact Nat.zero_le _
  · intro i
    obtain ⟨n, hn⟩ := get_freshInode disk (Arr.fill 0) i
    rw [hn]
    exact mapped_zero _

/-- **Descriptors stay inside their files in every run** whose writes do not wrap, whose
reads stay inside their files, and whose truncates leave no other descriptor behind the
end. -/
theorem descriptors_inside (blank : Disk) (cs : List Call)
    (hcs : RunOk step DescOk (fresh blank) cs) :
    (∀ k, k < 32 → ((run step (fresh blank) cs).fdTable.get k).isUsed = true →
      0 ≤ ((run step (fresh blank) cs).fdTable.get k).offset ∧
      ((run step (fresh blank) cs).fdTable.get k).offset
        ≤ ((run step (fresh blank) cs).inodeTable.get
          ((run step (fresh blank) cs).fdTable.get k).inodeNumber.toNat).fileSize.toNat) ∧
    ∀ i, i < 64 → ((run step (fresh blank) cs).inodeTable.get i).fileSize.toNat ≤ 2 ^ 20 := by
  have h := run_invariant (I := DescInv) (fun _ _ hs hc => hs.step hc) cs _ (descInv_fresh blank) hcs
  exact ⟨fun k _ => h.offset k, fun i _ => h.size i⟩

/-- A file is written through one descriptor and read through another. -/
def readThrough : List Call :=
  [.create nameA, .open nameA, .open nameA, .write 0 (fun _ => 7) 1, .read 1 (fun _ => 0) 1,
    .truncate 0 1]

theorem descriptors_inside_readThrough :
    ((run step (fresh zeroDisk) readThrough).fdTable.get 1).offset = 1 ∧
    ((run step (fresh zeroDisk) readThrough).fdTable.get 1).offset
      ≤ ((run step (fresh zeroDisk) readThrough).inodeTable.get
        ((run step (fresh zeroDisk) readThrough).fdTable.get 1).inodeNumber.toNat).fileSize.toNat := by
  have heval : ((run step (fresh zeroDisk) readThrough).fdTable.get 1).offset = 1 ∧
      ((run step (fresh zeroDisk) readThrough).fdTable.get 1).isUsed = true := by decide +kernel
  refine ⟨heval.1, ((descriptors_inside zeroDisk readThrough ?_).1 1 (by decide) heval.2).2⟩
  refine ⟨⟨by decide, by decide⟩, trivial, trivial, ?_, ?_, ?_, trivial⟩
  · show _ → _
    decide +kernel
  · exact fun _ => Or.inl (by decide +kernel)
  · show _ → _ → _
    decide +kernel

/-- A file is cut short through one descriptor while another stands at its end. -/
def cutShort : List Call :=
  [.create nameA, .open nameA, .open nameA, .write 0 (fun _ => 7) 1, .lseek 1 1, .truncate 0 0]

/-- The other descriptor stays behind the end. -/
theorem descriptor_behind_end :
    RunOk step (fun _ c => NamesValid c) (fresh zeroDisk) cutShort ∧
    ¬ ∀ k, k < 32 → ((run step (fresh zeroDisk) cutShort).fdTable.get k).isUsed = true →
      ((run step (fresh zeroDisk) cutShort).fdTable.get k).offset
        ≤ ((run step (fresh zeroDisk) cutShort).inodeTable.get
          ((run step (fresh zeroDisk) cutShort).fdTable.get k).inodeNumber.toNat).fileSize.toNat := by
  refine ⟨⟨⟨by decide, by decide⟩, trivial, trivial, trivial, trivial, trivial, trivial⟩,
    ?_⟩
  intro h
  have heval : ((run step (fresh zeroDisk) cutShort).fdTable.get 1).isUsed = true ∧
      ¬ ((run step (fresh zeroDisk) cutShort).fdTable.get 1).offset
        ≤ ((run step (fresh zeroDisk) cutShort).inodeTable.get
          ((run step (fresh zeroDisk) cutShort).fdTable.get 1).inodeNumber.toNat).fileSize.toNat := by
    decide +kernel
  exact heval.2 (h 1 (by decide) heval.1)

end EC440.FileSystems
