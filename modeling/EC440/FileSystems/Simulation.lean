import EC440.FileSystems.DirectoryCalls
import EC440.FileSystems.Stored
import EC440.FileSystems.WriteFrame
import Mathlib.Algebra.Order.BigOperators.Group.Finset
import Mathlib.Data.List.Find

/-!
# The code against the store

`Stores s t` relates the tables and the disk of the code to the store that they stand for: each used
directory entry is a file with its name and its bytes, each open descriptor has its place and its
offset, and the free blocks are those that no file needs.  Every call that is `Within` its limits keeps
the relation and gives the reply of the store (`Stores.agrees`).

All files lie in their direct blocks here, and 64 files of 25 blocks do not fill the disk, so no write
runs out of blocks (`Stores.room`).
-/

namespace EC440.FileSystems

open EC440.Lib

/-- What the tables have at place `i`. -/
def HoldsAt (s : State) (i : Nat) : Option StoredFile → Prop
  | none => (s.dirTable.get i).isUsed = 0 ∧ (s.inodeTable.get i).fileSize = 0
  | some f => (s.dirTable.get i).isUsed ≠ 0 ∧ nameAt s.dirTable i = f.name ∧
      KeepsBytes s.dev.disk (s.inodeTable.get i) f.bytes

def FDesc.cursor (fd : FDesc) : Option (Nat × Nat) :=
  if fd.isUsed then some (fd.inodeNumber.toNat, fd.offset.toNat) else none

/-- **The state stands for the store.** -/
structure Stores (s : State) (t : Store) : Prop where
  blocks : BlockInv s
  desc : DescInv s
  files : ∀ i, i < 64 → HoldsAt s i (t.files i)
  cursors : ∀ k, k < 32 → t.cursors k = (s.fdTable.get k).cursor
  count : freeCount s.dev.blocksBitmap +
    ∑ i ∈ Finset.range 64, blocksOf (s.inodeTable.get i).fileSize.toNat = 8187

/-- The code answers the call as the store does, and stands for the store after it. -/
def Agrees (s : State) (t : Store) (c : Call) : Prop :=
  (t.step c).1 = (answer s c).1 ∧ Stores (answer s c).2 (t.step c).2

variable {s s' : State} {t : Store} {fildes : Int} {i : Nat} {f : StoredFile}

/-! ### What the store has is in the tables -/

theorem Stores.file_none (h : Stores s t) (hi : i < 64) (hf : t.files i = none) :
    (s.dirTable.get i).isUsed = 0 ∧ (s.inodeTable.get i).fileSize = 0 := by
  have hholds := h.files i hi
  rwa [hf] at hholds

theorem Stores.file_some (h : Stores s t) (hi : i < 64) (hf : t.files i = some f) :
    (s.dirTable.get i).isUsed ≠ 0 ∧ nameAt s.dirTable i = f.name ∧
      KeepsBytes s.dev.disk (s.inodeTable.get i) f.bytes := by
  have hholds := h.files i hi
  rwa [hf] at hholds

/-- A place whose entry and inode stay, with the blocks of its file. -/
theorem Stores.holdsAt_frame (h : Stores s t) (hi : i < 64) (hdir : s'.dirTable.get i = s.dirTable.get i)
    (hino : s'.inodeTable.get i = s.inodeTable.get i)
    (hdisk : ∀ j, j < 25 → (s.inodeTable.get i).directBlock.get j ≠ 0 →
      s'.dev.disk.get ((s.inodeTable.get i).directBlock.get j).toNat =
        s.dev.disk.get ((s.inodeTable.get i).directBlock.get j).toNat) :
    HoldsAt s' i (t.files i) := by
  cases hf : t.files i with
  | none =>
    obtain ⟨hu, hsize⟩ := h.file_none hi hf
    exact ⟨by rw [hdir]; exact hu, by rw [hino]; exact hsize⟩
  | some f =>
    obtain ⟨hu, hname, hkeeps⟩ := h.file_some hi hf
    refine ⟨by rw [hdir]; exact hu, ?_, ?_⟩
    · rw [nameAt_of_get hi hdir (h.desc.dir.terminated i hi)]
      exact hname
    · rw [hino]
      exact hkeeps.congr hdisk

theorem Stores.isNone_iff (h : Stores s t) (hi : i < 64) :
    (t.files i).isNone = true ↔ (s.dirTable.get i).isUsed = 0 := by
  cases hf : t.files i with
  | none => simp [(h.file_none hi hf).1]
  | some f => simp [(h.file_some hi hf).1]

theorem Stores.findName_eq (h : Stores s t) {name : CString} (hname : name.val ≠ []) :
    findName s.dirTable name = t.place name.val := by
  rw [findName_def, Store.place]
  refine List.find?_congr fun i hi => ?_
  have hi' := List.mem_range.mp hi
  cases hf : t.files i with
  | none =>
    rw [(h.desc.dir.unused i hi' (h.file_none hi' hf).1).2]
    simpa using hname.symm
  | some f =>
    rw [(h.file_some hi' hf).2.1]
    simp

theorem Stores.findInode_eq (h : Stores s t) : findInode s.inodesBitmap = t.freePlace := by
  rw [findInode_def, Store.freePlace]
  refine List.find?_congr fun i hi => ?_
  have hi' := List.mem_range.mp hi
  have hbit := h.desc.dir.bit i hi'
  rw [Bool.eq_iff_iff, h.isNone_iff hi', Bool.not_eq_true', ← Bool.not_eq_true, ← hbit, not_ne_iff]

theorem Stores.isNone_cursor (h : Stores s t) {k : Nat} (hk : k < 32) :
    (t.cursors k).isNone = !(s.fdTable.get k).isUsed := by
  rw [h.cursors k hk, FDesc.cursor]
  cases (s.fdTable.get k).isUsed <;> rfl

theorem Stores.findFd_eq (h : Stores s t) : findFd s.fdTable = t.freeCursor := by
  rw [findFd_def, Store.freeCursor]
  exact List.find?_congr fun k hk => (h.isNone_cursor (List.mem_range.mp hk)).symm

theorem Stores.anyOpen_eq (h : Stores s t) : anyOpen s.fdTable = t.anyCursor := by
  rw [anyOpen_def, Store.anyCursor, Bool.eq_iff_iff, List.any_eq_true, List.any_eq_true]
  refine exists_congr fun k => and_congr_right fun hk => ?_
  rw [← Option.not_isNone, h.isNone_cursor (List.mem_range.mp hk), Bool.not_not]

/-- A descriptor out of range or not open stands for nothing. -/
theorem Stores.target_none (h : Stores s t)
    (hclosed : 0 ≤ fildes → fildes ≤ 31 → (s.fd fildes).isUsed = false) : t.target fildes = none := by
  rw [Store.target]
  split
  · rename_i hr
    have hcur := h.cursors fildes.toNat (by omega)
    rw [FDesc.cursor, hclosed hr.1 hr.2] at hcur
    rw [hcur]
    rfl
  · rfl

/-- An open descriptor stands for the file of its inode. -/
theorem Stores.target_some (h : Stores s t) (hr : 0 ≤ fildes ∧ fildes ≤ 31)
    (hu : (s.fd fildes).isUsed = true) :
    ∃ f, t.target fildes = some (s.fileOf fildes, f, (s.fd fildes).offset.toNat) ∧
      t.files (s.fileOf fildes) = some f := by
  have hi : s.fileOf fildes < 64 := h.desc.file _
  have hcur := h.cursors fildes.toNat (by omega)
  rw [FDesc.cursor, hu] at hcur
  have hused := (h.desc.dir.bit _ hi).mpr (h.blocks.inUse _ hu)
  cases hf : t.files (s.fileOf fildes) with
  | none => exact absurd (h.file_none hi hf).1 hused
  | some f =>
    refine ⟨f, ?_, rfl⟩
    have hf' : t.files (s.fdTable.get fildes.toNat).inodeNumber.toNat = some f := hf
    rw [Store.target, if_pos hr, hcur]
    simp [hf']

/-- The two cases of a call on a descriptor. -/
theorem Stores.target_cases (h : Stores s t) (fildes : Int) :
    (¬ s.FdOpen fildes ∧ t.target fildes = none) ∨
    ∃ f, (0 ≤ fildes ∧ fildes ≤ 31) ∧ (s.fd fildes).isUsed = true ∧
      t.target fildes = some (s.fileOf fildes, f, (s.fd fildes).offset.toNat) ∧
      t.files (s.fileOf fildes) = some f ∧
      KeepsBytes s.dev.disk (s.inodeOf fildes) f.bytes := by
  by_cases hr : 0 ≤ fildes ∧ fildes ≤ 31
  · cases hu : (s.fd fildes).isUsed with
    | false => exact Or.inl ⟨fun hopen => by simp [hopen.2.2] at hu, h.target_none fun _ _ => hu⟩
    | true =>
      obtain ⟨f, ht, hf⟩ := h.target_some hr hu
      exact Or.inr ⟨f, hr, rfl, ht, hf, (h.file_some (h.desc.file _) hf).2.2⟩
  · exact Or.inl ⟨fun hopen => hr ⟨hopen.1, hopen.2.1⟩, h.target_none fun h0 h31 => absurd ⟨h0, h31⟩ hr⟩

/-! ### Calls that change one descriptor -/

/-- A descriptor changes, and nothing else. -/
theorem Stores.setFd (h : Stores s t) {k : Nat} {fd : FDesc} (hk : k < 32)
    (hblocks : BlockInv { s with fdTable := s.fdTable.set k fd })
    (hdesc : DescInv { s with fdTable := s.fdTable.set k fd }) {c : Option (Nat × Nat)}
    (hc : fd.cursor = c) :
    Stores { s with fdTable := s.fdTable.set k fd }
      { t with cursors := Function.update t.cursors k c } := by
  refine ⟨hblocks, hdesc, ?_, ?_, h.count⟩
  · intro i hi
    have hholds := h.files i hi
    cases hf : t.files i with
    | none => rwa [hf] at hholds
    | some f => rwa [hf] at hholds
  · intro j hj
    show Function.update t.cursors k c j = ((s.fdTable.set k fd).get j).cursor
    by_cases hjk : j = k
    · subst hjk
      rw [Function.update_self, Arr.get_set_self _ hk, hc]
    · rw [Function.update_of_ne hjk, Arr.get_set_ne _ hjk, h.cursors j hj]

theorem Stores.refused (h : Stores s t) {c : Call} (hstore : t.step c = (.code (-1), t))
    (hcode : step s c = (-1, s)) (hbytes : bytesRead s c = []) (hnames : namesListed s c = []) :
    Agrees s t c := by
  rw [Agrees, hstore, answer, hcode, hbytes, hnames]
  exact ⟨rfl, h⟩

theorem Stores.open (h : Stores s t) {name : CString} (hname : name.val ≠ []) :
    Agrees s t (.open name) := by
  have hblocks := h.blocks.open (Or.inl hname)
  have hdesc := h.desc.open name
  have hplace := h.findName_eq hname
  have hfd := h.findFd_eq
  cases hp : t.place name.val with
  | none =>
    refine h.refused (by simp only [Store.step, hp]) ?_ rfl rfl
    rw [step, fsOpen, hplace, hp]
  | some i =>
    cases hk : t.freeCursor with
    | none =>
      refine h.refused (by simp only [Store.step, hp, hk]) ?_ rfl rfl
      rw [step, fsOpen, hplace, hp, hfd, hk]
    | some k =>
      rw [hp] at hplace
      rw [hk] at hfd
      have hopen : fsOpen s name = ((k : Int), { s with
          fdTable := s.fdTable.set k
            { isUsed := true, inodeNumber := (s.dirTable.get i).inodeNumber, offset := 0 } }) := by
        rw [fsOpen, hplace, hfd]
      rw [hopen] at hblocks hdesc
      obtain ⟨hi, hn, -⟩ := findName_eq_some.mp hplace
      have hused : (s.dirTable.get i).isUsed ≠ 0 := by
        intro h0
        rw [(h.desc.dir.unused i hi h0).2] at hn
        exact hname hn.symm
      rw [Agrees, answer, step, hopen]
      simp only [Store.step, hp, hk]
      refine ⟨rfl, h.setFd (findFd_eq_some hfd).1 hblocks hdesc ?_⟩
      simp [FDesc.cursor, (h.desc.dir.used i hi hused).1]

theorem fsClose_closed (hclosed : ¬ s.FdOpen fildes) : fsClose s fildes = (-1, s) :=
  State.check_closed hclosed _ _

theorem Stores.close (h : Stores s t) (fildes : Int) : Agrees s t (.close fildes) := by
  have hblocks := h.blocks.close fildes
  have hdesc := h.desc.close fildes
  rcases h.target_cases fildes with ⟨hclosed, ht⟩ | ⟨f, hr, hu, ht, -, -⟩
  · exact h.refused (by simp only [Store.step, ht]) (fsClose_closed hclosed) rfl rfl
  · have hclose : fsClose s fildes = (0, { s with fdTable := s.fdTable.set fildes.toNat FDesc.closed }) := by
      have hu' : (s.fdTable.get fildes.toNat).isUsed = true := hu
      rw [fsClose, if_neg (by omega), if_neg (by rw [hu']; decide)]
    rw [hclose] at hblocks hdesc
    rw [Agrees, answer, step, hclose]
    simp only [Store.step, ht]
    exact ⟨rfl, h.setFd (by omega) hblocks hdesc rfl⟩

theorem Stores.lseek (h : Stores s t) {offset : Int}
    (hopen : 0 ≤ fildes → fildes ≤ 31 → (t.target fildes).isSome = true) :
    Agrees s t (.lseek fildes offset) := by
  have hblocks := h.blocks.lseek fildes offset
  have hdesc := h.desc.lseek fildes offset
  rcases h.target_cases fildes with ⟨-, ht⟩ | ⟨f, hr, hu, ht, -, hkeeps⟩
  · rw [ht] at hopen
    have hout : fildes < 0 ∨ fildes > 31 := by
      by_contra hin
      have hsome := hopen (by omega) (by omega)
      cases hsome
    refine h.refused (by simp only [Store.step, ht]) ?_ rfl rfl
    rw [step, fsLseek, if_pos hout]
  · have hsize : (s.inodeTable.get (s.fdTable.get fildes.toNat).inodeNumber.toNat).fileSize.toNat
        = f.bytes.length := hkeeps.size
    have hshort := hkeeps.short
    by_cases ho : 0 ≤ offset ∧ offset ≤ f.bytes.length
    · have hseek := fsLseek_inside s hr (p := offset.toNat)
        (show _ ≤ (s.inodeTable.get (s.fdTable.get fildes.toNat).inodeNumber.toNat).fileSize.toNat by
          omega) (by omega)
      rw [Int.toNat_of_nonneg ho.1] at hseek
      rw [hseek] at hblocks hdesc
      rw [Agrees, answer, step, hseek]
      simp only [Store.step, ht, if_pos ho]
      refine ⟨rfl, h.setFd (by omega) hblocks hdesc ?_⟩
      simp only [FDesc.cursor, hu, if_true]
    · refine h.refused (by simp only [Store.step, ht, if_neg ho]) ?_ rfl rfl
      rw [step, fsLseek, if_neg (by omega)]
      simp only [hsize]
      rw [if_pos (by omega)]

/-! ### Calls that only look -/

theorem Stores.getFilesize (h : Stores s t) (fildes : Int) : Agrees s t (.getFilesize fildes) := by
  rcases h.target_cases fildes with ⟨hclosed, ht⟩ | ⟨f, hr, hu, ht, -, hkeeps⟩
  · refine h.refused (by simp only [Store.step, ht]) ?_ rfl rfl
    rw [step, fsGetFilesize, State.check_closed hclosed]
  · have hu' : (s.fdTable.get fildes.toNat).isUsed = true := hu
    have hsize : (s.inodeTable.get (s.fdTable.get fildes.toNat).inodeNumber.toNat).fileSize.toNat
        = f.bytes.length := hkeeps.size
    have hshort := hkeeps.short
    have hget : fsGetFilesize s fildes = f.bytes.length := by
      rw [fsGetFilesize, if_neg (by omega), if_neg (by rw [hu']; decide), hsize]
      exact toInt32_of_small (by omega) (by omega)
    rw [Agrees, answer, step, hget]
    simp only [Store.step, ht]
    exact ⟨rfl, h⟩

theorem filterMap_fsListfiles (s : State) :
    (fsListfiles s).filterMap Prod.snd = (usedSlots s.dirTable).map (nameAt s.dirTable) := by
  rw [fsListfiles_eq, List.filterMap_append, List.mapIdx_eq_zipIdx_map, List.filterMap_map]
  have hsome : (Prod.snd ∘ fun p : Nat × Nat => (p.2, some (nameAt s.dirTable p.1)))
      = some ∘ (nameAt s.dirTable ∘ Prod.fst) := rfl
  rw [hsome, List.filterMap_eq_map, ← List.map_map, List.zipIdx_map_fst]
  exact List.append_nil _

theorem Stores.listfiles (h : Stores s t) : Agrees s t .listfiles := by
  refine ⟨?_, h⟩
  simp only [Store.step, answer, step, bytesRead, namesListed, Reply.mk.injEq, true_and]
  rw [filterMap_fsListfiles, usedSlots, List.map_filterMap, ← List.filterMap_eq_map,
    List.filterMap_filter]
  refine List.filterMap_congr fun i hi => ?_
  have hi' := List.mem_range.mp hi
  cases hf : t.files i with
  | none => simp [(h.file_none hi' hf).1]
  | some f =>
    obtain ⟨hu, hn, -⟩ := h.file_some hi' hf
    simp [hu, hn]

/-! ### Reading -/

theorem KeepsBytes.bytes_eq {disk : Disk} {ino : Inode} {bytes : List UInt8}
    (h : KeepsBytes disk ino bytes) {q : Nat} (hq : q < bytes.length) :
    ino.bytes disk q = bytes.getD q 0 := by
  rw [Inode.bytes, tableOf_eq_zero h.single, h.bytes q hq]

theorem KeepsBytes.blocksBelow {bytes : List UInt8}
    (h : KeepsBytes s.dev.disk (s.inodeTable.get i) bytes) (hoi : OI s) :
    BlocksBelow s.dev.disk (s.inodeTable.get i) (s.inodeTable.get i).fileSize.toNat := by
  intro b hb
  rw [h.size] at hb
  have hshort := h.short
  have hlt : b < blocksOf bytes.length := by
    rw [blocksOf]
    omega
  rw [tableOf_eq_zero h.single]
  refine ⟨(h.mapped b).mpr hlt, ?_⟩
  rw [names_direct _ _ (show b < 25 by omega)]
  exact (h.block hoi hlt).1

theorem readBlocks_at_end (dev : Dev) (ino : Inode) (nbyte : Nat) {cursor size : Nat} (h : size ≤ cursor)
    (buf : Nat → UInt8) :
    readBlocks dev ino nbyte cursor size buf = .ok ⟨buf, 0, cursor / 4096, true⟩ := by
  have hdirect : readDirect dev ino nbyte cursor size ⟨buf, 0, cursor / 4096, true⟩
      = .ok ⟨buf, 0, cursor / 4096, true⟩ := by
    refine loop_of_false ?_ 25
    simp only [decide_eq_false_iff_not]
    omega
  rw [readBlocks, hdirect]
  simp only
  rw [readIndirect, if_neg (by simp only; omega)]

/-- **A read of a file in its direct blocks** that ends in the file or at the end of a block. -/
theorem KeepsBytes.readBlocks {bytes : List UInt8} {cursor nbyte : Nat}
    (h : KeepsBytes s.dev.disk (s.inodeTable.get i) bytes) (hoi : OI s) (hcur : cursor ≤ bytes.length)
    (hends : cursor + nbyte ≤ bytes.length ∨ EndsWithBlock cursor bytes.length) (buf : Nat → UInt8) :
    ∃ v, readBlocks s.dev (s.inodeTable.get i) (min nbyte (2 ^ 20)) cursor
        (s.inodeTable.get i).fileSize.toNat buf = .ok v ∧
      v.bytesRead = min nbyte (bytes.length - cursor) ∧
      ∀ k, k < v.bytesRead → v.buf k = bytes.getD (cursor + k) 0 := by
  have hshort := h.short
  have hsize := h.size
  by_cases hend : bytes.length ≤ cursor
  · refine ⟨_, readBlocks_at_end _ _ _ (by omega) buf, ?_, fun k hk => absurd hk (by simp)⟩
    simp only
    omega
  · have hread := readBlocks_end (h.blocksBelow hoi) (show cursor < 102400 by omega) (by omega)
      (show min nbyte (2 ^ 20) ≤ 2 ^ 20 by omega) buf
    have hstops : min nbyte (2 ^ 20) ≤ (s.inodeTable.get i).fileSize.toNat - cursor ∨
        RunsOut s.dev.disk (s.inodeTable.get i) (min nbyte (2 ^ 20)) cursor
          (s.inodeTable.get i).fileSize.toNat := by
      rcases hends with hle | hblock
      · exact Or.inl (by omega)
      · exact Or.inr ⟨by rw [hsize]; exact hblock, fun hlong => absurd hlong (by omega)⟩
    cases hr : FileSystems.readBlocks s.dev (s.inodeTable.get i) (min nbyte (2 ^ 20)) cursor
        (s.inodeTable.get i).fileSize.toNat buf with
    | error v => exact absurd hstops (hread.of_error hr)
    | ok v =>
      have hv := hread.of_ok hr
      have hn := hv.stops.mpr hstops
      refine ⟨v, rfl, by omega, ?_⟩
      intro k hk
      rw [hv.bytes hn k hk, h.bytes_eq (by omega)]

theorem map_range_eq_take_drop {bytes : List UInt8} {buf : Nat → UInt8} {cursor n nbyte : Nat}
    (hn : n = min nbyte (bytes.length - cursor))
    (hbuf : ∀ k, k < n → buf k = bytes.getD (cursor + k) 0) :
    (List.range n).map buf = (bytes.drop cursor).take nbyte := by
  refine List.ext_getElem (by simp [hn]) ?_
  intro k hk hk'
  have hlt : k < n := by simpa using hk
  rw [List.getElem_map, List.getElem_range, hbuf k hlt, List.getElem_take, List.getElem_drop,
    List.getD_eq_getElem _ _ (by omega)]

theorem fsRead_closed (hclosed : ¬ s.FdOpen fildes) (buf : Nat → UInt8) (nbyte : Nat) :
    fsRead s fildes buf nbyte = (-1, buf, s) := State.check_closed hclosed _ _

theorem Stores.read (h : Stores s t) {buf : Nat → UInt8} {nbyte : Nat}
    (hin : Within t (.read fildes buf nbyte)) : Agrees s t (.read fildes buf nbyte) := by
  have hblocks := h.blocks.read fildes buf nbyte
  rcases h.target_cases fildes with ⟨hclosed, ht⟩ | ⟨f, hr, hu, ht, -, hkeeps⟩
  · have hread := fsRead_closed hclosed buf nbyte
    refine h.refused (by simp only [Store.step, ht]) (by rw [step, hread]) ?_ rfl
    rw [bytesRead, hread]
    rfl
  · have hends := hin _ ht
    simp only at hends
    obtain ⟨h0, hle, -⟩ := h.desc.inside hu
    have hsize : (s.inodeOf fildes).fileSize.toNat = f.bytes.length := hkeeps.size
    have hshort := hkeeps.short
    have hstays : DescOk s (.read fildes buf nbyte) := by
      intro _
      rw [hsize]
      rcases hends with hend | hend
      · exact Or.inl (by omega)
      · by_cases hat : f.bytes.length = (s.fd fildes).offset.toNat
        · exact Or.inr (Or.inl hat)
        · exact Or.inr (Or.inr (Or.inl ⟨by omega, hend, fun hlong => absurd hlong (by omega)⟩))
    have hdesc := h.desc.read buf hstays
    obtain ⟨v, hv, hn, hbuf⟩ := hkeeps.readBlocks h.blocks.oi (show (s.fd fildes).offset.toNat ≤ _ by omega)
      hends buf
    have hread : fsRead s fildes buf nbyte = ((v.bytesRead : Int), v.buf, { s with
        fdTable := s.fdTable.set fildes.toNat
          { s.fd fildes with offset := (s.fd fildes).offset + v.bytesRead } }) := by
      rw [fsRead_open hr hu, hv]
      simp only
      rw [toInt32_of_small (by omega) (by omega), toInt32_of_small (by omega) (by omega)]
    have hout := map_range_eq_take_drop hn hbuf
    rw [hread] at hblocks hdesc
    have hlen : ((f.bytes.drop (s.fd fildes).offset.toNat).take nbyte).length = v.bytesRead := by
      rw [← hout, List.length_map, List.length_range]
    rw [Agrees, answer]
    simp only [step, bytesRead, namesListed, hread, Store.step, ht, hlen]
    refine ⟨?_, ?_⟩
    · rw [← hout]
      rfl
    · refine h.setFd (by omega) hblocks hdesc ?_
      simp only [FDesc.cursor, hu, if_true, Option.some.injEq, Prod.mk.injEq, true_and]
      omega

/-! ### Writing -/

/-- The free blocks are enough for every file: there are 64 files of at most 25 blocks. -/
theorem Stores.room (h : Stores s t) (i : Nat) : 25 ≤ freeCount s.dev.blocksBitmap +
    blocksOf (s.inodeTable.get i).fileSize.toNat := by
  have hle : ∀ j ∈ Finset.range 64, blocksOf (s.inodeTable.get j).fileSize.toNat ≤ 25 := by
    intro j hj
    have hj' := Finset.mem_range.mp hj
    cases hf : t.files j with
    | none =>
      rw [(h.file_none hj' hf).2]
      decide
    | some f =>
      have hkeeps := (h.file_some hj' hf).2.2
      rw [hkeeps.size]
      exact blocksOf_le_25 hkeeps.short
  have hsum := Finset.sum_le_card_nsmul _ _ 25 hle
  have hcount := h.count
  rw [Finset.card_range, show 64 • 25 = 1600 from rfl] at hsum
  omega

theorem sum_blocksOf_set (table : Arr 64 Inode) (hi : i < 64) (ino : Inode) :
    ∑ j ∈ Finset.range 64, blocksOf ((table.set i ino).get j).fileSize.toNat +
        blocksOf (table.get i).fileSize.toNat
      = ∑ j ∈ Finset.range 64, blocksOf (table.get j).fileSize.toNat +
        blocksOf ino.fileSize.toNat := by
  have hmem := Finset.mem_range.mpr hi
  rw [← Finset.sum_erase_add _ _ hmem, ← Finset.sum_erase_add (Finset.range 64)
    (fun j => blocksOf (table.get j).fileSize.toNat) hmem, Arr.get_set_self _ hi]
  have hsame : ∑ j ∈ (Finset.range 64).erase i, blocksOf ((table.set i ino).get j).fileSize.toNat
      = ∑ j ∈ (Finset.range 64).erase i, blocksOf (table.get j).fileSize.toNat := by
    refine Finset.sum_congr rfl fun j hj => ?_
    rw [Arr.get_set_ne _ (Finset.ne_of_mem_erase hj)]
  rw [hsame]
  omega

/-- The file of one descriptor changes, and its offset. -/
theorem Stores.setFile (h : Stores s t)
    (hu : (s.fd fildes).isUsed = true) (hf : t.files (s.fileOf fildes) = some f)
    (hblocks : BlockInv s') (hdesc : DescInv s') (hdir : s'.dirTable = s.dirTable) {ino : Inode}
    (hino : s'.inodeTable = s.inodeTable.set (s.fileOf fildes) ino)
    {offset : Nat} (hfd : ∀ k, s'.fdTable.get k =
      if k = fildes.toNat then { s.fd fildes with offset := (offset : Int) } else s.fdTable.get k)
    (hothers : OthersSame s (s.fileOf fildes) s'.dev.disk) {bytes : List UInt8}
    (hkeeps : KeepsBytes s'.dev.disk ino bytes)
    (hcount : freeCount s'.dev.blocksBitmap + blocksOf bytes.length
      = freeCount s.dev.blocksBitmap + blocksOf f.bytes.length) :
    Stores s' ((t.rewrite (s.fileOf fildes) f bytes).move fildes (s.fileOf fildes) offset) := by
  have hi : s.fileOf fildes < 64 := h.desc.file _
  obtain ⟨hused, hname, hold⟩ := h.file_some hi hf
  refine ⟨hblocks, hdesc, ?_, ?_, ?_⟩
  · intro j hj
    show HoldsAt s' j (Function.update t.files (s.fileOf fildes) _ j)
    by_cases hjf : j = s.fileOf fildes
    · subst hjf
      rw [Function.update_self]
      refine ⟨by rw [hdir]; exact hused, by rw [hdir]; exact hname, ?_⟩
      rw [hino, Arr.get_set_self _ hi]
      exact hkeeps
    · rw [Function.update_of_ne hjf]
      refine h.holdsAt_frame hj (by rw [hdir]) (by rw [hino, Arr.get_set_ne _ hjf]) fun b _ hne => ?_
      exact hothers (j, .direct b) hjf fun h0 => hne (UInt16.toNat_inj.mp h0)
  · intro k hk
    show Function.update t.cursors fildes.toNat _ k = _
    rw [hfd k]
    by_cases hkf : k = fildes.toNat
    · rw [hkf, Function.update_self, if_pos rfl]
      simp only [FDesc.cursor, hu, if_true, Int.toNat_natCast]
    · rw [Function.update_of_ne hkf, if_neg hkf, h.cursors k hk]
  · have hsum := sum_blocksOf_set s.inodeTable hi ino
    have hold' := h.count
    rw [hold.size, hkeeps.size] at hsum
    rw [hino]
    omega

theorem patched_map_range (data buf : Nat → UInt8) (cursor n q : Nat) :
    patched data (fun k => ((List.range n).map buf).getD k 0) cursor n q = patched data buf cursor n q := by
  rw [patched, patched]
  by_cases hin : cursor ≤ q ∧ q < cursor + n
  · rw [if_pos hin, if_pos hin, List.getD_eq_getElem _ _ (by simp; omega), List.getElem_map,
      List.getElem_range]
  · rw [if_neg hin, if_neg hin]

/-- **A write in the direct blocks** changes one inode and one offset, and no block that is not the
file's or free. -/
theorem Stores.fsWrite_eq (h : Stores s t) (hr : 0 ≤ fildes ∧ fildes ≤ 31)
    (hu : (s.fd fildes).isUsed = true) {bytes : List UInt8}
    (hkeeps : KeepsBytes s.dev.disk (s.inodeOf fildes) bytes) {nbyte : Nat}
    (hend : (s.fd fildes).offset.toNat + nbyte ≤ 102400) (buf : Nat → UInt8) :
    ∃ dev ino, fsWrite s fildes buf nbyte = ((nbyte : Int), { s with
        dev := dev
        inodeTable := s.inodeTable.set (s.fileOf fildes) ino
        fdTable := s.fdTable.set fildes.toNat
          { s.fd fildes with offset := (((s.fd fildes).offset.toNat + nbyte : Nat) : Int) } }) ∧
      ino.fileSize.toNat = max bytes.length ((s.fd fildes).offset.toNat + nbyte) ∧
      FileAt (deletedBitmap s.dev (s.inodeOf fildes)) dev ino
        (patched (fun q => bytes.getD q 0) buf (s.fd fildes).offset.toNat nbyte)
        (max bytes.length ((s.fd fildes).offset.toNat + nbyte)) ∧
      ∀ b, getBit b (deletedBitmap s.dev (s.inodeOf fildes)) = true →
        dev.disk.get b = s.dev.disk.get b := by
  obtain ⟨h0, hle, -⟩ := h.desc.inside hu
  have hsize : (s.inodeOf fildes).fileSize.toNat = bytes.length := hkeeps.size
  have hshort := hkeeps.short
  have hstream : Streaming (deletedBitmap s.dev (s.inodeOf fildes)) (fun q => bytes.getD q 0) fildes
      bytes.length s := ⟨hr, hu, h.desc.file _, hsize, by omega, hkeeps.fileAt h.blocks.oi⟩
  have hfree := hkeeps.freeCount_deleted h.blocks.oi
  have hroom := h.room (s.fileOf fildes)
  rw [show (s.inodeTable.get (s.fileOf fildes)).fileSize.toNat = _ from hsize] at hroom
  have hmax := blocksOf_le_25
    (show max bytes.length ((s.fd fildes).offset.toNat + nbyte) ≤ 102400 by omega)
  have hblocks : blocksOf (max bytes.length ((s.fd fildes).offset.toNat + nbyte))
      ≤ freeCount (deletedBitmap s.dev (s.inodeOf fildes)) := by
    rw [hfree]
    omega
  exact fsWrite_direct hstream hshort (by omega) (by omega) hend hblocks buf

theorem Stores.write (h : Stores s t) {buf : Nat → UInt8} {nbyte : Nat}
    (hin : Within t (.write fildes buf nbyte)) : Agrees s t (.write fildes buf nbyte) := by
  rcases h.target_cases fildes with ⟨hclosed, ht⟩ | ⟨f, hr, hu, ht, hf, hkeeps⟩
  · exact h.refused (by simp only [Store.step, ht]) (fsWrite_closed hclosed buf nbyte) rfl rfl
  · obtain ⟨hend, hzeros⟩ := hin _ ht
    simp only at hend hzeros
    obtain ⟨h0, hle, -⟩ := h.desc.inside hu
    have hi : s.fileOf fildes < 64 := h.desc.file _
    have hsize : (s.inodeOf fildes).fileSize.toNat = f.bytes.length := hkeeps.size
    have hshort := hkeeps.short
    have hreq : writeRequest (s.fd fildes).offset nbyte = nbyte := by
      rw [writeRequest_eq nbyte h0 (by omega) (by omega)]
      omega
    have hblocks : BlockInv (fsWrite s fildes buf nbyte).2 := h.blocks.write buf (by omega) fun _ => Or.inr
      ⟨((h.desc.mapped _).mono (show _ ≤ (s.inodeOf fildes).fileSize.toNat by omega)).start,
        fun _ hlong => by omega⟩
    have hdesc : DescInv (fsWrite s fildes buf nbyte).2 := h.desc.write buf fun _ => by omega
    have hothers := fsWrite_othersSame h.blocks fildes buf (show nbyte < 2 ^ 63 by omega)
    have hfree := hkeeps.freeCount_deleted h.blocks.oi
    obtain ⟨dev, ino, hcall, hino, hnew, -⟩ := h.fsWrite_eq hr hu hkeeps hend buf
    have hlen : (splice f.bytes ((List.range nbyte).map buf) (s.fd fildes).offset.toNat).length
        = max f.bytes.length ((s.fd fildes).offset.toNat + nbyte) := by
      rw [length_splice (by omega), List.length_map, List.length_range]
    rw [hcall] at hblocks hdesc hothers
    rw [Agrees, answer]
    simp only [step, bytesRead, namesListed, hcall, Store.step, ht]
    refine ⟨rfl, h.setFile hu hf hblocks hdesc rfl rfl ?_ hothers ?_ ?_⟩
    · intro k
      simp only [Arr.get_set]
      exact if_congr (by omega) rfl rfl
    · have hzeros' := (@patched_eq_splice_iff f.bytes ((List.range nbyte).map buf) _
        (show (s.fd fildes).offset.toNat ≤ f.bytes.length by omega)).mpr (by
          rw [List.length_map, List.length_range]
          exact hzeros)
      rw [← hlen] at hnew hino
      refine hnew.keepsBytes (by rw [hlen]; omega) hino ?_
      intro q hq
      rw [← hzeros' q (by rw [List.length_map, List.length_range, ← hlen]; exact hq), List.length_map,
        List.length_range, patched_map_range]
    · have hcount := hnew.laid.count
      rw [hfree, decide_eq_false (by omega)] at hcount
      rw [hlen]
      simpa using hcount

/-! ### Truncating -/

theorem KeepsBytes.take {disk : Disk} {ino : Inode} {bytes : List UInt8} {length : Nat}
    (h : KeepsBytes disk ino bytes) (hle : length ≤ bytes.length)
    (hsame : blocksOf length = blocksOf bytes.length) {size : UInt32} (hsize : size.toNat = length) :
    KeepsBytes disk { ino with fileSize := size } (bytes.take length) := by
  have hlen : (bytes.take length).length = length := by
    rw [List.length_take]
    omega
  have hshort := h.short
  refine ⟨by rw [hlen]; exact hsize, by omega, h.single, ?_, ?_⟩
  · intro j hj
    rw [hlen, hsame]
    exact h.direct j hj
  · intro q hq
    rw [hlen] at hq
    have hq' := h.bytes q (by omega)
    rw [List.getD_eq_getElem _ _ (by omega)] at hq' ⊢
    rw [List.getElem_take, ← hq']
    rfl

theorem KeepsBytes.nothingBehind {dev : Dev} {ino : Inode} {bytes : List UInt8} {length : Nat}
    (h : KeepsBytes dev.disk ino bytes) (hle : length ≤ bytes.length)
    (hsame : blocksOf length = blocksOf bytes.length) : NothingBehind dev ino length := by
  have hshort := h.short
  have hstart : startingBlock length = blocksOf length := by
    rw [startingBlock, blocksOf]
    split <;> omega
  refine ⟨?_, fun _ k => by rw [tableOf_eq_zero h.single]⟩
  intro hlt
  rw [hstart] at hlt ⊢
  by_contra hne
  have hblock := (h.direct _ hlt).mp hne
  omega

theorem fsTruncate_closed (hclosed : ¬ s.FdOpen fildes) (length : Int) :
    fsTruncate s fildes length = (-1, s) := State.check_closed hclosed _ _

theorem Stores.truncate (h : Stores s t) {length : Int} (hin : Within t (.truncate fildes length)) :
    Agrees s t (.truncate fildes length) := by
  rcases h.target_cases fildes with ⟨hclosed, ht⟩ | ⟨f, hr, hu, ht, hf, hkeeps⟩
  · exact h.refused (by simp only [Store.step, ht]) (fsTruncate_closed hclosed length) rfl rfl
  · have hcond := hin _ ht
    simp only at hcond
    obtain ⟨h0, hle, -⟩ := h.desc.inside hu
    have hsize : (s.inodeOf fildes).fileSize.toNat = f.bytes.length := hkeeps.size
    have hshort := hkeeps.short
    rcases fsTruncate_cases s fildes length with ⟨hout, hcall⟩ | ⟨-, -, -, heq, hcall⟩ |
      ⟨-, -, -, hl0, hlt, hcall⟩
    · have hno : ¬ (0 ≤ length ∧ length ≤ f.bytes.length) := by
        rintro ⟨hl0, hl⟩
        have hgt := hout hr.1 hr.2 hu hl0
        omega
      exact h.refused (by simp only [Store.step, ht, if_neg hno]) hcall rfl rfl
    · -- the length the file has already: both sides leave everything as it is
      have hcur := h.cursors fildes.toNat (by omega)
      rw [FDesc.cursor, if_pos hu] at hcur
      have hmin : min (s.fd fildes).offset.toNat length.toNat = (s.fd fildes).offset.toNat := by omega
      have htake : f.bytes.take length.toNat = f.bytes := List.take_of_length_le (by omega)
      rw [Agrees, answer]
      simp only [step, bytesRead, namesListed, hcall, Store.step, ht]
      rw [if_pos (by omega), hmin, htake]
      have hstore : (t.rewrite (s.fileOf fildes) f f.bytes).move fildes (s.fileOf fildes)
          (s.fd fildes).offset.toNat = t := by
        rw [Store.rewrite, Store.move, show ({ f with bytes := f.bytes } : StoredFile) = f from rfl, ← hf,
          Function.update_eq_self]
        simp only [← hcur, Function.update_eq_self]
      rw [hstore]
      exact ⟨rfl, h⟩
    · obtain ⟨hsame, hcursors⟩ := hcond hl0 (by omega)
      have hnothing : NothingBehind s.dev (s.inodeOf fildes) length.toNat :=
        hkeeps.nothingBehind (by omega) hsame
      have hblocks : BlockInv (fsTruncate s fildes length).2 := h.blocks.truncate fun _ _ _ => hnothing
      have hdesc : DescInv (fsTruncate s fildes length).2 := h.desc.truncate (by
        intro _ _ k hk hkf hku hino
        have hkle := hcursors k hk hkf ((s.fdTable.get k).inodeNumber.toNat,
          (s.fdTable.get k).offset.toNat) (by rw [h.cursors k hk, FDesc.cursor, if_pos hku]; rfl)
          (by simp only [hino])
        have hk0 := (h.desc.offset k hku).1
        simp only at hkle
        omega)
      have hfd := finishTruncate_fd s fildes.toNat length.toNat s.dev.blocksBitmap (by omega)
      rw [hcall, hnothing.bitmap_eq] at hblocks hdesc
      rw [Agrees, answer]
      simp only [step, bytesRead, namesListed, hcall, hnothing.bitmap_eq, Store.step, ht]
      rw [if_pos (by omega)]
      refine ⟨rfl, h.setFile hu hf hblocks hdesc rfl rfl ?_ (fun _ _ _ => rfl) (hkeeps.take (by omega) hsame
        (toUInt32_of_small (by omega) (by omega))) ?_⟩
      · intro k
        have hoff : (s.fdTable.get fildes.toNat).offset = (s.fd fildes).offset := rfl
        rcases hfd k with ⟨hkf, hgt, hget⟩ | ⟨hk, hget⟩
        · rw [hget, if_pos hkf, hkf]
          rw [hkf] at hgt
          rw [Nat.min_eq_right (by omega)]
        · rw [hget]
          split
          · rename_i hkf
            have hkle := hk hkf
            rw [hkf] at hkle ⊢
            rw [Nat.min_eq_left (by omega), Int.toNat_of_nonneg h0]
          · rfl
      · rw [List.length_take, Nat.min_eq_left (by omega), hsame]
        rfl

/-! ### Creating and deleting -/

theorem Stores.create (h : Stores s t) {name : CString} (hname : ValidName name) :
    Agrees s t (.create name) := by
  have hne : name.val ≠ [] := List.length_pos_iff.mp hname.1
  have hblocks := h.blocks.create hname
  have hdesc := h.desc.create hname
  have hplace := h.findName_eq hne
  have hfree := h.findInode_eq
  have hfull := h.desc.dir.dirFull_iff_inodes
  rcases fsCreate_cases s hname.2 with ⟨hcall, hwhy⟩ | ⟨-, hnot, hnone, -⟩ | ⟨i, hn, hd, hb, hcall⟩
  · refine h.refused ?_ hcall rfl rfl
    rcases hwhy with ⟨i, hi⟩ | hd
    · simp only [Store.step, ← hplace, hi]
    · rw [hfull, hfree] at hd
      simp only [Store.step, hd]
      cases t.place name.val <;> rfl
  · rw [hfull.mpr hnone] at hnot
    cases hnot
  · obtain ⟨hi, hbit⟩ := findInode_eq_some hb
    rw [hplace] at hn
    rw [hfree] at hb
    rw [hcall] at hblocks hdesc
    rw [Agrees, answer]
    simp only [step, bytesRead, namesListed, hcall, Store.step, hn, hb]
    refine ⟨rfl, hblocks, hdesc, ?_, h.cursors, h.count⟩
    intro j hj
    by_cases hji : j = i
    · subst hji
      show HoldsAt _ j (Function.update t.files j _ j)
      rw [Function.update_self]
      have hunused : (s.dirTable.get j).isUsed = 0 := by
        by_contra hu
        rw [(h.desc.dir.bit j hj).mp hu] at hbit
        cases hbit
      obtain ⟨hdirect, hsingle⟩ := h.blocks.oi.unused j hj hbit
      have hsize : (s.inodeTable.get j).fileSize = 0 := by
        cases hf : t.files j with
        | none => exact (h.file_none hj hf).2
        | some f => exact absurd hunused (h.file_some hj hf).1
      refine ⟨?_, nameAt_padName hj hname.2 ?_, keepsBytes_nil _ hsize hdirect hsingle⟩
      · simp only [Arr.get_set_self _ hj]
        show (1 : UInt8) ≠ 0
        decide
      · simp only [Arr.get_set_self _ hj]
    · show HoldsAt _ j (Function.update t.files i _ j)
      rw [Function.update_of_ne hji]
      exact h.holdsAt_frame hj (Arr.get_set_ne s.dirTable hji _) rfl fun _ _ _ => rfl

theorem Store.openOn_eq_false (h : t.anyCursor = false) (i : Nat) : t.openOn i = false := by
  rw [Store.openOn, List.any_eq_false]
  intro k hk
  rw [Store.anyCursor, List.any_eq_false] at h
  have hnone := h k hk
  cases hc : t.cursors k with
  | none => simp
  | some c => simp [hc] at hnone

theorem Stores.delete (h : Stores s t) {name : CString} (hin : Within t (.delete name)) :
    Agrees s t (.delete name) := by
  obtain ⟨hname, hopen⟩ := hin
  have hne : name.val ≠ [] := List.length_pos_iff.mp hname.1
  have hblocks := h.blocks.delete hname
  have hdesc := h.desc.delete hname
  have hplace := h.findName_eq hne
  have hany := h.anyOpen_eq
  rcases fsDelete_cases s name with ⟨hwhy, hcall⟩ | ⟨d, hn, ho, -, hcall⟩
  · refine h.refused ?_ hcall rfl rfl
    cases hp : t.place name.val with
    | none => simp only [Store.step, hp]
    | some i =>
      rw [hp] at hplace
      have hon : t.openOn i = true := by
        refine (hopen i hp).resolve_right fun hclosed => ?_
        have hge := hwhy i hplace (hany.trans hclosed)
        have hlt := h.desc.dir.entry_lt (findName_eq_some.mp hplace).1
        omega
      simp only [Store.step, hp, hon, if_true]
  · obtain ⟨hd, hu, -⟩ := h.desc.dir.findName_used hname hn
    have hnum := (h.desc.dir.used d hd hu).1
    rw [hplace] at hn
    rw [hany] at ho
    have hoff := Store.openOn_eq_false ho d
    obtain ⟨f, hf⟩ : ∃ f, t.files d = some f := by
      cases hf : t.files d with
      | none => exact absurd (h.file_none hd hf).1 hu
      | some f => exact ⟨f, rfl⟩
    have hkeeps := (h.file_some hd hf).2.2
    rw [hnum] at hcall
    rw [hcall] at hblocks hdesc
    rw [Agrees, answer]
    simp only [step, bytesRead, namesListed, hcall, Store.step, hn, hoff, Bool.false_eq_true, if_false]
    refine ⟨rfl, hblocks, hdesc, ?_, h.cursors, ?_⟩
    · intro j hj
      by_cases hjd : j = d
      · subst hjd
        show HoldsAt _ j (Function.update t.files j _ j)
        rw [Function.update_self]
        refine ⟨?_, ?_⟩
        · simp only [Arr.get_set_self _ hj]
          rfl
        · simp only [Arr.get_set_self _ hj]
          rfl
      · show HoldsAt _ j (Function.update t.files d _ j)
        rw [Function.update_of_ne hjd]
        exact h.holdsAt_frame hj (Arr.get_set_ne s.dirTable hjd _) (Arr.get_set_ne s.inodeTable hjd _)
          fun _ _ _ => rfl
    · have hsum := sum_blocksOf_set s.inodeTable hd (s.inodeTable.get d).cleared
      have hfree := hkeeps.freeCount_deleted h.blocks.oi
      have hold := h.count
      have hzero : blocksOf (s.inodeTable.get d).cleared.fileSize.toNat = 0 := by
        show blocksOf (0 : UInt32).toNat = 0
        decide
      rw [hkeeps.size, hzero] at hsum
      simp only
      omega

/-! ### Every call -/

/-- **A call within its limits** is answered as the store answers it, and the state stands for the store
after it. -/
theorem Stores.agrees (h : Stores s t) {c : Call} (hin : Within t c) : Agrees s t c := by
  cases c with
  | «open» name => exact h.open hin
  | close fildes => exact h.close fildes
  | create name => exact h.create hin
  | delete name => exact h.delete hin
  | read fildes buf nbyte => exact h.read hin
  | write fildes buf nbyte => exact h.write hin
  | getFilesize fildes => exact h.getFilesize fildes
  | listfiles => exact h.listfiles
  | lseek fildes offset => exact h.lseek hin
  | truncate fildes length => exact h.truncate hin

end EC440.FileSystems
