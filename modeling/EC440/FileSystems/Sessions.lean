import EC440.FileSystems.Image
import EC440.FileSystems.Calls
import EC440.FileSystems.WriteRule

/-!
# Sessions: making, mounting and unmounting

What `make_fs`, `mount_fs` and `umount_fs` do to a process, read off the image of
`Image.lean`.

* `umountFs_mountFs`: unmounting and mounting again, in a process that has mounted
  nothing, gives back the tables and the data.
* `makeFs_empty_iff`: `make_fs` makes an empty file system exactly when the bitmap
  in memory marks no data block.  It does not clear the bitmap before it uses it.
* `sessions_compose_iff`: a process gets through one session and no more, because
  `umount_fs` does not clear `is_fs_mounted`.
-/

namespace EC440.FileSystems

open EC440.Lib

/-! ### The three functions on a process -/

theorem makeFs_spec (blank : Disk) (p : Process) (name : String) :
    (makeFs blank p name).1 = 0 ∧
      Image ((makeFs blank p name).2.disks name) (emptyTables p.fs.dev.blocksBitmap) ∧
      (makeFs blank p name).2.fs.isFsMounted = p.fs.isFsMounted ∧
      (makeFs blank p name).2.fs.dev.blocksBitmap = setBits 5 p.fs.dev.blocksBitmap ∧
      ∀ b, 5 ≤ b → ((makeFs blank p name).2.disks name).get b = blank.get b := by
  obtain ⟨dev, hok, himage, hbitmap, hdata⟩ :=
    makeBlocks_image (openDisk (makeDisk blank p name) name).fs.dev
  have hm : makeFs blank p name = (0, closeDisk { openDisk (makeDisk blank p name) name with
      fs := { (openDisk (makeDisk blank p name) name).fs with dev := dev } }) := by
    simp only [makeFs, hok]
  rw [hm]
  refine ⟨rfl, ?_, rfl, hbitmap, ?_⟩
  · simp only [closeDisk, openDisk, Function.update_self]
    exact himage
  · intro b hb
    simp only [closeDisk, openDisk, makeDisk, Function.update_self] at hdata ⊢
    exact hdata b hb

/-- **Mounting an image** in a process with nothing mounted. -/
theorem mountFs_spec {p : Process} {name : String} {t : Tables} (hp : p.fs.isFsMounted = false)
    (h : Image (p.disks name) t) :
    mountFs p name = (0, ⟨mounted (p.disks name) t, p.disks, some name⟩) := by
  have hb : mountBlocks (openDisk p name).fs = .ok (mounted (p.disks name) t) :=
    mountBlocks_image (s := (openDisk p name).fs) h
  simp only [mountFs, hp, hb]
  rfl

theorem umountFs_spec {p : Process} {name : String} (arg : String) (hsb : p.fs.sb = layout)
    (hactive : p.active = some name) :
    (umountFs p arg).1 = 0 ∧ Image ((umountFs p arg).2.disks name) p.fs.tables ∧
      (∀ b, 5 ≤ b → ((umountFs p arg).2.disks name).get b = p.fs.dev.disk.get b) ∧
      (umountFs p arg).2.fs.isFsMounted = p.fs.isFsMounted := by
  obtain ⟨dev, hok, himage, -, hdata⟩ := umountBlocks_image hsb
  have hm : umountFs p arg = (0, closeDisk { p with fs := { p.fs with dev := dev } }) := by
    simp only [umountFs, hok]
  rw [hm]
  simp only [closeDisk, hactive, Function.update_self]
  exact ⟨trivial, himage, hdata, trivial⟩

/-! ### Unmounting and mounting again -/

/-- **Unmount then mount is the identity** on the tables and on the data blocks. -/
theorem umountFs_mountFs (p q : Process) (name : String) (hsb : p.fs.sb = layout)
    (hactive : p.active = some name) (hq : q.fs.isFsMounted = false)
    (hdisk : q.disks name = (umountFs p name).2.disks name) :
    (umountFs p name).1 = 0 ∧ (mountFs q name).1 = 0 ∧
      (mountFs q name).2.fs.sb = p.fs.sb ∧
      (mountFs q name).2.fs.dirTable = p.fs.dirTable ∧
      (mountFs q name).2.fs.inodeTable = p.fs.inodeTable ∧
      (mountFs q name).2.fs.inodesBitmap = p.fs.inodesBitmap ∧
      (mountFs q name).2.fs.dev.blocksBitmap = p.fs.dev.blocksBitmap ∧
      (∀ i, i < 32 → ((mountFs q name).2.fs.fdTable.get i).isUsed = false) ∧
      ∀ b, 5 ≤ b → b < 8192 →
        (mountFs q name).2.fs.dev.disk.get b = p.fs.dev.disk.get b := by
  obtain ⟨hret, himage, hdata, -⟩ := umountFs_spec name hsb hactive
  rw [← hdisk] at himage
  rw [mountFs_spec hq himage]
  refine ⟨hret, rfl, hsb.symm, rfl, rfl, rfl, rfl, ?_, ?_⟩
  · intro i hi
    show ((Arr.fill FDesc.closed : Arr 32 FDesc).get i).isUsed = false
    rw [Arr.get_fill _ hi]
    rfl
  · intro b hb _
    show (q.disks name).get b = p.fs.dev.disk.get b
    rw [hdisk, hdata b hb]

/-- A disk of zeros, and the names `a`, `b` and `c`. -/
def zeroDisk : Disk := Arr.fill (Arr.fill 0)

def nameA : CString := ⟨[97], by simp⟩

def nameB : CString := ⟨[98], by simp⟩

def nameC : CString := ⟨[99], by simp⟩

/-- A process that made a disk and two files on it, one of them with 5000 bytes. -/
def writtenProcess : Process :=
  let p := (mountFs (makeFs zeroDisk (Process.start (fun _ => zeroDisk)) "disk").2 "disk").2
  { p with
    fs := run step p.fs
      [.create nameA, .open nameA, .write 0 (fun _ => 7) 5000, .create nameB, .close 0] }

/-- Another process finds the names, the size, the blocks and the bytes. -/
theorem umountFs_mountFs_written :
    let s := (mountFs (Process.start (umountFs writtenProcess "disk").2.disks) "disk").2.fs
    nameAt s.dirTable 0 = nameA.val ∧ nameAt s.dirTable 1 = nameB.val ∧
      (s.inodeTable.get 0).fileSize = 5000 ∧ (s.inodeTable.get 0).directBlock.get 1 = 6 ∧
      getBit 1 s.inodesBitmap = true ∧ getBit 6 s.dev.blocksBitmap = true ∧
      (s.dev.disk.get 6).get 903 = 7 ∧ (s.dev.disk.get 6).get 904 = 0 := by
  have hsb : writtenProcess.fs.sb = layout := by decide +kernel
  obtain ⟨-, -, -, hdir, hino, hinodes, hblocks, -, hdata⟩ := umountFs_mountFs writtenProcess
    (Process.start (umountFs writtenProcess "disk").2.disks) "disk" hsb rfl rfl rfl
  intro s
  rw [hdir, hino, hinodes, hblocks, hdata 6 (by decide) (by decide)]
  decide +kernel

/-! ### Making an empty file system -/

theorem getBit_setBits (c i : Nat) (hc : c ≤ 8192) (bitmap : Arr 1024 UInt8) :
    getBit i (setBits c bitmap) = (decide (i < c) || getBit i bitmap) := by
  induction c with
  | zero => simp [setBits]
  | succ c ih =>
    rw [setBits, getBit_setBit, ih (by omega), ← Bool.or_assoc]
    congr 1
    rw [Bool.eq_iff_iff]
    simp only [Bool.or_eq_true, Bool.and_eq_true, decide_eq_true_eq]
    omega

/-- A file system without files: no entry and no inode is used, the first five blocks
are marked and no other, and inode `i` is numbered `i` and has no blocks. -/
def EmptyFs (s : State) : Prop :=
  (∀ i, i < 64 → (s.dirTable.get i).isUsed = 0) ∧
  (∀ i, i < 64 → getBit i s.inodesBitmap = false) ∧
  (∀ b, b < 8192 → (getBit b s.dev.blocksBitmap = true ↔ b < 5)) ∧
  ∀ i, i < 64 → (s.inodeTable.get i).inodeNumber.toNat = i ∧
    (∀ j, j < 25 → (s.inodeTable.get i).directBlock.get j = 0) ∧
    (s.inodeTable.get i).singleIndirectBlock = 0 ∧ (s.inodeTable.get i).fileSize = 0

/-- A disk as `mount_fs` decodes it, in a process of its own. -/
def decode (disk : Disk) : Int × State :=
  let r := mountFs (Process.start (fun _ => disk)) "disk"
  (r.1, r.2.fs)

theorem decode_image {disk : Disk} {t : Tables} (h : Image disk t) :
    decode disk = (0, mounted disk t) := by
  have hm := @mountFs_spec (Process.start (fun _ => disk)) "disk" _ rfl h
  simp only [decode, hm]
  rfl

theorem get_emptyInode {i : Nat} (hi : i < 64) (bitmap : Arr 1024 UInt8) :
    (emptyTables bitmap).inodeTable.get i = Inode.empty (UInt16.ofNat i) :=
  Arr.get_ofFn (fun i => Inode.empty (UInt16.ofNat i)) hi

theorem get_zeroBitmap (n i : Nat) : getBit i (Arr.fill 0 : Arr n UInt8) = false := by
  rw [getBit_eq_testBit, show (Arr.fill 0 : Arr n UInt8).get (i / 8) = 0 from Arr.get_fill_default _]
  exact Nat.zero_testBit _

/-- The tables `make_fs` writes are empty exactly when no data block was marked. -/
theorem emptyFs_iff (disk : Disk) (bitmap : Arr 1024 UInt8) :
    EmptyFs (mounted disk (emptyTables bitmap)) ↔
      ∀ b, 5 ≤ b → b < 8192 → getBit b bitmap = false := by
  have hbits : ∀ b, getBit b (mounted disk (emptyTables bitmap)).dev.blocksBitmap
      = (decide (b < 5) || getBit b bitmap) := fun b => getBit_setBits 5 b (by omega) bitmap
  constructor
  · rintro ⟨-, -, h, -⟩ b hb hlt
    have := h b hlt
    rw [hbits, show decide (b < 5) = false by simpa using hb, Bool.false_or] at this
    cases hg : getBit b bitmap with
    | false => rfl
    | true => exact absurd (this.mp hg) (by omega)
  · intro h
    refine ⟨?_, fun i _ => get_zeroBitmap 8 i, ?_, ?_⟩
    · intro i hi
      show ((Arr.fill DirEntry.empty : Arr 64 DirEntry).get i).isUsed = 0
      rw [Arr.get_fill _ hi]
      rfl
    · intro b hb
      rw [hbits]
      by_cases h5 : b < 5
      · simp [h5]
      · simp [h5, h b (by omega) hb]
    · intro i hi
      rw [show (mounted disk (emptyTables bitmap)).inodeTable.get i = Inode.empty (UInt16.ofNat i)
        from get_emptyInode hi bitmap]
      refine ⟨?_, fun j hj => Arr.get_fill _ hj, rfl, rfl⟩
      show (UInt16.ofNat i).toNat = i
      rw [UInt16.toNat_ofNat']
      omega

/-- **`make_fs` makes an empty file system exactly when the bitmap in memory marks no
data block.** -/
theorem makeFs_empty_iff (blank : Disk) (p : Process) (name : String) :
    ((makeFs blank p name).1 = 0 ∧ (decode ((makeFs blank p name).2.disks name)).1 = 0 ∧
      EmptyFs (decode ((makeFs blank p name).2.disks name)).2) ↔
      ∀ b, 5 ≤ b → b < 8192 → getBit b p.fs.dev.blocksBitmap = false := by
  obtain ⟨hret, himage, -, -⟩ := makeFs_spec blank p name
  rw [decode_image himage, ← emptyFs_iff]
  exact ⟨fun h => h.2.2, fun h => ⟨hret, rfl, h⟩⟩

/-- A process that made a disk, wrote one byte to a file on it, and unmounted it. -/
def usedProcess : Process :=
  let p := (mountFs (makeFs zeroDisk (Process.start (fun _ => zeroDisk)) "disk").2 "disk").2
  let s := run step p.fs [.create nameA, .open nameA, .write 0 (fun _ => 7) 1, .close 0]
  (umountFs { p with fs := s } "disk").2

/-- The second disk a process makes is not empty: block 5 is marked. -/
theorem makeFs_not_empty :
    (makeFs zeroDisk usedProcess "other").1 = 0 ∧
      ¬ EmptyFs (decode ((makeFs zeroDisk usedProcess "other").2.disks "other")).2 := by
  obtain ⟨hret, himage, -, -⟩ := makeFs_spec zeroDisk usedProcess "other"
  have hused : getBit 5 usedProcess.fs.dev.blocksBitmap = true := by decide +kernel
  refine ⟨hret, ?_⟩
  intro h
  rw [decode_image himage, emptyFs_iff] at h
  rw [h 5 (by decide) (by decide)] at hused
  exact absurd hused (by decide)

/-- **The fresh file system**: empty tables and the first five blocks marked. -/
theorem fresh_eq (blank : Disk) :
    ∃ disk, fresh blank = mounted disk (emptyTables (Arr.fill 0)) := by
  obtain ⟨-, himage, hflag, -⟩ := makeFs_spec blank (Process.start (fun _ => blank)) "disk"
  rw [fresh, mountFs_spec hflag himage]
  exact ⟨_, rfl⟩

/-! ### Sessions in one process -/

theorem step_frame (s : State) (c : Call) :
    (step s c).2.sb = s.sb ∧ (step s c).2.isFsMounted = s.isFsMounted := by
  cases c with
  | «open» name =>
    rcases fsOpen_cases s name with h | ⟨i, fd, -, -, h⟩ <;>
    · rw [step, h]
      exact ⟨rfl, rfl⟩
  | close fildes =>
    rcases fsClose_cases s fildes with h | ⟨-, -, -, h⟩ <;>
    · rw [step, h]
      exact ⟨rfl, rfl⟩
  | create name =>
    obtain ⟨r, t, bits, h, -⟩ := fsCreate_frame s name
    rw [step, h]
    exact ⟨rfl, rfl⟩
  | delete name =>
    rcases fsDelete_cases s name with ⟨-, h⟩ | ⟨d, -, -, -, h⟩ <;>
    · rw [step, h]
      exact ⟨rfl, rfl⟩
  | read fildes buf nbyte =>
    rcases fsRead_cases s fildes buf nbyte with ⟨-, h⟩ | ⟨-, -, -, v, -, h⟩ <;>
    · rw [step, h]
      exact ⟨rfl, rfl⟩
  | write fildes buf nbyte =>
    rcases fsWrite_cases s fildes buf nbyte with
      h | ⟨-, -, -, -, ⟨v, -, h⟩ | ⟨e, -, -, h⟩ | ⟨e, -, -, h⟩⟩ <;>
    · rw [step, h]
      exact ⟨rfl, rfl⟩
  | getFilesize fildes => exact ⟨rfl, rfl⟩
  | listfiles => exact ⟨rfl, rfl⟩
  | lseek fildes offset =>
    rcases fsLseek_cases s fildes offset with h | ⟨-, -, -, -, h⟩ <;>
    · rw [step, h]
      exact ⟨rfl, rfl⟩
  | truncate fildes length =>
    rcases fsTruncate_cases s fildes length with ⟨-, h⟩ | ⟨-, -, -, -, h⟩ | ⟨-, -, -, -, -, h⟩ <;>
    · rw [step, h]
      exact ⟨rfl, rfl⟩

theorem run_frame (s : State) (cs : List Call) :
    (run step s cs).sb = s.sb ∧ (run step s cs).isFsMounted = s.isFsMounted := by
  induction cs generalizing s with
  | nil => exact ⟨rfl, rfl⟩
  | cons c cs ih =>
    obtain ⟨h1, h2⟩ := ih (step s c).2
    obtain ⟨g1, g2⟩ := step_frame s c
    exact ⟨h1.trans g1, h2.trans g2⟩

/-- A session: `mount_fs`, calls, `umount_fs`, on one disk. -/
structure Session where
  disk : String
  calls : List Call

/-- What a session did: the two return values, and the state between them at its
start and at its end. -/
structure SessionLog where
  disk : String
  mountRet : Int
  atStart : State
  atEnd : State
  umountRet : Int

def runSession (p : Process) (x : Session) : SessionLog × Process :=
  let m := mountFs p x.disk
  let s := run step m.2.fs x.calls
  let u := umountFs { m.2 with fs := s } x.disk
  (⟨x.disk, m.1, m.2.fs, s, u.1⟩, u.2)

def runSessions : Process → List Session → List SessionLog
  | _, [] => []
  | p, x :: xs => (runSession p x).1 :: runSessions (runSession p x).2 xs

/-- Two states show the same files: equal tables, and equal data blocks. -/
def SameFiles (s s' : State) : Prop :=
  s.tables = s'.tables ∧ ∀ b, 5 ≤ b → b < 8192 → s.dev.disk.get b = s'.dev.disk.get b

/-- Sessions compose: each `mount_fs` after a successful `umount_fs` succeeds and finds
what the last session on its disk left. -/
def Compose (logs : List SessionLog) : Prop :=
  ∀ k log, logs[k]? = some log →
    (∀ prev, 0 < k → logs[k - 1]? = some prev → prev.umountRet = 0) →
    log.mountRet = 0 ∧ ∀ j prev, j < k → logs[j]? = some prev → prev.disk = log.disk →
      (∀ l mid, j < l → l < k → logs[l]? = some mid → mid.disk ≠ log.disk) →
      SameFiles log.atStart prev.atEnd

/-- The first session of a process succeeds, and leaves the flag set. -/
theorem runSession_first {p : Process} {x : Session} {t : Tables}
    (hp : p.fs.isFsMounted = false) (h : Image (p.disks x.disk) t) :
    (runSession p x).1.mountRet = 0 ∧ (runSession p x).1.umountRet = 0 ∧
      (runSession p x).2.fs.isFsMounted = true := by
  simp only [runSession, mountFs_spec hp h]
  obtain ⟨hsb, hflag⟩ := run_frame (mounted (p.disks x.disk) t) x.calls
  obtain ⟨hret, -, -, hfs⟩ := umountFs_spec
    (p := ⟨run step (mounted (p.disks x.disk) t) x.calls, p.disks, some x.disk⟩)
    x.disk hsb rfl
  exact ⟨trivial, hret, hfs.trans hflag⟩

theorem runSession_mounted {p : Process} (x : Session) (hp : p.fs.isFsMounted = true) :
    (runSession p x).1.mountRet = -1 := by
  simp only [runSession, mountFs, hp, if_true]

theorem not_compose_two {p : Process} {x y : Session} {t : Tables} (rest : List Session)
    (hp : p.fs.isFsMounted = false) (h : Image (p.disks x.disk) t) :
    ¬ Compose (runSessions p (x :: y :: rest)) := by
  obtain ⟨-, humount, hflag⟩ := runSession_first hp h
  intro hc
  have h1 := (hc 1 _ rfl (fun prev _ hprev => by cases hprev; exact humount)).1
  rw [runSession_mounted y hflag] at h1
  exact absurd h1 (by decide)

/-- **A process gets through one session and no more.** -/
theorem sessions_compose_iff (p : Process) (xs : List Session) (hp : p.fs.isFsMounted = false)
    (hdisks : ∀ x ∈ xs, ∃ t, Image (p.disks x.disk) t) :
    Compose (runSessions p xs) ↔ xs.length ≤ 1 := by
  match xs with
  | [] =>
    refine ⟨fun _ => by simp, ?_⟩
    intro _ k log hlog
    simp [runSessions] at hlog
  | [x] =>
    refine ⟨fun _ => by simp, ?_⟩
    intro _ k log hlog _
    obtain ⟨t, ht⟩ := hdisks x (by simp)
    match k with
    | 0 =>
      cases hlog
      exact ⟨(runSession_first hp ht).1, fun j _ hj => absurd hj (by omega)⟩
    | k + 1 => simp [runSessions] at hlog
  | x :: y :: rest =>
    obtain ⟨t, ht⟩ := hdisks x (by simp)
    refine ⟨fun h => absurd h (not_compose_two rest hp ht), ?_⟩
    intro h
    simp at h

def madeDisks : String → Disk := (makeFs zeroDisk (Process.start (fun _ => zeroDisk)) "disk").2.disks

theorem madeDisks_image : Image (madeDisks "disk") (emptyTables (Arr.fill 0)) :=
  (makeFs_spec zeroDisk (Process.start (fun _ => zeroDisk)) "disk").2.1

theorem sessions_compose_one :
    Compose (runSessions (Process.start madeDisks) [⟨"disk", [.create nameA]⟩]) := by
  refine (sessions_compose_iff _ _ rfl ?_).mpr (by simp)
  intro x hx
  rw [List.mem_singleton.mp hx]
  exact ⟨_, madeDisks_image⟩

/-- Two sessions on one disk do not compose. -/
theorem sessions_not_compose :
    (∃ t, Image ((Process.start madeDisks).disks "disk") t) ∧
      ¬ Compose (runSessions (Process.start madeDisks) [⟨"disk", []⟩, ⟨"disk", []⟩]) :=
  ⟨⟨_, madeDisks_image⟩, not_compose_two [] rfl madeDisks_image⟩

end EC440.FileSystems
