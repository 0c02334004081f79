import EC440.FileSystems.Refinement

/-!
# Sessions that are cut short

The tables are in memory between `mount_fs` and `umount_fs`, and `block_write` writes to the disk at
once.  So a process that is killed before it unmounts leaves the files of the session before, with
their names and sizes, and what it wrote into their blocks.  A file keeps its bytes unless it was
written or deleted: a deleted file comes back, with what others have put into its blocks
(`Store.Recovers`).

`sessions_survive_kills` says that this is all: over any sessions, ended by `umount_fs` or cut short
between two calls, each one finds such files and is answered accordingly.
-/

namespace EC440.FileSystems

open EC440.Lib

inductive Ending
  | unmounted
  | killed
  deriving DecidableEq

/-- What a program gets to see of a session: what `mount_fs` returns, the answers, and what
`umount_fs` returns, where it gets that far. -/
abbrev SessionSeen : Type := Int × List Reply × Option Int

/-- A session in a process of its own.  What was written to the disk stays there. -/
def life (disk : Disk) : List Call × Ending → SessionSeen × Disk
  | (cs, .unmounted) =>
    let r := session disk cs
    ((r.1.mounted, r.1.answers, some r.1.unmounted), r.2)
  | (cs, .killed) =>
    let m := mountFs (Process.start fun _ => disk) "disk"
    ((m.1, replies answer m.2.fs cs, none), (run answer m.2.fs cs).dev.disk)

/-! ### What is left -/

namespace Store

/-- The calls that may change what is on the disk of the file at place `i`: a write to it, and a delete,
which gives its blocks to others. -/
def Touches (t : Store) (i : Nat) : Call → Prop
  | .write fildes _ _ => ∃ x ∈ t.target fildes, x.1 = i
  | .delete name => t.place name.val = some i ∧ t.openOn i = false
  | _ => False

/-- **What a killed session leaves**: the files it found, with their names and sizes, and with their
bytes where no call touched them. -/
structure Recovers (t : Store) (cs : List Call) (t' : Store) : Prop where
  same : ∀ i, i < 64 → (t'.files i).map (fun f => (f.name, f.bytes.length)) =
    (t.files i).map (fun f => (f.name, f.bytes.length))
  kept : ∀ i, i < 64 → RunOk step (fun t c => ¬ t.Touches i c) t.closed cs → t'.files i = t.files i

/-- What the sessions see when they start from the files of `t`. -/
inductive Lives : Store → List (List Call × Ending) → List SessionSeen → Prop
  | nil {t : Store} : Lives t [] []
  | unmounted {t : Store} {cs : List Call} {xs : List (List Call × Ending)} {rs : List SessionSeen}
      (h : Lives (t.session cs).2 xs rs) :
      Lives t ((cs, .unmounted) :: xs) ((0, replies step t.closed cs, some 0) :: rs)
  | killed {t t' : Store} {cs : List Call} {xs : List (List Call × Ending)} {rs : List SessionSeen}
      (hr : t.Recovers cs t') (h : Lives t' xs rs) :
      Lives t ((cs, .killed) :: xs) ((0, replies step t.closed cs, none) :: rs)

/-- The calls of the sessions are within the limits, whatever files they find. -/
def LivesWithin : Store → List (List Call × Ending) → Prop
  | _, [] => True
  | t, (cs, .unmounted) :: xs => RunOk step Within t.closed cs ∧ LivesWithin (t.session cs).2 xs
  | t, (cs, .killed) :: xs =>
    RunOk step Within t.closed cs ∧ ∀ t', t.Recovers cs t' → LivesWithin t' xs

end Store

variable {s s' s'' : State} {t : Store} {i : Nat}

/-! ### What a call leaves of a file -/

/-- From `s` to `s'`, the slots of inode `i` are the same and so are the blocks that they name. -/
structure SameFile (i : Nat) (s s' : State) : Prop where
  slots : (s'.inodeTable.get i).directBlock = (s.inodeTable.get i).directBlock
  blocks : ∀ j, (s.inodeTable.get i).directBlock.get j ≠ 0 →
    s'.dev.disk.get ((s.inodeTable.get i).directBlock.get j).toNat =
      s.dev.disk.get ((s.inodeTable.get i).directBlock.get j).toNat

def SameTables (s s' : State) : Prop := ∀ b, b < 5 → s'.dev.disk.get b = s.dev.disk.get b

theorem SameFile.trans (h : SameFile i s s') (h' : SameFile i s' s'') : SameFile i s s'' := by
  refine ⟨h'.slots.trans h.slots, fun j hj => ?_⟩
  have hblock := h'.blocks j (by rw [h.slots]; exact hj)
  rw [h.slots] at hblock
  exact hblock.trans (h.blocks j hj)

theorem SameTables.trans (h : SameTables s s') (h' : SameTables s' s'') : SameTables s s'' :=
  fun b hb => (h' b hb).trans (h b hb)

theorem sameFile_of_disk (hdisk : s'.dev.disk = s.dev.disk)
    (hslots : (s'.inodeTable.get i).directBlock = (s.inodeTable.get i).directBlock) : SameFile i s s' :=
  ⟨hslots, fun _ _ => by rw [hdisk]⟩

theorem sameTables_of_disk (hdisk : s'.dev.disk = s.dev.disk) : SameTables s s' :=
  fun _ _ => by rw [hdisk]

theorem step_disk {c : Call} (hc : ∀ fildes buf nbyte, c ≠ .write fildes buf nbyte) :
    (step s c).2.dev.disk = s.dev.disk := by
  cases c with
  | «open» name =>
    rcases fsOpen_cases s name with h | ⟨i, fd, -, -, h⟩ <;>
    · rw [step, h]
  | close fildes =>
    rcases fsClose_cases s fildes with h | ⟨-, -, -, h⟩ <;>
    · rw [step, h]
  | create name =>
    obtain ⟨r, t, bits, h, -⟩ := fsCreate_frame s name
    rw [step, h]
  | delete name =>
    rcases fsDelete_cases s name with ⟨-, h⟩ | ⟨d, -, -, -, h⟩ <;>
    · rw [step, h]
  | read fildes buf nbyte =>
    rcases fsRead_cases s fildes buf nbyte with ⟨-, h⟩ | ⟨-, -, -, v, -, h⟩ <;>
    · rw [step, h]
  | write fildes buf nbyte => exact absurd rfl (hc fildes buf nbyte)
  | getFilesize fildes => rfl
  | listfiles => rfl
  | lseek fildes offset =>
    rcases fsLseek_cases s fildes offset with h | ⟨-, -, -, -, h⟩ <;>
    · rw [step, h]
  | truncate fildes length =>
    rcases fsTruncate_cases s fildes length with ⟨-, h⟩ | ⟨-, -, -, -, h⟩ | ⟨-, -, -, -, -, h⟩
    · rw [step, h]
    · rw [step, h]
    · rw [step, h]
      exact rfl

/-- Only a write and a delete change the slots of an inode. -/
theorem Stores.step_slots (h : Stores s t) {c : Call} (hin : Within t c)
    (hc : ∀ fildes buf nbyte, c ≠ .write fildes buf nbyte) (hi : ¬ t.Touches i c) :
    ((step s c).2.inodeTable.get i).directBlock = (s.inodeTable.get i).directBlock := by
  cases c with
  | «open» name =>
    rcases fsOpen_cases s name with h | ⟨i, fd, -, -, h⟩ <;>
    · rw [step, h]
  | close fildes =>
    rcases fsClose_cases s fildes with h | ⟨-, -, -, h⟩ <;>
    · rw [step, h]
  | create name =>
    obtain ⟨r, t, bits, h, -⟩ := fsCreate_frame s name
    rw [step, h]
  | delete name =>
    rcases fsDelete_cases s name with ⟨-, he⟩ | ⟨d, hn, ho, -, he⟩
    · rw [step, he]
    · obtain ⟨hd, hu, -⟩ := h.desc.dir.findName_used hin.1 hn
      rw [(h.desc.dir.used d hd hu).1] at he
      rw [h.findName_eq (List.length_pos_iff.mp hin.1.1)] at hn
      rw [h.anyOpen_eq] at ho
      have hne : i ≠ d := by
        rintro rfl
        exact hi ⟨hn, Store.openOn_eq_false ho i⟩
      rw [step, he, Arr.get_set_ne _ hne]
  | read fildes buf nbyte =>
    rcases fsRead_cases s fildes buf nbyte with ⟨-, h⟩ | ⟨-, -, -, v, -, h⟩ <;>
    · rw [step, h]
  | write fildes buf nbyte => exact absurd rfl (hc fildes buf nbyte)
  | getFilesize fildes => rfl
  | listfiles => rfl
  | lseek fildes offset =>
    rcases fsLseek_cases s fildes offset with h | ⟨-, -, -, -, h⟩ <;>
    · rw [step, h]
  | truncate fildes length =>
    rcases fsTruncate_cases s fildes length with ⟨-, h⟩ | ⟨-, -, -, -, h⟩ | ⟨-, -, -, -, -, h⟩
    · rw [step, h]
    · rw [step, h]
    · rw [step, h]
      exact (finishTruncate_slots s _ _ _ i).1

/-- A write goes to blocks of its file and to blocks that were free. -/
theorem Stores.write_leaves (h : Stores s t) {fildes : Int} {buf : Nat → UInt8} {nbyte : Nat}
    (hin : Within t (.write fildes buf nbyte)) :
    SameTables s (fsWrite s fildes buf nbyte).2 ∧
      ∀ i, ¬ t.Touches i (.write fildes buf nbyte) → SameFile i s (fsWrite s fildes buf nbyte).2 := by
  rcases h.target_cases fildes with ⟨hclosed, -⟩ | ⟨f, hr, hu, ht, -, hkeeps⟩
  · rw [fsWrite_closed hclosed]
    exact ⟨fun _ _ => rfl, fun i _ => ⟨rfl, fun _ _ => rfl⟩⟩
  · obtain ⟨hend, -⟩ := hin _ ht
    obtain ⟨dev, ino, hcall, -, -, hkept⟩ := h.fsWrite_eq hr hu hkeeps hend buf
    have howned := h.blocks.oi.owned
    rw [hcall]
    constructor
    · intro b hb
      refine hkept b (getBit_deletedBitmap_of_ne (h.blocks.oi.reserved b hb) ?_)
      intro sl hsl he
      have hfive := (howned.used_of_ne _ hsl).1
      omega
    · intro i hi
      have hne : i ≠ s.fileOf fildes := by
        rintro rfl
        exact hi ⟨_, ht, rfl⟩
      refine ⟨by simp only [Arr.get_set_ne _ hne], fun j hj => hkept _ ?_⟩
      have href : s.ref (i, .direct j) ≠ 0 := fun h0 => hj (UInt16.toNat_inj.mp h0)
      refine getBit_deletedBitmap_of_ne (howned.used_of_ne (i, .direct j) href).2.2 ?_
      intro sl hsl he
      exact hne (Prod.mk.inj (howned.inj _ (i, .direct j) hsl he)).1.symm

/-- **A call** leaves the tables on the disk alone, and the files that it does not touch. -/
theorem Stores.leaves (h : Stores s t) {c : Call} (hin : Within t c) :
    SameTables s (step s c).2 ∧ ∀ i, ¬ t.Touches i c → SameFile i s (step s c).2 := by
  by_cases hc : ∃ fildes buf nbyte, c = .write fildes buf nbyte
  · obtain ⟨fildes, buf, nbyte, rfl⟩ := hc
    exact h.write_leaves hin
  · have hc' : ∀ fildes buf nbyte, c ≠ .write fildes buf nbyte :=
      fun fildes buf nbyte he => hc ⟨fildes, buf, nbyte, he⟩
    have hdisk := step_disk (s := s) hc'
    exact ⟨sameTables_of_disk hdisk, fun i hi => sameFile_of_disk hdisk (h.step_slots hin hc' hi)⟩

theorem Stores.run_leaves (cs : List Call) : ∀ (s : State) (t : Store), Stores s t →
    RunOk Store.step Within t cs → SameTables s (Lib.run answer s cs) ∧
      ∀ i, RunOk Store.step (fun t c => ¬ t.Touches i c) t cs → SameFile i s (Lib.run answer s cs) := by
  induction cs with
  | nil =>
    intro s t _ _
    exact ⟨fun _ _ => rfl, fun i _ => ⟨rfl, fun _ _ => rfl⟩⟩
  | cons c cs ih =>
    intro s t h hcs
    obtain ⟨htables, hfiles⟩ := h.leaves hcs.1
    obtain ⟨htables', hfiles'⟩ := ih _ _ (h.agrees hcs.1).2 hcs.2
    exact ⟨htables.trans htables', fun i hi => (hfiles i hi.1).trans (hfiles' i hi.2)⟩

/-! ### The disk that is left -/

/-- The first five blocks are all there is of an image. -/
theorem Image.congr {disk disk' : Disk} {tables : Tables} (h : Image disk tables)
    (hsame : ∀ b, b < 5 → disk'.get b = disk.get b) : Image disk' tables := by
  constructor
  · rw [hsame 0 (by decide)]
    exact h.superblock
  · rw [hsame 1 (by decide)]
    exact h.dirs
  · rw [hsame 2 (by decide)]
    exact h.inodesBitmap
  · rw [hsame 3 (by decide)]
    exact h.blocksBitmap
  · rw [hsame 4 (by decide)]
    exact h.inodes

/-- The bytes that are in the blocks of an inode, as many as the file has. -/
def bytesOn (disk : Disk) (ino : Inode) (len : Nat) : List UInt8 :=
  (List.range len).map (byteAt disk ino fun _ => 0)

@[simp] theorem length_bytesOn (disk : Disk) (ino : Inode) (len : Nat) :
    (bytesOn disk ino len).length = len := by
  rw [bytesOn, List.length_map, List.length_range]

/-- **A file on another disk** is a file of the same size. -/
theorem KeepsBytes.bytesOn {disk : Disk} {ino : Inode} {bytes : List UInt8}
    (h : KeepsBytes disk ino bytes) (disk' : Disk) :
    KeepsBytes disk' ino (bytesOn disk' ino bytes.length) := by
  refine ⟨by rw [length_bytesOn]; exact h.size, by rw [length_bytesOn]; exact h.short, h.single, ?_, ?_⟩
  · rw [length_bytesOn]
    exact h.direct
  · intro q hq
    rw [List.getD_eq_getElem _ _ hq]
    simp only [FileSystems.bytesOn, List.getElem_map, List.getElem_range]

theorem KeepsBytes.unique {disk : Disk} {ino : Inode} {bytes bytes' : List UInt8}
    (h : KeepsBytes disk ino bytes) (h' : KeepsBytes disk ino bytes') : bytes = bytes' := by
  have hlen : bytes.length = bytes'.length := h.size.symm.trans h'.size
  apply List.ext_getElem hlen
  intro q hq hq'
  have hbyte := (h.bytes q hq).symm.trans (h'.bytes q hq')
  rwa [List.getD_eq_getElem _ _ hq, List.getD_eq_getElem _ _ hq'] at hbyte

/-- The files of `t`, with the bytes that their blocks have on `disk`. -/
def Store.reread (t : Store) (disk : Disk) (inodes : Arr 64 Inode) : Store :=
  ⟨fun i => (t.files i).map fun f => { f with bytes := bytesOn disk (inodes.get i) f.bytes.length },
    fun _ => none⟩

/-- **A session that is killed** leaves a disk that stands for what it recovers. -/
theorem OnDisk.killed {disk : Disk} (h : OnDisk disk t) {cs : List Call}
    (hcs : RunOk Store.step Within t.closed cs) :
    (life disk (cs, .killed)).1 = (0, replies Store.step t.closed cs, none) ∧
      ∃ t', t.Recovers cs t' ∧ OnDisk (life disk (cs, .killed)).2 t' := by
  obtain ⟨tables, himage, hstores⟩ := h
  have hmount : mountFs (Process.start fun _ => disk) "disk"
      = (0, ⟨mounted disk tables, fun _ => disk, some "disk"⟩) := mountFs_spec rfl himage
  simp only [life, hmount, (hstores.run cs hcs).1, true_and]
  obtain ⟨htables, hfiles⟩ := Stores.run_leaves cs _ _ hstores hcs
  refine ⟨t.reread (run answer (mounted disk tables) cs).dev.disk tables.inodeTable, ⟨?_, ?_⟩,
    tables, himage.congr htables, ?_⟩
  · intro i _
    simp only [Store.reread, Option.map_map]
    congr 1
    funext f
    simp
  · intro i hi hkept
    have hsame := hfiles i hkept
    cases hf : t.files i with
    | none => simp only [Store.reread, hf, Option.map_none]
    | some f =>
      have hkeeps := (hstores.file_some hi hf).2.2
      have hnow := hkeeps.congr fun j _ hj => hsame.blocks j hj
      have hbytes := (hkeeps.bytesOn _).unique hnow
      simp only [Store.reread, hf, Option.map_some]
      exact congrArg (fun bytes => some { f with bytes := bytes }) hbytes
  · refine hstores.mountedWith fun i hi => ?_
    simp only [Store.reread]
    cases hf : t.files i with
    | none => exact hstores.file_none hi hf
    | some f =>
      obtain ⟨hu, hn, hkeeps⟩ := hstores.file_some hi hf
      exact ⟨hu, hn, hkeeps.bytesOn _⟩

/-! ### Any number of sessions -/

/-- **Sessions survive kills**: over any sessions on a disk that `make_fs` made, each in a process of its
own and within the limits, and each of them ended by `umount_fs` or cut short between two calls, mounting
and unmounting succeed, and every call is answered as the store answers it, on the files that the last
session left. -/
theorem sessions_survive_kills (blank : Disk) (xs : List (List Call × Ending))
    (hxs : Store.empty.LivesWithin xs) : Store.empty.Lives xs (replies life (madeDisk blank) xs) := by
  have hdisk := onDisk_made blank
  generalize madeDisk blank = disk at hdisk ⊢
  generalize Store.empty = t at hxs hdisk ⊢
  induction xs generalizing disk t with
  | nil => exact .nil
  | cons x xs ih =>
    obtain ⟨cs, e⟩ := x
    cases e with
    | unmounted =>
      obtain ⟨hseen, hleft⟩ := hdisk.session hxs.1
      have hlife : (life disk (cs, .unmounted)).1 = (0, replies Store.step t.closed cs, some 0) := by
        simp only [life, ← hseen, Store.session]
      rw [replies, hlife]
      exact .unmounted (ih _ _ hxs.2 hleft)
    | killed =>
      obtain ⟨hseen, t', hr, hleft⟩ := hdisk.killed hxs.1
      rw [replies, hseen]
      exact .killed hr (ih _ _ (hxs.2 t' hr) hleft)

/-- A file is written, and written again in a session that makes another one and is killed. -/
def killedSession : List (List Call × Ending) :=
  [([.create nameA, .open nameA, .write 0 (fun k => [7, 8, 9].getD k 0) 3], .unmounted),
    ([.create nameB, .open nameA, .write 0 (fun _ => 1) 5], .killed),
    ([.open nameB, .open nameA, .getFilesize 0], .unmounted)]

theorem sessions_survive_kills_second :
    Store.empty.Lives killedSession (replies life (madeDisk zeroDisk) killedSession) := by
  apply sessions_survive_kills
  refine ⟨by decide, by decide, ?_⟩
  intro t' _
  have hnames : nameB.val ≠ [] ∧ nameA.val ≠ [] := by decide
  exact ⟨⟨hnames.1, hnames.2, trivial, trivial⟩, trivial⟩

end EC440.FileSystems
