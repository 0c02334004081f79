import EC440.FileSystems.Simulation

/-!
# The file system refines the store

A program that keeps within the limits of the code cannot tell the file system from the store: every
call is answered the same (`fileSystem_refines_store`).  The data blocks that are marked are those that
the files name, each in one slot, so nothing is lost over the life of the files
(`free_blocks_accounted`).  And this goes on over any number of sessions, each in a process of its own:
what `umount_fs` writes and `mount_fs` reads stands for the same files, with no descriptor open
(`sessions_refine_store`).
-/

namespace EC440.FileSystems

open EC440.Lib

variable {s : State} {t : Store}

/-! ### One session -/

theorem stores_fresh (blank : Disk) : Stores (fresh blank) Store.empty := by
  have hblocks := blockInv_fresh blank
  have hdesc := descInv_fresh blank
  have hfree := freeCount_fresh blank
  obtain ⟨disk, he⟩ := fresh_eq blank
  rw [he] at hblocks hdesc hfree ⊢
  have hsize : ∀ i, ((mounted disk (emptyTables (Arr.fill 0))).inodeTable.get i).fileSize = 0 := by
    intro i
    obtain ⟨n, hn⟩ := get_freshInode disk (Arr.fill 0) i
    rw [hn]
    rfl
  refine ⟨hblocks, hdesc, ?_, ?_, ?_⟩
  · intro i hi
    refine ⟨?_, hsize i⟩
    rw [show (mounted disk (emptyTables (Arr.fill 0))).dirTable.get i = DirEntry.empty from
      Arr.get_fill _ hi]
    rfl
  · intro k _
    rw [get_freshFd]
    rfl
  · rw [hfree]
    simp only [hsize]
    decide

/-- The store against the code, over a run. -/
theorem Stores.run (h : Stores s t) (cs : List Call) (hcs : RunOk Store.step Within t cs) :
    replies Store.step t cs = replies answer s cs ∧
      Stores (Lib.run answer s cs) (Lib.run Store.step t cs) := by
  have hstep : ∀ (t : Store) (s : State) (c : Call), Stores s t → Within t c →
      (Store.step t c).1 = (answer s c).1 ∧ Stores (answer s c).2 (Store.step t c).2 :=
    fun _ _ _ hR hc => hR.agrees hc
  exact replies_eq_of_simulation hstep cs t s h hcs

/-- **The file system refines the store**: in every run from a fresh disk that keeps within the limits,
whatever files and descriptors it uses and however it mixes their calls, every call returns, stores in
its buffer and lists what the store does. -/
theorem fileSystem_refines_store (blank : Disk) (cs : List Call)
    (hcs : RunOk Store.step Within Store.empty cs) :
    replies answer (fresh blank) cs = replies Store.step Store.empty cs :=
  ((stores_fresh blank).run cs hcs).1.symm

instance (cursor size : Nat) : Decidable (EndsWithBlock cursor size) :=
  inferInstanceAs (Decidable (_ → _))

instance (name : CString) : Decidable (ValidName name) := inferInstanceAs (Decidable (_ ∧ _))

instance (t : Store) : (c : Call) → Decidable (Within t c)
  | .open name => inferInstanceAs (Decidable (name.val ≠ []))
  | .create name => inferInstanceAs (Decidable (ValidName name))
  | .delete _ => inferInstanceAs (Decidable (_ ∧ _))
  | .read fildes _ nbyte => inferInstanceAs (Decidable (∀ x ∈ t.target fildes,
      x.2.2 + nbyte ≤ x.2.1.bytes.length ∨ EndsWithBlock x.2.2 x.2.1.bytes.length))
  | .write fildes _ nbyte => inferInstanceAs (Decidable (∀ x ∈ t.target fildes,
      x.2.2 + nbyte ≤ 102400 ∧
      ∀ q, q < x.2.1.bytes.length → Padded x.2.2 nbyte q → x.2.1.bytes.getD q 0 = 0))
  | .lseek _ _ => inferInstanceAs (Decidable (_ → _ → _))
  | .truncate fildes length => inferInstanceAs (Decidable (∀ x ∈ t.target fildes,
      0 ≤ length → length < x.2.1.bytes.length → blocksOf length.toNat = blocksOf x.2.1.bytes.length ∧
      ∀ k, k < 32 → k ≠ fildes.toNat → ∀ c ∈ t.cursors k, c.1 = x.1 → c.2 ≤ length.toNat))
  | .listfiles => inferInstanceAs (Decidable (t.freePlace.isSome = true))
  | .close _ => inferInstanceAs (Decidable True)
  | .getFilesize _ => inferInstanceAs (Decidable True)

/-- A file with two descriptors is written through one, read through the other, cut short and deleted. -/
def shared : List Call :=
  [.create nameA, .open nameA, .open nameA, .write 0 (fun k => [7, 8, 9].getD k 0) 3, .lseek 1 1,
    .read 1 (fun _ => 0) 5, .lseek 1 0, .truncate 0 2, .getFilesize 1, .listfiles, .close 0, .close 1,
    .delete nameA, .open nameA]

theorem fileSystem_refines_store_shared :
    replies answer (fresh zeroDisk) shared =
      [.code 0, .code 0, .code 1, .code 3, .code 0, ⟨2, [8, 9], []⟩, .code 0, .code 0, .code 2,
        ⟨0, [], [nameA.val]⟩, .code 0, .code 0, .code 0, .code (-1)] := by
  rw [fileSystem_refines_store zeroDisk shared (by decide)]
  decide

/-! ### Free blocks -/

/-- The blocks that the file at place `i` needs. -/
def Store.blocksAt (t : Store) (i : Nat) : Nat := (t.files i).elim 0 fun f => blocksOf f.bytes.length

theorem Stores.blocksAt_eq (h : Stores s t) {i : Nat} (hi : i < 64) :
    t.blocksAt i = blocksOf (s.inodeTable.get i).fileSize.toNat := by
  rw [Store.blocksAt]
  cases hf : t.files i with
  | none =>
    rw [(h.file_none hi hf).2]
    decide
  | some f =>
    rw [(h.file_some hi hf).2.2.size]
    rfl

theorem Stores.ref_ne (h : Stores s t) {i j : Nat} (hi : i < 64)
    (hj : j < blocksOf (s.inodeTable.get i).fileSize.toNat) : s.ref (i, .direct j) ≠ 0 := by
  cases hf : t.files i with
  | none =>
    rw [(h.file_none hi hf).2, show blocksOf (UInt32.toNat 0) = 0 from rfl] at hj
    exact absurd hj (Nat.not_lt_zero j)
  | some f =>
    obtain ⟨-, -, hkeeps⟩ := h.file_some hi hf
    rw [hkeeps.size] at hj
    have hne := (hkeeps.direct j (lt_of_lt_of_le hj (blocksOf_le_25 hkeeps.short))).mpr hj
    exact fun h0 => hne (UInt16.toNat_inj.mp h0)

/-- A block that is marked is named: the slots that the sizes need name as many blocks as are not
free. -/
theorem Stores.named (h : Stores s t) {b : Nat} (hb : InUse s.dev.blocksBitmap b) :
    ∃ x, s.ref x = b := by
  obtain ⟨hge, hlt, hset⟩ := hb
  obtain ⟨cells, hsize, hnamed⟩ := h.blocks.oi.owned.exists_card (Finset.range 64)
    (fun i => blocksOf (s.inodeTable.get i).fileSize.toNat) (fun i j => (i, .direct j))
    (fun i j i' j' heq => by cases heq; exact ⟨rfl, rfl⟩)
    (fun i hi j hj => h.ref_ne (Finset.mem_range.mp hi) hj)
  have howned : ∀ c ∈ cells, InUse s.dev.blocksBitmap c := by
    intro c hc
    obtain ⟨hne, x, rfl⟩ := hnamed c hc
    exact h.blocks.oi.owned.used_of_ne x hne
  have hdisjoint : Disjoint (Finset.range 5) cells := by
    refine Finset.disjoint_left.mpr fun c hc hcell => ?_
    have hlow := Finset.mem_range.mp hc
    have hhigh := (howned c hcell).1
    omega
  have hcells : ∀ c ∈ Finset.range 5 ∪ cells, c < 8192 ∧ getBit c s.dev.blocksBitmap = true := by
    intro c hc
    rcases Finset.mem_union.mp hc with hlow | hcell
    · have hlow := Finset.mem_range.mp hlow
      exact ⟨by omega, h.blocks.oi.reserved c hlow⟩
    · exact (howned c hcell).2
  have hcard : 8192 ≤ freeCount s.dev.blocksBitmap + (Finset.range 5 ∪ cells).card := by
    have hcount := h.count
    rw [Finset.card_union_of_disjoint hdisjoint, Finset.card_range, hsize]
    omega
  rcases Finset.mem_union.mp (mem_of_card_freeCells hcells hcard hlt hset) with hlow | hcell
  · have hlow := Finset.mem_range.mp hlow
    omega
  · exact (hnamed b hcell).2

/-- **No block is lost and none is used twice**: in every state of such a run, a block that is named is
named by one slot of one inode, the data blocks that are marked are those that are named, and there are
as many of them as the files need. -/
theorem free_blocks_accounted (blank : Disk) (cs : List Call)
    (hcs : RunOk Store.step Within Store.empty cs) :
    (∀ x y, (run step (fresh blank) cs).ref x ≠ 0 →
      (run step (fresh blank) cs).ref x = (run step (fresh blank) cs).ref y → x = y) ∧
    (∀ b, b ≠ 0 → ((∃ x, (run step (fresh blank) cs).ref x = b) ↔
      5 ≤ b ∧ b < 8192 ∧ getBit b (run step (fresh blank) cs).dev.blocksBitmap = true)) ∧
    freeCount (run step (fresh blank) cs).dev.blocksBitmap +
      ∑ i ∈ Finset.range 64, (run Store.step Store.empty cs).blocksAt i = 8187 := by
  have h := ((stores_fresh blank).run cs hcs).2
  rw [run_answer] at h
  refine ⟨h.blocks.oi.owned.inj, ?_, ?_⟩
  · intro b hb
    constructor
    · rintro ⟨x, rfl⟩
      exact h.blocks.oi.owned.used_of_ne x hb
    · rintro ⟨hge, hlt, hset⟩
      exact h.named ⟨hge, hlt, hset⟩
  · have hcount := h.count
    rwa [← Finset.sum_congr rfl fun i hi => h.blocksAt_eq (Finset.mem_range.mp hi)] at hcount

/-- Two files of two blocks and one, and a third one that is deleted again. -/
def threeBlocks : List Call :=
  [.create nameA, .create nameB, .open nameB, .write 0 (fun _ => 8) 5, .close 0, .create nameC,
    .open nameA, .write 0 (fun _ => 7) 5000, .close 0, .delete nameC]

theorem free_blocks_accounted_threeBlocks :
    freeCount (run step (fresh zeroDisk) threeBlocks).dev.blocksBitmap = 8184 ∧
      (∀ x, (run step (fresh zeroDisk) threeBlocks).ref x = 6 ↔ x = (0, .direct 0)) ∧
      ¬ ∃ x, (run step (fresh zeroDisk) threeBlocks).ref x = 8 := by
  obtain ⟨hinj, hnamed, hcount⟩ := free_blocks_accounted zeroDisk threeBlocks (by decide +kernel)
  have hsum : ∑ i ∈ Finset.range 64, (run Store.step Store.empty threeBlocks).blocksAt i = 3 := by
    decide +kernel
  have hslot : (run step (fresh zeroDisk) threeBlocks).ref (0, .direct 0) = 6 ∧
      getBit 8 (run step (fresh zeroDisk) threeBlocks).dev.blocksBitmap = false := by
    decide +kernel
  obtain ⟨href, hclear⟩ := hslot
  refine ⟨by omega, ?_, ?_⟩
  · intro x
    refine ⟨fun hx => hinj x _ (by rw [hx]; decide) (by rw [hx, href]), ?_⟩
    rintro rfl
    exact href
  · rw [hnamed 8 (by decide), hclear]
    exact fun h => absurd h.2.2 (by decide)

/-! ### Sessions, each in a process of its own -/

/-- The store at the beginning of a session. -/
def Store.closed (t : Store) : Store := { t with cursors := fun _ => none }

structure SessionReply where
  mounted : Int
  answers : List Reply
  unmounted : Int
  deriving DecidableEq

/-- A new process mounts the disk, makes the calls and unmounts it. -/
def session (disk : Disk) (cs : List Call) : SessionReply × Disk :=
  let m := mountFs (Process.start fun _ => disk) "disk"
  let u := umountFs { m.2 with fs := run answer m.2.fs cs } "disk"
  (⟨m.1, replies answer m.2.fs cs, u.1⟩, u.2.disks "disk")

/-- What a session is for. -/
def Store.session (t : Store) (cs : List Call) : SessionReply × Store :=
  (⟨0, replies Store.step t.closed cs, 0⟩, run Store.step t.closed cs)

/-- The disk that `make_fs` leaves, in a process of its own. -/
def madeDisk (blank : Disk) : Disk := (makeFs blank (Process.start fun _ => blank) "disk").2.disks "disk"

/-- The disk stands for the store: mounting it does. -/
def OnDisk (disk : Disk) (t : Store) : Prop :=
  ∃ tables, Image disk tables ∧ Stores (mounted disk tables) t.closed

theorem Stores.single_eq_zero (h : Stores s t) (i : Nat) :
    (s.inodeTable.get i).singleIndirectBlock = 0 := by
  by_cases hi : i < 64
  · cases hf : t.files i with
    | none =>
      have hbit : getBit i s.inodesBitmap = false := by
        refine Bool.eq_false_iff.mpr fun hb => ?_
        exact (h.desc.dir.bit i hi).mpr hb (h.file_none hi hf).1
      exact (h.blocks.oi.unused i hi hbit).2
    | some f => exact (h.file_some hi hf).2.2.single
  · rw [Arr.get_of_ge _ (by omega)]
    rfl

/-- The tables are mounted again, with files that are on the disk. -/
theorem Stores.mountedWith (h : Stores s t) {disk : Disk} {t' : Store}
    (hfiles : ∀ i, i < 64 → HoldsAt (mounted disk s.tables) i (t'.files i)) :
    Stores (mounted disk s.tables) t'.closed := by
  have hdir : DirInv (mounted disk s.tables) := h.desc.dir.same ⟨rfl, rfl, fun _ => rfl⟩
  have htable : ∀ disk' i, tableOf disk' (s.inodeTable.get i) = fun _ => 0 :=
    fun _ i => tableOf_eq_zero (h.single_eq_zero i)
  have href : (mounted disk s.tables).ref = s.ref := by
    funext x
    show (s.inodeTable.get x.1).names (tableOf disk (s.inodeTable.get x.1)) x.2 =
      (s.inodeTable.get x.1).names (tableOf s.dev.disk (s.inodeTable.get x.1)) x.2
    rw [htable, htable]
  have hoi : OI (mounted disk s.tables) :=
    ⟨h.blocks.oi.reserved, by rw [href]; exact h.blocks.oi.owned, h.blocks.oi.unused⟩
  have hfd := get_freshFd disk s.tables
  refine ⟨⟨hdir, hoi, ?_, ?_, ?_, h.blocks.size, ?_⟩, ⟨hdir, ?_, ?_, h.desc.size, h.desc.mapped⟩, hfiles, ?_,
    h.count⟩
  · intro k
    rw [hfd]
    decide
  · intro k
    rw [hfd]
    decide
  · intro k hk
    rw [hfd] at hk
    cases hk
  · intro i k _
    exact congrFun (htable disk i) k
  · intro k
    rw [hfd]
    decide
  · intro k hk
    rw [hfd] at hk
    cases hk
  · intro k _
    rw [hfd]
    rfl

/-- **What was unmounted is mounted again.**  Only the blocks of the tables may have changed, and no
file has one of them. -/
theorem Stores.remounted (h : Stores s t) {disk : Disk}
    (hdata : ∀ b, 5 ≤ b → disk.get b = s.dev.disk.get b) :
    Stores (mounted disk s.tables) t.closed := by
  refine h.mountedWith fun i hi => ?_
  have hholds := h.files i hi
  cases hf : t.files i with
  | none =>
    rw [hf] at hholds
    exact hholds
  | some f =>
    rw [hf] at hholds
    refine ⟨hholds.1, hholds.2.1, hholds.2.2.congr fun j _ hne => ?_⟩
    have hused := h.blocks.oi.owned.used_of_ne (i, .direct j) fun h0 => hne (UInt16.toNat_inj.mp h0)
    exact hdata _ hused.1

theorem onDisk_made (blank : Disk) : OnDisk (madeDisk blank) Store.empty := by
  obtain ⟨-, himage, hflag, -⟩ := makeFs_spec blank (Process.start (fun _ => blank)) "disk"
  have hfresh := stores_fresh blank
  rw [fresh, mountFs_spec hflag himage] at hfresh
  exact ⟨_, himage, hfresh⟩

/-- One session. -/
theorem OnDisk.session {disk : Disk} (h : OnDisk disk t) {cs : List Call}
    (hcs : RunOk Store.step Within t.closed cs) :
    (t.session cs).1 = (FileSystems.session disk cs).1 ∧
      OnDisk (FileSystems.session disk cs).2 (t.session cs).2 := by
  obtain ⟨tables, himage, hstores⟩ := h
  obtain ⟨hreplies, hrun⟩ := hstores.run cs hcs
  have hmount : mountFs (Process.start fun _ => disk) "disk"
      = (0, ⟨mounted disk tables, fun _ => disk, some "disk"⟩) := mountFs_spec rfl himage
  obtain ⟨hsb, -⟩ := run_frame (mounted disk tables) cs
  rw [← run_answer] at hsb
  obtain ⟨hret, himage', hdata, -⟩ := umountFs_spec
    (p := ⟨Lib.run answer (mounted disk tables) cs, fun _ => disk, some "disk"⟩) "disk" hsb rfl
  simp only [FileSystems.session, hmount, Store.session, hreplies, hret]
  exact ⟨trivial, _, himage', hrun.remounted hdata⟩

/-- **Sessions refine the store**: in every sequence of sessions on a disk that `make_fs` made, each in
a process of its own and within the limits, mounting and unmounting succeed, and every call of every
session is answered as the store answers it; the files are those that the last session left. -/
theorem sessions_refine_store (blank : Disk) (css : List (List Call))
    (hcss : RunOk Store.session (fun t cs => RunOk Store.step Within t.closed cs) Store.empty css) :
    replies session (madeDisk blank) css = replies Store.session Store.empty css := by
  have hstep : ∀ (t : Store) (disk : Disk) (cs : List Call), OnDisk disk t →
      RunOk Store.step Within t.closed cs → (Store.session t cs).1 = (session disk cs).1 ∧
        OnDisk (session disk cs).2 (Store.session t cs).2 := fun _ _ _ h hcs => h.session hcs
  exact (replies_eq_of_simulation hstep css Store.empty (madeDisk blank) (onDisk_made blank) hcss).1.symm

/-- A file is written in one session, read in the next one and deleted in the third. -/
def threeSessions : List (List Call) :=
  [[.create nameA, .open nameA, .write 0 (fun k => [7, 8, 9].getD k 0) 3],
    [.read 0 (fun _ => 0) 3, .open nameA, .read 0 (fun _ => 0) 3], [.delete nameA, .listfiles]]

theorem sessions_refine_store_three :
    replies session (madeDisk zeroDisk) threeSessions =
      [⟨0, [.code 0, .code 0, .code 3], 0⟩,
        ⟨0, [.code (-1), .code 0, ⟨3, [7, 8, 9], []⟩], 0⟩, ⟨0, [.code 0, ⟨0, [], []⟩], 0⟩] := by
  rw [sessions_refine_store zeroDisk threeSessions (by decide)]
  decide

end EC440.FileSystems
