import EC440.FileSystems.Blocks

/-!
# Looking up a name that no file has

`fs_open` and `fs_delete` compare the name with all 64 entries of the directory, used or not.  So
what an unused entry holds decides what a lookup finds.  While names of at most 15 bytes are entered,
an unused entry holds the empty name (`run_unusedNameless`) and the number of inode `0`: the empty
name is then found as long as the directory is not full, and `fs_delete` of it takes away the blocks
of inode `0`.
-/

namespace EC440.FileSystems

open EC440.Lib

variable {s s' : State} {name : CString}

/-- No used entry has this name. -/
def NotAFile (s : State) (name : CString) : Prop :=
  ∀ i, i < 64 → (s.dirTable.get i).isUsed ≠ 0 → nameAt s.dirTable i ≠ name.val

/-- A call that returned `-1` and left the tables and the bitmaps alone. -/
structure Failed (s : State) (r : Int × State) : Prop where
  ret : r.1 = -1
  dirTable : r.2.dirTable = s.dirTable
  inodeTable : r.2.inodeTable = s.inodeTable
  inodesBitmap : r.2.inodesBitmap = s.inodesBitmap
  blocksBitmap : r.2.dev.blocksBitmap = s.dev.blocksBitmap
  fdTable : r.2.fdTable = s.fdTable

theorem failed_self (s : State) : Failed s (-1, s) := ⟨rfl, rfl, rfl, rfl, rfl, rfl⟩

/-! ### What unused entries hold -/

/-- The calls that enter names of at most 15 bytes. -/
def NamesFit : Call → Prop
  | .create name => name.val.length ≤ 15
  | _ => True

/-- An unused entry holds the empty name, and no name runs out of its entry. -/
structure UnusedNameless (s : State) : Prop where
  terminated : ∀ i, i < 64 → (s.dirTable.get i).Terminated
  nameless : ∀ i, i < 64 → (s.dirTable.get i).isUsed = 0 → nameAt s.dirTable i = []

/-- One entry changes, to one that is terminated and has a name only if it is used. -/
theorem UnusedNameless.set (h : UnusedNameless s) {i : Nat} {e : DirEntry} (hi : i < 64)
    (hdir : s'.dirTable = s.dirTable.set i e) (hterm : e.Terminated)
    (hname : e.isUsed = 0 → e.str = []) : UnusedNameless s' := by
  have hself : s'.dirTable.get i = e := by rw [hdir, Arr.get_set_self _ hi]
  have hother : ∀ j, j ≠ i → s'.dirTable.get j = s.dirTable.get j := by
    intro j hj
    rw [hdir, Arr.get_set_ne _ hj]
  refine ⟨?_, ?_⟩
  · intro j hj
    by_cases hji : j = i
    · rw [hji, hself]
      exact hterm
    · rw [hother j hji]
      exact h.terminated j hj
  · intro j hj hu
    by_cases hji : j = i
    · subst hji
      rw [nameAt_eq_str hj (by rw [hself]; exact hterm), hself]
      rw [hself] at hu
      exact hname hu
    · rw [nameAt_of_get hj (hother j hji) (h.terminated j hj)]
      rw [hother j hji] at hu
      exact h.nameless j hj hu

theorem UnusedNameless.step (h : UnusedNameless s) {c : Call} (hc : NamesFit c) :
    UnusedNameless (step s c).2 := by
  by_cases hcreate : ∃ name, c = .create name
  · obtain ⟨name, rfl⟩ := hcreate
    have hlen : name.val.length ≤ 15 := hc
    rcases fsCreate_cases s hlen with ⟨he, -⟩ | ⟨-, -, -, he⟩ | ⟨i, -, -, hi, he⟩
    · rw [EC440.FileSystems.step, he]
      exact h
    · rw [EC440.FileSystems.step, he]
      exact h
    · rw [EC440.FileSystems.step, he]
      refine h.set (findInode_eq_some hi).1 rfl (padName_terminated hlen rfl) ?_
      intro hu
      exact absurd hu (by show (1 : UInt8) ≠ 0; decide)
  · by_cases hdelete : ∃ name, c = .delete name
    · obtain ⟨name, rfl⟩ := hdelete
      rcases fsDelete_cases s name with ⟨-, he⟩ | ⟨d, hd, -, -, he⟩
      · rw [EC440.FileSystems.step, he]
        exact h
      · rw [EC440.FileSystems.step, he]
        exact h.set (findName_eq_some.mp hd).1 rfl empty_terminated fun _ => rfl
    · obtain ⟨hdir, -, -⟩ := step_sameDir s c (fun name he => hcreate ⟨name, he⟩)
        (fun name he => hdelete ⟨name, he⟩)
      exact ⟨by rw [hdir]; exact h.terminated, by rw [hdir]; exact h.nameless⟩

theorem run_unusedNameless (blank : Disk) {cs : List Call}
    (hcs : RunOk step (fun _ c => NamesFit c) (fresh blank) cs) :
    UnusedNameless (run step (fresh blank) cs) := by
  have hfresh := dirInv_fresh blank
  exact run_invariant (I := UnusedNameless) (fun _ _ h hc => h.step hc) cs _
    ⟨hfresh.terminated, fun i hi hu => (hfresh.unused i hi hu).2⟩ hcs

/-! ### The lookups -/

theorem lookup_none (hnone : findName s.dirTable name = none) :
    fsOpen s name = (-1, s) ∧ fsDelete s name = (-1, s) := by
  constructor
  · rw [fsOpen, hnone]
  · rw [fsDelete, hnone]

theorem lookup_allOpen (hopen : ∀ k, k < 32 → (s.fdTable.get k).isUsed = true) :
    fsOpen s name = (-1, s) ∧ fsDelete s name = (-1, s) := by
  constructor
  · rcases fsOpen_cases s name with he | ⟨i, fd, -, hfd, -⟩
    · exact he
    · rw [findFd_eq_none.mpr hopen] at hfd
      cases hfd
  · rcases fsDelete_cases s name with ⟨-, he⟩ | ⟨d, -, ho, -, -⟩
    · exact he
    · have h0 := hopen 0 (by decide)
      rw [anyOpen_eq_false.mp ho 0] at h0
      cases h0

theorem fsOpen_found {i k : Nat} (hfind : findName s.dirTable name = some i) (hk : k < 32)
    (hfree : (s.fdTable.get k).isUsed = false) : (fsOpen s name).1 ≠ -1 := by
  cases hfd : findFd s.fdTable with
  | none =>
    have := findFd_eq_none.mp hfd k hk
    rw [hfree] at this
    cases this
  | some fd =>
    rw [fsOpen, hfind]
    simp only [hfd]
    omega

/-- **When a lookup fails cleanly.**  `fs_open` and `fs_delete` of a name that no used entry has both
return `-1` and change nothing exactly when no unused entry has it either, or all descriptors are in
use.  After a run that entered names of at most 15 bytes, an unused entry has the name exactly when the
name is empty and the directory is not full. -/
theorem lookup_fails_cleanly_iff (s : State) (name : CString) (hname : NotAFile s name) :
    (Failed s (fsOpen s name) ∧ Failed s (fsDelete s name) ↔
      (∀ i, i < 64 → (s.dirTable.get i).isUsed = 0 → nameAt s.dirTable i ≠ name.val) ∨
        ∀ k, k < 32 → (s.fdTable.get k).isUsed = true) ∧
    ∀ (blank : Disk) (cs : List Call), RunOk step (fun _ c => NamesFit c) (fresh blank) cs →
      s = run step (fresh blank) cs →
      ((∀ i, i < 64 → (s.dirTable.get i).isUsed = 0 → nameAt s.dirTable i ≠ name.val) ↔
        name.val ≠ [] ∨ ∀ i, i < 64 → (s.dirTable.get i).isUsed ≠ 0) := by
  refine ⟨⟨?_, ?_⟩, ?_⟩
  · rintro ⟨hopen, -⟩
    by_contra hno
    obtain ⟨hentry, hfd⟩ := not_or.mp hno
    -- an entry has the name, and a descriptor is free
    cases hfind : findName s.dirTable name with
    | none => exact hentry fun i hi _ => findName_eq_none.mp hfind i hi
    | some i =>
      simp only [not_forall, Bool.not_eq_true] at hfd
      obtain ⟨k, hk, hfree⟩ := hfd
      exact fsOpen_found hfind hk hfree hopen.ret
  · rintro (hentry | hopen)
    · have hnone : findName s.dirTable name = none := by
        refine findName_eq_none.mpr ?_
        intro i hi
        by_cases hu : (s.dirTable.get i).isUsed = 0
        · exact hentry i hi hu
        · exact hname i hi hu
      obtain ⟨ho, hd⟩ := lookup_none hnone
      rw [ho, hd]
      exact ⟨failed_self s, failed_self s⟩
    · obtain ⟨ho, hd⟩ := lookup_allOpen hopen
      rw [ho, hd]
      exact ⟨failed_self s, failed_self s⟩
  · intro blank cs hcs hs
    have hnameless : UnusedNameless s := by
      rw [hs]
      exact run_unusedNameless blank hcs
    constructor
    · intro hentry
      by_contra hno
      obtain ⟨hempty, hfull⟩ := not_or.mp hno
      simp only [not_forall, not_not] at hempty hfull
      obtain ⟨i, hi, hu⟩ := hfull
      exact hentry i hi hu (by rw [hnameless.nameless i hi hu, hempty])
    · rintro (hne | hfull)
      · intro i hi hu he
        exact hne (by rw [← he, hnameless.nameless i hi hu])
      · intro i hi hu
        exact absurd hu (hfull i hi)

/-- A file with data that stays, and one that is deleted again. -/
def otherDeleted : List Call :=
  [.create nameA, .open nameA, .write 0 (fun _ => 7) 5000, .close 0, .create nameB, .create nameC,
    .delete nameB]

/-- The name of the deleted file is looked up: the file with data, which holds two blocks, stays as it
is. -/
theorem lookup_fails_cleanly_otherDeleted :
    Failed (run step (fresh zeroDisk) otherDeleted)
        (fsOpen (run step (fresh zeroDisk) otherDeleted) nameB) ∧
      Failed (run step (fresh zeroDisk) otherDeleted)
        (fsDelete (run step (fresh zeroDisk) otherDeleted) nameB) ∧
      (run step (fresh zeroDisk) otherDeleted).ref (0, .direct 0) = 5 ∧
      (run step (fresh zeroDisk) otherDeleted).ref (0, .direct 1) = 6 := by
  have hfit : nameA.val.length ≤ 15 ∧ nameB.val.length ≤ 15 ∧ nameC.val.length ≤ 15 := by decide
  obtain ⟨hA, hB, hC⟩ := hfit
  have hnofile : NotAFile (run step (fresh zeroDisk) otherDeleted) nameB := by
    show ∀ i, i < 64 → ((run step (fresh zeroDisk) otherDeleted).dirTable.get i).isUsed ≠ 0 →
      nameAt (run step (fresh zeroDisk) otherDeleted).dirTable i ≠ nameB.val
    decide +kernel
  obtain ⟨hclean, hmeaning⟩ := lookup_fails_cleanly_iff (run step (fresh zeroDisk) otherDeleted) nameB
    hnofile
  have hname := hmeaning zeroDisk otherDeleted ⟨hA, trivial, trivial, trivial, hB, hC, trivial, trivial⟩
    rfl
  obtain ⟨hopen, hdelete⟩ := hclean.mpr (Or.inl (hname.mpr (Or.inl (by decide))))
  exact ⟨hopen, hdelete, by decide +kernel⟩

def oneByteFile : List Call := [.create nameA, .open nameA, .write 0 (fun _ => 7) 1, .close 0]

/-- The empty name is no file, and deleting it takes the block of another file. -/
theorem lookup_deletes_other :
    RunOk step (fun _ c => NamesFit c) (fresh zeroDisk) oneByteFile ∧
    NotAFile (run step (fresh zeroDisk) oneByteFile) emptyName ∧
    (fsOpen (run step (fresh zeroDisk) oneByteFile) emptyName).1 = 0 ∧
    (fsDelete (run step (fresh zeroDisk) oneByteFile) emptyName).1 = 0 ∧
    getBit 5 (run step (fresh zeroDisk) oneByteFile).dev.blocksBitmap = true ∧
    getBit 5 (fsDelete (run step (fresh zeroDisk) oneByteFile) emptyName).2.dev.blocksBitmap = false := by
  have hname : nameA.val.length ≤ 15 := by decide
  refine ⟨⟨hname, trivial, trivial, trivial, trivial⟩, ?_, ?_⟩
  · show ∀ i, i < 64 → ((run step (fresh zeroDisk) oneByteFile).dirTable.get i).isUsed ≠ 0 →
      nameAt (run step (fresh zeroDisk) oneByteFile).dirTable i ≠ emptyName.val
    decide +kernel
  · decide +kernel

end EC440.FileSystems
