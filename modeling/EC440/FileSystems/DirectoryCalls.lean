import EC440.FileSystems.DirectoryInv

/-!
# What creating, deleting and listing promise

Three calls of the directory, each with the exact condition for it to do what its comments say.

`fs_delete` looks for any descriptor in use, not for one of the file (`fsDelete_exact_iff`).  `fs_create`
compares the size of a pointer with the length of a name, so a name of more than 15 bytes is copied over what
lies behind it (`fsCreate_exact_iff`).  `fs_listfiles` allocates a pointer for each of the 64 entries and
none for the NULL (`fsListfiles_exact_iff`).
-/

namespace EC440.FileSystems

open EC440.Lib

variable {s s' : State} {name : CString} {d i : Nat}

/-! ### Deleting -/

def OpenOn (s : State) (d : Nat) : Prop :=
  ∃ k, k < 32 ∧ (s.fdTable.get k).isUsed = true ∧
    (s.fdTable.get k).inodeNumber = (s.dirTable.get d).inodeNumber

/-- `fs_delete` of the file in the entry `d` is refused just when the file is open, and then changes nothing. -/
def DeletesUnlessOpen (s : State) (name : CString) (d : Nat) : Prop :=
  ((fsDelete s name).1 = 0 ↔ ¬ OpenOn s d) ∧ ((fsDelete s name).1 = -1 → (fsDelete s name).2 = s)

def NoneOpen (s : State) : Prop := ∀ k, k < 32 → (s.fdTable.get k).isUsed = false

theorem anyOpen_iff : anyOpen s.fdTable = false ↔ NoneOpen s := anyOpen_eq_false_lt

theorem NoneOpen.not_openOn (h : NoneOpen s) (d : Nat) : ¬ OpenOn s d := by
  rintro ⟨k, hk, hu, -⟩
  rw [h k hk] at hu
  cases hu

/-- `fs_delete` returns `0` when no descriptor is in use and the entry found has a valid inode. -/
theorem fsDelete_eq_zero_iff {e : Nat} (he : findName s.dirTable name = some e) :
    (fsDelete s name).1 = 0 ↔ NoneOpen s ∧ (s.dirTable.get e).inodeNumber.toNat < 64 := by
  rcases fsDelete_cases s name with ⟨hno, h⟩ | ⟨d, hd, ho, hlt, h⟩
  · rw [h]
    refine iff_of_false (show (-1 : Int) ≠ 0 by decide) ?_
    rintro ⟨hnone, hlt⟩
    have hge := hno e he (anyOpen_iff.mpr hnone)
    omega
  · obtain rfl : d = e := Option.some.inj (hd.symm.trans he)
    rw [h]
    exact iff_of_true rfl ⟨anyOpen_iff.mp ho, hlt⟩

theorem fsDelete_refused (h : (fsDelete s name).1 = -1) : (fsDelete s name).2 = s := by
  rcases fsDelete_cases s name with ⟨-, he⟩ | ⟨d, -, -, -, he⟩
  · rw [he]
  · rw [he] at h
    cases h

/-- **When `fs_delete` is refused just for open files**: when no descriptor is in use at all, or one of the
file is.  (Without a descriptor in use, the entry found needs a valid inode; with names of 1 to 15 bytes it
has one.) -/
theorem fsDelete_exact_iff (s : State) (name : CString) (d : Nat) (hd : d < 64)
    (hu : (s.dirTable.get d).isUsed ≠ 0) (hname : nameAt s.dirTable d = name.val) :
    (DeletesUnlessOpen s name d ↔
      (NoneOpen s ∧ ∃ e, findName s.dirTable name = some e ∧ (s.dirTable.get e).inodeNumber.toNat < 64) ∨
        OpenOn s d) ∧
    ∀ (blank : Disk) (cs : List Call), RunOk step (fun _ c => NamesValid c) (fresh blank) cs →
      s = run step (fresh blank) cs → (DeletesUnlessOpen s name d ↔ NoneOpen s ∨ OpenOn s d) := by
  have hgeneral : DeletesUnlessOpen s name d ↔
      (NoneOpen s ∧ ∃ e, findName s.dirTable name = some e ∧ (s.dirTable.get e).inodeNumber.toNat < 64) ∨
        OpenOn s d := by
    obtain ⟨e, he⟩ : ∃ e, findName s.dirTable name = some e := by
      cases hf : findName s.dirTable name with
      | none => exact absurd hname (findName_eq_none.mp hf d hd)
      | some e => exact ⟨e, rfl⟩
    rw [DeletesUnlessOpen, fsDelete_eq_zero_iff he, and_iff_left fsDelete_refused]
    constructor
    · intro h
      by_cases hopen : OpenOn s d
      · exact .inr hopen
      · obtain ⟨hnone, hlt⟩ := h.mpr hopen
        exact .inl ⟨hnone, e, he, hlt⟩
    · rintro (⟨hnone, e', he', hlt⟩ | hopen)
      · obtain rfl : e = e' := Option.some.inj (he.symm.trans he')
        exact iff_of_true ⟨hnone, hlt⟩ (hnone.not_openOn d)
      · exact iff_of_false (fun h => h.1.not_openOn d hopen) (not_not_intro hopen)
  refine ⟨hgeneral, ?_⟩
  intro blank cs hcs hs
  have hinv : DirInv s := by
    rw [hs]
    exact run_dirInv blank hcs
  have hfind := hinv.findName_self hd hu hname
  have hlt : (s.dirTable.get d).inodeNumber.toNat < 64 := by
    rw [(hinv.used d hd hu).1]
    exact hd
  rw [hgeneral, and_iff_left ⟨d, hfind, hlt⟩]

/-- A file that is open is not deleted. -/
theorem fsDelete_exact_open :
    DeletesUnlessOpen (run step (fresh zeroDisk) [.create nameA, .open nameA]) nameA 0 := by
  obtain ⟨hu, hname, hopen, hfile⟩ :
      ((run step (fresh zeroDisk) [.create nameA, .open nameA]).dirTable.get 0).isUsed ≠ 0 ∧
      nameAt (run step (fresh zeroDisk) [.create nameA, .open nameA]).dirTable 0 = nameA.val ∧
      ((run step (fresh zeroDisk) [.create nameA, .open nameA]).fdTable.get 0).isUsed = true ∧
      ((run step (fresh zeroDisk) [.create nameA, .open nameA]).fdTable.get 0).inodeNumber =
        ((run step (fresh zeroDisk) [.create nameA, .open nameA]).dirTable.get 0).inodeNumber := by
    decide +kernel
  exact (fsDelete_exact_iff _ nameA 0 (by decide) hu hname).1.mpr (.inr ⟨0, by decide, hopen, hfile⟩)

/-- A file cannot be deleted while another one is open. -/
theorem fsDelete_other_open :
    ¬ DeletesUnlessOpen (run step (fresh zeroDisk) [.create nameA, .create nameB, .open nameB]) nameA 0 := by
  obtain ⟨hret, hclosed⟩ :
      (fsDelete (run step (fresh zeroDisk) [.create nameA, .create nameB, .open nameB]) nameA).1 ≠ 0 ∧
      ∀ k, k < 32 →
        ((run step (fresh zeroDisk) [.create nameA, .create nameB, .open nameB]).fdTable.get k).isUsed = true →
        ((run step (fresh zeroDisk) [.create nameA, .create nameB, .open nameB]).fdTable.get k).inodeNumber ≠
          ((run step (fresh zeroDisk) [.create nameA, .create nameB, .open nameB]).dirTable.get
            0).inodeNumber := by
    decide +kernel
  intro h
  refine hret (h.1.mpr ?_)
  rintro ⟨k, hk, hu, hfile⟩
  exact hclosed k hk hu hfile

/-! ### Creating -/

/-- The name fits, and the free inode has the number of its slot and an unused entry. -/
def Fits (s : State) (name : CString) : Prop :=
  name.val.length ≤ 15 ∧ ∃ i, findInode s.inodesBitmap = some i ∧ (s.dirTable.get i).isUsed = 0 ∧
    (s.inodeTable.get i).inodeNumber.toNat = i

/-- The loop of `fs_listfiles` over the entries that are left, with `fIdx` names stored so far. -/
def listLoop (t : Arr 64 DirEntry) : List Nat → Nat → List (Nat × Option (List UInt8))
  | [], fIdx => [(fIdx, none)]
  | i :: rest, fIdx =>
    if (t.get i).isUsed != 0 then (fIdx, some (nameAt t i)) :: listLoop t rest (fIdx + 1)
    else listLoop t rest fIdx

def usedSlots (t : Arr 64 DirEntry) : List Nat := (List.range 64).filter fun i => (t.get i).isUsed != 0

/-- The names of the used entries in the order of their slots, and a NULL behind them, all of them stored
within the 64 pointers that were allocated. -/
def ListsExactly (s : State) : Prop :=
  ∃ slots : List Nat, slots.Pairwise (· < ·) ∧
    (∀ i, i ∈ slots ↔ i < 64 ∧ (s.dirTable.get i).isUsed ≠ 0) ∧
    (slots.map (nameAt s.dirTable)).Nodup ∧
    fsListfiles s =
      (slots.mapIdx fun k i => (k, some (nameAt s.dirTable i))) ++ [(slots.length, none)] ∧
    ∀ st ∈ fsListfiles s, st.1 < 64

theorem listLoop_eq (t : Arr 64 DirEntry) (is : List Nat) (fIdx : Nat) :
    listLoop t is fIdx =
      ((is.filter fun i => (t.get i).isUsed != 0).mapIdx fun k i => (fIdx + k, some (nameAt t i))) ++
        [(fIdx + (is.filter fun i => (t.get i).isUsed != 0).length, none)] := by
  induction is generalizing fIdx with
  | nil => rfl
  | cons i is ih =>
    rw [listLoop, List.filter_cons]
    split
    · have hnext : ∀ k, fIdx + 1 + k = fIdx + (k + 1) := fun k => by omega
      rw [ih, List.mapIdx_cons, List.length_cons, List.cons_append]
      simp only [hnext, Nat.add_zero]
    · exact ih fIdx

theorem range_getElem?_eq {α : Type} (names : List α) :
    (List.range (names.length + 1)).map (fun k => (k, names[k]?)) =
      (names.mapIdx fun k x => (k, some x)) ++ [(names.length, none)] := by
  rw [List.range_succ, List.map_append]
  congr 1
  · refine List.ext_getElem (by simp) ?_
    intro k hk _
    have hk' : k < names.length := by simpa using hk
    simp [List.getElem?_eq_getElem hk']
  · simp

theorem fsListfiles_eq_listLoop (s : State) :
    fsListfiles s = listLoop s.dirTable (List.range 64) 0 := by
  simp only [listLoop_eq, Nat.zero_add]
  refine (range_getElem?_eq _).trans ?_
  rw [List.length_map]
  congr 1
  exact List.ext_getElem (by simp) fun k _ _ => by simp

theorem fsListfiles_eq (s : State) :
    fsListfiles s = ((usedSlots s.dirTable).mapIdx fun k i => (k, some (nameAt s.dirTable i))) ++
      [((usedSlots s.dirTable).length, none)] := by
  simp only [fsListfiles_eq_listLoop, listLoop_eq, Nat.zero_add]
  rfl

theorem mem_usedSlots (t : Arr 64 DirEntry) (i : Nat) :
    i ∈ usedSlots t ↔ i < 64 ∧ (t.get i).isUsed ≠ 0 := by
  simp [usedSlots]

theorem usedSlots_sorted (t : Arr 64 DirEntry) : (usedSlots t).Pairwise (· < ·) :=
  List.pairwise_lt_range.filter _

theorem fileCount_eq_length {slots : List Nat} (hsorted : slots.Pairwise (· < ·))
    (hmem : ∀ i, i ∈ slots ↔ i < 64 ∧ (s.dirTable.get i).isUsed ≠ 0) : fileCount s = slots.length := by
  have hnodup : slots.Nodup := hsorted.imp fun hlt => Nat.ne_of_lt hlt
  rw [← List.toFinset_card_of_nodup hnodup, fileCount]
  congr 1
  ext i
  rw [List.mem_toFinset, hmem, Finset.mem_filter, Finset.mem_range]

theorem DirInv.names_nodup (h : DirInv s) : ((usedSlots s.dirTable).map (nameAt s.dirTable)).Nodup := by
  refine List.Nodup.map_on ?_ ((usedSlots_sorted s.dirTable).imp fun hlt => Nat.ne_of_lt hlt)
  intro i hi j hj hij
  obtain ⟨hi, hui⟩ := (mem_usedSlots _ i).mp hi
  obtain ⟨hj, huj⟩ := (mem_usedSlots _ j).mp hj
  exact h.distinct i j hi hj hui huj hij

/-- The NULL is stored at the number of files. -/
theorem ListsExactly.few (h : ListsExactly s) : fileCount s < 64 := by
  obtain ⟨slots, hsorted, hmem, -, hstores, hin⟩ := h
  rw [fileCount_eq_length hsorted hmem]
  exact hin (slots.length, none) (by rw [hstores]; simp)

/-- **When `fs_listfiles` stays within its array**: in every run with names of 1 to 15 bytes it stores the
names of the files and a NULL, and all of this in the 64 pointers unless there are 64 files. -/
theorem fsListfiles_exact_iff (blank : Disk) (cs : List Call)
    (hcs : RunOk step (fun _ c => NamesValid c) (fresh blank) cs) :
    ListsExactly (run step (fresh blank) cs) ↔ fileCount (run step (fresh blank) cs) < 64 := by
  have hinv := run_dirInv blank hcs
  set s := run step (fresh blank) cs
  constructor
  · exact ListsExactly.few
  · intro hfew
    rw [fileCount_eq_length (usedSlots_sorted _) (mem_usedSlots s.dirTable)] at hfew
    refine ⟨usedSlots s.dirTable, usedSlots_sorted _, mem_usedSlots _, hinv.names_nodup,
      fsListfiles_eq s, ?_⟩
    intro st hst
    rw [fsListfiles_eq] at hst
    rcases List.mem_append.mp hst with hst | hst
    · obtain ⟨k, hk, rfl⟩ := List.mem_mapIdx.mp hst
      exact Nat.lt_trans hk hfew
    · obtain rfl := List.mem_singleton.mp hst
      exact hfew

/-- Three files, and the second one is deleted again. -/
def secondDeleted : List Call := [.create nameA, .create nameB, .create nameC, .delete nameB]

/-- The slot between the two files that are left is not listed. -/
theorem fsListfiles_exact_secondDeleted :
    ListsExactly (run step (fresh zeroDisk) secondDeleted) ∧
      fsListfiles (run step (fresh zeroDisk) secondDeleted) =
        [(0, some nameA.val), (1, some nameC.val), (2, none)] := by
  have hA : ValidName nameA := ⟨by decide, by decide⟩
  have hB : ValidName nameB := ⟨by decide, by decide⟩
  have hC : ValidName nameC := ⟨by decide, by decide⟩
  have heval : ((run step (fresh zeroDisk) secondDeleted).dirTable.get 1).isUsed = 0 ∧
      fsListfiles (run step (fresh zeroDisk) secondDeleted) =
        [(0, some nameA.val), (1, some nameC.val), (2, none)] := by
    decide +kernel
  refine ⟨(fsListfiles_exact_iff zeroDisk secondDeleted ⟨hA, hB, hC, hB, trivial⟩).mpr ?_, heval.2⟩
  exact (fileCount_lt_iff _).mpr ⟨1, by decide, heval.1⟩

/-! ### A full directory -/

/-- The directory holds `names`, each once. -/
structure Filled (names : List CString) (s : State) : Prop where
  inv : DirInv s
  count : fileCount s = names.length
  names : ∀ i, i < 64 → (s.dirTable.get i).isUsed ≠ 0 → ∃ name ∈ names, nameAt s.dirTable i = name.val

theorem Filled.create {names : List CString} (h : Filled names s) (hname : ValidName name)
    (hnew : name ∉ names) (hroom : names.length < 64) : Filled (name :: names) (fsCreate s name).2 := by
  have hcount := h.count
  have hret : (fsCreate s name).1 = 0 := by
    refine (h.inv.fsCreate_iff hname).mpr ⟨?_, by omega⟩
    intro i hi hu he
    obtain ⟨other, hmem, hother⟩ := h.names i hi hu
    exact hnew (by rwa [Subtype.ext (he.symm.trans hother)])
  have hinv := h.inv.create hname
  rcases fsCreate_cases s hname.2 with ⟨he, -⟩ | ⟨-, hroom', hnone, -⟩ | ⟨i, -, -, hfree, he⟩
  · rw [he] at hret
    cases hret
  · rw [h.inv.dirFull_iff_inodes.mpr hnone] at hroom'
    cases hroom'
  · obtain ⟨hi, hclear⟩ := findInode_eq_some hfree
    have hunused : (s.dirTable.get i).isUsed = 0 := by
      by_contra hu
      rw [(h.inv.bit i hi).mp hu] at hclear
      cases hclear
    rw [he] at hinv ⊢
    let e : DirEntry := { newEntry (s.inodeTable.get i).inodeNumber with name := padName name.val }
    have hself : (s.dirTable.set i e).get i = e := Arr.get_set_self _ hi _
    have hother : ∀ j, j ≠ i → (s.dirTable.set i e).get j = s.dirTable.get j :=
      fun j hj => Arr.get_set_ne _ hj _
    refine ⟨hinv, ?_, ?_⟩
    · -- one entry more is used
      have hinsert : (Finset.range 64).filter (fun j => ((s.dirTable.set i e).get j).isUsed ≠ 0) =
          insert i ((Finset.range 64).filter fun j => (s.dirTable.get j).isUsed ≠ 0) := by
        ext j
        rw [Finset.mem_insert, Finset.mem_filter, Finset.mem_filter, Finset.mem_range]
        by_cases hji : j = i
        · subst hji
          rw [hself]
          exact iff_of_true ⟨hi, by show (1 : UInt8) ≠ 0; decide⟩ (.inl rfl)
        · rw [hother j hji]
          exact ⟨.inr, fun h => h.resolve_left hji⟩
      have hnotin : i ∉ (Finset.range 64).filter fun j => (s.dirTable.get j).isUsed ≠ 0 :=
        fun hmem => (Finset.mem_filter.mp hmem).2 hunused
      show Finset.card _ = _
      rw [hinsert, Finset.card_insert_of_notMem hnotin, List.length_cons, ← hcount, fileCount]
    · intro j hj hu
      show ∃ other ∈ name :: names, nameAt (s.dirTable.set i e) j = other.val
      by_cases hji : j = i
      · subst hji
        exact ⟨name, List.mem_cons_self, nameAt_padName hj hname.2 (by rw [hself])⟩
      · obtain ⟨other, hmem, hold⟩ := h.names j hj (by rwa [← hother j hji])
        refine ⟨other, List.mem_cons_of_mem _ hmem, ?_⟩
        rw [nameAt_of_get hj (hother j hji) (h.inv.terminated j hj), hold]

/-- New names are entered one after the other, as long as there is room. -/
theorem Filled.createAll (h : Filled [] s) {names : List CString} (hvalid : ∀ name ∈ names, ValidName name)
    (hnodup : names.Nodup) (hroom : names.length ≤ 64) :
    Filled names (run step s (names.reverse.map Call.create)) := by
  induction names with
  | nil => exact h
  | cons name names ih =>
    obtain ⟨hnew, hnodup⟩ := List.nodup_cons.mp hnodup
    rw [List.length_cons] at hroom
    have hrest := ih (fun other hmem => hvalid other (List.mem_cons_of_mem _ hmem)) hnodup (by omega)
    rw [List.reverse_cons, List.map_append, run_append]
    exact hrest.create (hvalid name List.mem_cons_self) hnew (by omega)

def oneByteNames : List CString :=
  (List.range 64).map fun k => ⟨[UInt8.ofNat (k % 255 + 1)], by
    intro b hb
    obtain rfl := List.mem_singleton.mp hb
    intro hzero
    have hval := congrArg UInt8.toNat hzero
    rw [UInt8.toNat_ofNat'] at hval
    simp only [UInt8.toNat_zero] at hval
    omega⟩

/-- With 64 files, the NULL is stored behind the array. -/
theorem fsListfiles_overflows :
    RunOk step (fun _ c => NamesValid c) (fresh zeroDisk) (oneByteNames.reverse.map Call.create) ∧
      ¬ ListsExactly (run step (fresh zeroDisk) (oneByteNames.reverse.map Call.create)) := by
  have hstart : Filled [] (fresh zeroDisk) := by
    have hunused : ∀ i, i < 64 → ((fresh zeroDisk).dirTable.get i).isUsed = 0 := by decide +kernel
    refine ⟨dirInv_fresh zeroDisk, ?_, fun i hi hu => absurd (hunused i hi) hu⟩
    refine Finset.card_eq_zero.mpr (Finset.filter_eq_empty_iff.mpr fun i hi hu => ?_)
    exact hu (hunused i (Finset.mem_range.mp hi))
  have hvalid : ∀ name ∈ oneByteNames, ValidName name := by
    intro name hname
    obtain ⟨k, -, rfl⟩ := List.mem_map.mp hname
    exact ⟨Nat.le_refl 1, by simp⟩
  refine ⟨runOk_of_forall_mem (fun c hc _ => ?_) _, fun h => ?_⟩
  · obtain ⟨name, hname, rfl⟩ := List.mem_map.mp hc
    exact hvalid name (List.mem_reverse.mp hname)
  · have hfew := h.few
    rw [(hstart.createAll hvalid (by decide) (by decide)).count] at hfew
    revert hfew
    decide

end EC440.FileSystems
