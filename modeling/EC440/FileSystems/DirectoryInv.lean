import EC440.FileSystems.Sessions
import EC440.FileSystems.WriteFacts

/-!
# The directory, the inodes and their bitmap agree

`fs_create` asks the directory table whether there is room, takes the slot from the
bitmap of inodes and copies the number from the inode table.  `DirInv` is the agreement
of the three tables this rests on: slot `i` is in use in all of them or in none, and
everything in it is numbered `i`.

The other calls do not touch what `DirInv` speaks of (`SameDir`), except `fs_delete`,
which frees slot `i` in all three.  So `DirInv` holds in every run
(`run_dirInv`), and `directory_agrees` reads off what it means for `fs_create` and
`fs_open`.
-/

namespace EC440.FileSystems

open EC440.Lib

/-- A call that enters or removes a name gives one of 1 to 15 bytes. -/
def NamesValid : Call → Prop
  | .create name => ValidName name
  | .delete name => ValidName name
  | _ => True

/-- The three tables agree. -/
structure DirInv (s : State) : Prop where
  numbered : ∀ i, i < 64 → (s.inodeTable.get i).inodeNumber.toNat = i
  terminated : ∀ i, i < 64 → (s.dirTable.get i).Terminated
  bit : ∀ i, i < 64 → ((s.dirTable.get i).isUsed ≠ 0 ↔ getBit i s.inodesBitmap = true)
  used : ∀ i, i < 64 → (s.dirTable.get i).isUsed ≠ 0 →
    (s.dirTable.get i).inodeNumber.toNat = i ∧ nameAt s.dirTable i ≠ []
  unused : ∀ i, i < 64 → (s.dirTable.get i).isUsed = 0 →
    (s.dirTable.get i).inodeNumber = 0 ∧ nameAt s.dirTable i = []
  distinct : ∀ i j, i < 64 → j < 64 → (s.dirTable.get i).isUsed ≠ 0 →
    (s.dirTable.get j).isUsed ≠ 0 → nameAt s.dirTable i = nameAt s.dirTable j → i = j

/-- Two states with the same directory, bitmap of inodes and inode numbers. -/
structure SameDir (s s' : State) : Prop where
  dirTable : s'.dirTable = s.dirTable
  inodesBitmap : s'.inodesBitmap = s.inodesBitmap
  number : ∀ i, (s'.inodeTable.get i).inodeNumber = (s.inodeTable.get i).inodeNumber

theorem SameDir.refl (s : State) : SameDir s s := ⟨rfl, rfl, fun _ => rfl⟩

theorem DirInv.same {s s' : State} (h : DirInv s) (hs : SameDir s s') : DirInv s' := by
  obtain ⟨hd, hb, hn⟩ := hs
  refine ⟨fun i hi => ?_, ?_, ?_, ?_, ?_, ?_⟩
  · rw [hn]
    exact h.numbered i hi
  all_goals rw [hd]
  · exact h.terminated
  · rw [hb]
    exact h.bit
  · exact h.used
  · exact h.unused
  · exact h.distinct

theorem inodeNumber_set (t : Arr 64 Inode) (i k : Nat) (ino : Inode)
    (h : ino.inodeNumber = (t.get i).inodeNumber) :
    ((t.set i ino).get k).inodeNumber = (t.get k).inodeNumber := by
  rw [Arr.get_set]
  split
  · rename_i hk
    rw [h, hk.1]
  · rfl

/-! ### The calls that leave the directory alone -/

theorem fsWrite_sameDir (s : State) (fildes : Int) (buf : Nat → UInt8) (nbyte : Nat) :
    SameDir s (fsWrite s fildes buf nbyte).2 := by
  have hw := writeBlocks_wrote buf (writeRequest (s.fd fildes).offset nbyte)
    (s.fd fildes).offset.toNat s.dev (s.inodeOf fildes)
  rcases fsWrite_cases s fildes buf nbyte with
    h | ⟨-, -, -, -, ⟨v, ho, h⟩ | ⟨e, ho, -, h⟩ | ⟨e, ho, -, h⟩⟩
  · rw [h]
    exact SameDir.refl s
  · rw [h]
    exact ⟨rfl, rfl, fun i => inodeNumber_set _ _ i _ (hw.of_ok ho).kept.number⟩
  · rw [h]
    exact ⟨rfl, rfl, fun i => inodeNumber_set _ _ i _ (hw.of_error ho).kept.number⟩
  · rw [h]
    exact ⟨rfl, rfl, fun i => inodeNumber_set _ _ i _ (hw.of_error ho).kept.number⟩

theorem fsTruncate_sameDir (s : State) (fildes length : Int) :
    SameDir s (fsTruncate s fildes length).2 := by
  rcases fsTruncate_cases s fildes length with ⟨-, h⟩ | ⟨-, -, -, -, h⟩ | ⟨-, -, -, -, -, h⟩
  · rw [h]
    exact SameDir.refl s
  · rw [h]
    exact SameDir.refl s
  · rw [h]
    exact ⟨rfl, rfl, fun i => inodeNumber_set _ _ i _ rfl⟩

theorem step_sameDir (s : State) (c : Call) (hcreate : ∀ name, c ≠ .create name)
    (hdelete : ∀ name, c ≠ .delete name) : SameDir s (step s c).2 := by
  cases c with
  | «open» name =>
    rcases fsOpen_cases s name with h | ⟨i, fd, -, -, h⟩ <;>
    · rw [step, h]
      exact ⟨rfl, rfl, fun _ => rfl⟩
  | close fildes =>
    rcases fsClose_cases s fildes with h | ⟨-, -, -, h⟩ <;>
    · rw [step, h]
      exact ⟨rfl, rfl, fun _ => rfl⟩
  | create name => exact absurd rfl (hcreate name)
  | delete name => exact absurd rfl (hdelete name)
  | read fildes buf nbyte =>
    rcases fsRead_cases s fildes buf nbyte with ⟨-, h⟩ | ⟨-, -, -, v, -, h⟩ <;>
    · rw [step, h]
      exact ⟨rfl, rfl, fun _ => rfl⟩
  | write fildes buf nbyte => exact fsWrite_sameDir s fildes buf nbyte
  | getFilesize fildes => exact SameDir.refl s
  | listfiles => exact SameDir.refl s
  | lseek fildes offset =>
    rcases fsLseek_cases s fildes offset with h | ⟨-, -, -, -, h⟩ <;>
    · rw [step, h]
      exact ⟨rfl, rfl, fun _ => rfl⟩
  | truncate fildes length => exact fsTruncate_sameDir s fildes length

/-! ### Changing one entry -/

theorem nameAt_of_get {t t' : Arr 64 DirEntry} {j : Nat} (hj : j < 64)
    (hget : t'.get j = t.get j) (hterm : (t.get j).Terminated) : nameAt t' j = nameAt t j := by
  rw [nameAt_eq_str hj hterm, nameAt_eq_str hj (by rw [hget]; exact hterm), hget]

theorem nameAt_padName {t : Arr 64 DirEntry} {i : Nat} (hi : i < 64) {name : CString}
    (hlen : name.val.length ≤ 15) (h : (t.get i).name = padName name.val) :
    nameAt t i = name.val := by
  rw [nameAt_eq_str hi (padName_terminated hlen h), str_padName hlen h]

theorem empty_terminated : DirEntry.empty.Terminated := ⟨0, by omega, Arr.get_fill_default 0⟩

theorem nameAt_empty {t : Arr 64 DirEntry} {i : Nat} (hi : i < 64)
    (h : t.get i = DirEntry.empty) : nameAt t i = [] := by
  have hpad : (t.get i).name = padName [] := by
    rw [h]
    rfl
  exact @nameAt_padName t i hi ⟨[], fun _ hb => by simp at hb⟩ (by simp) hpad

/-- What a lookup finds under `DirInv`: the entry of a file with that name. -/
theorem DirInv.findName_used {s : State} (h : DirInv s) {name : CString} (hname : ValidName name)
    {i : Nat} (hf : findName s.dirTable name = some i) :
    i < 64 ∧ (s.dirTable.get i).isUsed ≠ 0 ∧ nameAt s.dirTable i = name.val := by
  obtain ⟨hi, hn, -⟩ := findName_eq_some.mp hf
  refine ⟨hi, ?_, hn⟩
  intro hu
  have he := (h.unused i hi hu).2
  rw [hn] at he
  have := hname.1
  rw [he] at this
  exact absurd this (by decide)

theorem DirInv.findName_self {s : State} (h : DirInv s) {name : CString} {i : Nat} (hi : i < 64)
    (hu : (s.dirTable.get i).isUsed ≠ 0) (hname : nameAt s.dirTable i = name.val) :
    findName s.dirTable name = some i := by
  cases hf : findName s.dirTable name with
  | none => exact absurd hname (findName_eq_none.mp hf i hi)
  | some j =>
    obtain ⟨hj, hn, -⟩ := findName_eq_some.mp hf
    have huj : (s.dirTable.get j).isUsed ≠ 0 := by
      intro hzero
      have hempty := (h.unused j hj hzero).2
      exact (h.used i hi hu).2 (by rw [hname, ← hn, hempty])
    rw [h.distinct j i hj hi huj hu (hn.trans hname.symm)]

theorem DirInv.create {s : State} (h : DirInv s) {name : CString} (hname : ValidName name) :
    DirInv (fsCreate s name).2 := by
  rcases fsCreate_cases s hname.2 with ⟨he, -⟩ | ⟨-, -, -, he⟩ | ⟨i, hn, -, hb, he⟩
  · rw [he]
    exact h
  · rw [he]
    exact h
  · obtain ⟨hi, hbit⟩ := findInode_eq_some hb
    rw [findName_eq_none] at hn
    rw [he]
    let e : DirEntry := { newEntry (s.inodeTable.get i).inodeNumber with name := padName name.val }
    have hself : (s.dirTable.set i e).get i = e := Arr.get_set_self _ hi _
    have hother : ∀ j, j ≠ i → (s.dirTable.set i e).get j = s.dirTable.get j :=
      fun j hj => Arr.get_set_ne _ hj _
    have hnew : nameAt (s.dirTable.set i e) i = name.val :=
      nameAt_padName hi hname.2 (by rw [hself])
    have hold : ∀ j, j < 64 → j ≠ i → nameAt (s.dirTable.set i e) j = nameAt s.dirTable j :=
      fun j hj hji => nameAt_of_get hj (hother j hji) (h.terminated j hj)
    have hne : name.val ≠ [] := by
      intro h0
      have := hname.1
      rw [h0] at this
      exact absurd this (by decide)
    have hbits : ∀ j, getBit j (setBit i s.inodesBitmap)
        = ((decide (j = i) && decide (i < 8 * 8)) || getBit j s.inodesBitmap) :=
      fun j => getBit_setBit i j s.inodesBitmap
    have hused : e.isUsed ≠ 0 := by
      show (1 : UInt8) ≠ 0
      decide
    refine ⟨h.numbered, ?_, ?_, ?_, ?_, ?_⟩
    · intro j hj
      show ((s.dirTable.set i e).get j).Terminated
      by_cases hji : j = i
      · rw [hji, hself]
        exact padName_terminated hname.2 rfl
      · rw [hother j hji]
        exact h.terminated j hj
    · intro j hj
      show ((s.dirTable.set i e).get j).isUsed ≠ 0 ↔ getBit j (setBit i s.inodesBitmap) = true
      rw [hbits]
      by_cases hji : j = i
      · rw [hji, hself]
        simp only [decide_true, Bool.true_and, Bool.or_eq_true, decide_eq_true_eq]
        exact ⟨fun _ => Or.inl (by omega), fun _ => hused⟩
      · rw [hother j hji, decide_eq_false hji, Bool.false_and, Bool.false_or]
        exact h.bit j hj
    · intro j hj hu
      show ((s.dirTable.set i e).get j).inodeNumber.toNat = j ∧ nameAt (s.dirTable.set i e) j ≠ []
      by_cases hji : j = i
      · rw [hji, hself, hnew]
        exact ⟨h.numbered i hi, hne⟩
      · rw [hother j hji, hold j hj hji]
        exact h.used j hj (by rwa [← hother j hji])
    · intro j hj hu
      show ((s.dirTable.set i e).get j).inodeNumber = 0 ∧ nameAt (s.dirTable.set i e) j = []
      have hji : j ≠ i := by
        rintro rfl
        exact absurd hu (by rw [show ((s.dirTable.set j e).get j) = e from hself]; exact hused)
      rw [hother j hji, hold j hj hji]
      exact h.unused j hj (by rwa [← hother j hji])
    · intro j k hj hk huj huk hjk
      -- the new name is nobody else's, because the lookup did not find it
      by_cases hji : j = i
      · by_cases hki : k = i
        · rw [hji, hki]
        · rw [hji] at hjk
          refine absurd ?_ (hn k hk)
          rw [← hold k hk hki, ← hjk]
          exact hnew
      · by_cases hki : k = i
        · rw [hki] at hjk
          refine absurd ?_ (hn j hj)
          rw [← hold j hj hji]
          exact hjk.trans hnew
        · refine h.distinct j k hj hk ?_ ?_ ?_
          · rwa [← hother j hji]
          · rwa [← hother k hki]
          · rw [← hold j hj hji, ← hold k hk hki]
            exact hjk

theorem DirInv.delete {s : State} (h : DirInv s) {name : CString} (hname : ValidName name) :
    DirInv (fsDelete s name).2 := by
  rcases fsDelete_cases s name with ⟨-, he⟩ | ⟨d, hf, -, -, he⟩
  · rw [he]
    exact h
  · obtain ⟨hd, hu, -⟩ := h.findName_used hname hf
    rw [he, (h.used d hd hu).1]
    have hself : (s.dirTable.set d DirEntry.empty).get d = DirEntry.empty :=
      Arr.get_set_self _ hd _
    have hother : ∀ j, j ≠ d → (s.dirTable.set d DirEntry.empty).get j = s.dirTable.get j :=
      fun j hj => Arr.get_set_ne _ hj _
    have hold : ∀ j, j < 64 → j ≠ d →
        nameAt (s.dirTable.set d DirEntry.empty) j = nameAt s.dirTable j :=
      fun j hj hjd => nameAt_of_get hj (hother j hjd) (h.terminated j hj)
    have hne : ∀ j, ((s.dirTable.set d DirEntry.empty).get j).isUsed ≠ 0 → j ≠ d := by
      rintro j huj rfl
      exact huj (by rw [hself]; rfl)
    refine ⟨?_, ?_, ?_, ?_, ?_, ?_⟩
    · intro j hj
      show ((s.inodeTable.set d (s.inodeTable.get d).cleared).get j).inodeNumber.toNat = j
      rw [inodeNumber_set _ _ _ (s.inodeTable.get d).cleared rfl]
      exact h.numbered j hj
    · intro j hj
      show ((s.dirTable.set d DirEntry.empty).get j).Terminated
      by_cases hjd : j = d
      · rw [hjd, hself]
        exact empty_terminated
      · rw [hother j hjd]
        exact h.terminated j hj
    · intro j hj
      show ((s.dirTable.set d DirEntry.empty).get j).isUsed ≠ 0 ↔
        getBit j (clearBit d s.inodesBitmap) = true
      rw [getBit_clearBit]
      by_cases hjd : j = d
      · rw [hjd, hself]
        simp [DirEntry.empty]
      · rw [hother j hjd, decide_eq_false hjd, Bool.not_false, Bool.true_and]
        exact h.bit j hj
    · intro j hj huj
      have hjd := hne j huj
      show ((s.dirTable.set d DirEntry.empty).get j).inodeNumber.toNat = j ∧
        nameAt (s.dirTable.set d DirEntry.empty) j ≠ []
      rw [hother j hjd, hold j hj hjd]
      exact h.used j hj (by rwa [← hother j hjd])
    · intro j hj huj
      show ((s.dirTable.set d DirEntry.empty).get j).inodeNumber = 0 ∧
        nameAt (s.dirTable.set d DirEntry.empty) j = []
      by_cases hjd : j = d
      · rw [hjd]
        exact ⟨by rw [hself]; rfl, nameAt_empty hd hself⟩
      · rw [hother j hjd, hold j hj hjd]
        exact h.unused j hj (by rwa [← hother j hjd])
    · intro j k hj hk huj huk hjk
      have hjd := hne j huj
      have hkd := hne k huk
      refine h.distinct j k hj hk ?_ ?_ ?_
      · rwa [← hother j hjd]
      · rwa [← hother k hkd]
      · rw [← hold j hj hjd, ← hold k hk hkd]
        exact hjk

/-! ### Runs -/

theorem DirInv.step {s : State} (h : DirInv s) {c : Call} (hc : NamesValid c) :
    DirInv (step s c).2 := by
  by_cases hcreate : ∃ name, c = .create name
  · obtain ⟨name, rfl⟩ := hcreate
    exact h.create hc
  · by_cases hdelete : ∃ name, c = .delete name
    · obtain ⟨name, rfl⟩ := hdelete
      exact h.delete hc
    · exact h.same (step_sameDir s c (fun name he => hcreate ⟨name, he⟩)
        (fun name he => hdelete ⟨name, he⟩))

theorem dirInv_fresh (blank : Disk) : DirInv (fresh blank) := by
  obtain ⟨disk, he⟩ := fresh_eq blank
  rw [he]
  have hget : ∀ i, i < 64 →
      (mounted disk (emptyTables (Arr.fill 0))).dirTable.get i = DirEntry.empty :=
    fun i hi => Arr.get_fill _ hi
  have hu : ∀ i, i < 64 →
      ((mounted disk (emptyTables (Arr.fill 0))).dirTable.get i).isUsed = 0 := by
    intro i hi
    rw [hget i hi]
    rfl
  refine ⟨?_, ?_, ?_, fun i hi h => absurd (hu i hi) h,
    fun i hi _ => ⟨?_, nameAt_empty hi (hget i hi)⟩, fun i _ hi _ h => absurd (hu i hi) h⟩
  · intro i hi
    rw [show (mounted disk (emptyTables (Arr.fill 0))).inodeTable.get i
      = Inode.empty (UInt16.ofNat i) from get_emptyInode hi (Arr.fill 0)]
    show (UInt16.ofNat i).toNat = i
    rw [UInt16.toNat_ofNat']
    omega
  · intro i hi
    rw [hget i hi]
    exact empty_terminated
  · intro i hi
    rw [hu i hi, show getBit i (mounted disk (emptyTables (Arr.fill 0))).inodesBitmap = false from
      get_zeroBitmap 8 i]
    simp
  · rw [hget i hi]
    rfl

/-- **The tables agree in every run** in which names of 1 to 15 bytes are entered and
removed. -/
theorem run_dirInv (blank : Disk) {cs : List Call}
    (hcs : RunOk step (fun _ c => NamesValid c) (fresh blank) cs) :
    DirInv (run step (fresh blank) cs) :=
  run_invariant (I := DirInv) (fun _ _ h hc => h.step hc) cs _ (dirInv_fresh blank) hcs

/-! ### Creating and opening -/

def fileCount (s : State) : Nat :=
  ((Finset.range 64).filter (fun i => (s.dirTable.get i).isUsed ≠ 0)).card

theorem fileCount_lt_iff (s : State) :
    fileCount s < 64 ↔ ∃ i, i < 64 ∧ (s.dirTable.get i).isUsed = 0 := by
  have hcard : (Finset.range 64).card = 64 := Finset.card_range 64
  constructor
  · intro h
    by_contra hall
    have heq : (Finset.range 64).filter (fun i => (s.dirTable.get i).isUsed ≠ 0)
        = Finset.range 64 :=
      Finset.filter_true_of_mem fun i hi h0 => hall ⟨i, Finset.mem_range.mp hi, h0⟩
    rw [fileCount, heq, hcard] at h
    exact absurd h (by decide)
  · rintro ⟨i, hi, h0⟩
    rw [← hcard]
    refine Finset.card_lt_card (Finset.filter_ssubset.mpr ⟨i, Finset.mem_range.mpr hi, ?_⟩)
    exact fun h => h h0

theorem DirInv.findName_none_iff {s : State} (h : DirInv s) {name : CString}
    (hname : ValidName name) :
    findName s.dirTable name = none ↔
      ∀ i, i < 64 → (s.dirTable.get i).isUsed ≠ 0 → nameAt s.dirTable i ≠ name.val := by
  constructor
  · intro hn i hi _
    exact findName_eq_none.mp hn i hi
  · intro hall
    cases hf : findName s.dirTable name with
    | none => rfl
    | some i =>
      obtain ⟨hi, hu, hn⟩ := h.findName_used hname hf
      exact absurd hn (hall i hi hu)

theorem DirInv.dirFull_iff_inodes {s : State} (h : DirInv s) :
    dirFull s.dirTable = true ↔ findInode s.inodesBitmap = none := by
  rw [dirFull_iff, findInode_eq_none]
  exact forall₂_congr h.bit

/-- `fs_create` succeeds exactly for a new name in a directory with room. -/
theorem DirInv.fsCreate_iff {s : State} (h : DirInv s) {name : CString} (hname : ValidName name) :
    (fsCreate s name).1 = 0 ↔
      (∀ i, i < 64 → (s.dirTable.get i).isUsed ≠ 0 → nameAt s.dirTable i ≠ name.val) ∧
        fileCount s < 64 := by
  have hroom : dirFull s.dirTable = false ↔ fileCount s < 64 := by
    rw [fileCount_lt_iff, ← Bool.not_eq_true, dirFull_iff]
    push Not
    exact Iff.rfl
  rw [← h.findName_none_iff hname, ← hroom]
  rcases fsCreate_cases s hname.2 with ⟨he, hi | hd⟩ | ⟨hn, hd, hi, he⟩ | ⟨i, hn, hd, -, he⟩
  · obtain ⟨i, hi⟩ := hi
    rw [he, hi]
    simp
  · rw [he, hd]
    simp
  · rw [he, hn, hd]
    simp
  · rw [he, hn, hd]
    simp

/-- The file `name` is in slot `i`. -/
structure Names (name : CString) (i : Nat) (s : State) : Prop where
  inv : DirInv s
  lt : i < 64
  used : (s.dirTable.get i).isUsed ≠ 0
  name : nameAt s.dirTable i = name.val

/-- A call that does not remove `name`. -/
def Keeps (name : CString) (s : State) (c : Call) : Prop :=
  NamesValid c ∧ ¬ (c = .delete name ∧ (step s c).1 = 0)

theorem Names.create {name other : CString} {i : Nat} {s : State} (h : Names name i s)
    (hother : ValidName other) : Names name i (fsCreate s other).2 := by
  have hinv := h.inv.create hother
  rcases fsCreate_cases s hother.2 with ⟨he, -⟩ | ⟨-, -, -, he⟩ | ⟨k, -, -, hb, he⟩
  · rw [he]
    exact h
  · rw [he]
    exact h
  · have hik : i ≠ k := by
      rintro rfl
      have := (h.inv.bit i h.lt).mp h.used
      rw [(findInode_eq_some hb).2] at this
      exact absurd this (by decide)
    rw [he] at hinv ⊢
    have hget := Arr.get_set_ne s.dirTable hik
      { newEntry (s.inodeTable.get k).inodeNumber with name := padName other.val }
    exact ⟨hinv, h.lt, by rw [hget]; exact h.used,
      (nameAt_of_get h.lt hget (h.inv.terminated i h.lt)).trans h.name⟩

theorem Names.delete {name other : CString} {i : Nat} {s : State} (h : Names name i s)
    (hother : ValidName other)
    (hkeep : ¬ (Call.delete other = .delete name ∧ (fsDelete s other).1 = 0)) :
    Names name i (fsDelete s other).2 := by
  have hinv := h.inv.delete hother
  rcases fsDelete_cases s other with ⟨-, he⟩ | ⟨d, hf, -, -, he⟩
  · rw [he]
    exact h
  · have hid : i ≠ d := by
      rintro rfl
      have hname : other = name :=
        Subtype.ext ((h.inv.findName_used hother hf).2.2.symm.trans h.name)
      exact hkeep ⟨by rw [hname], by rw [he]⟩
    rw [he] at hinv ⊢
    have hget := Arr.get_set_ne s.dirTable hid DirEntry.empty
    exact ⟨hinv, h.lt, by rw [hget]; exact h.used,
      (nameAt_of_get h.lt hget (h.inv.terminated i h.lt)).trans h.name⟩

theorem Names.step {name : CString} {i : Nat} {s : State} (h : Names name i s) {c : Call}
    (hc : Keeps name s c) : Names name i (step s c).2 := by
  by_cases hcreate : ∃ other, c = .create other
  · obtain ⟨other, rfl⟩ := hcreate
    exact h.create hc.1
  · by_cases hdelete : ∃ other, c = .delete other
    · obtain ⟨other, rfl⟩ := hdelete
      exact h.delete hc.1 hc.2
    · have hs := step_sameDir s c (fun other he => hcreate ⟨other, he⟩)
        (fun other he => hdelete ⟨other, he⟩)
      refine ⟨h.inv.same hs, h.lt, ?_, ?_⟩
      · rw [hs.dirTable]
        exact h.used
      · rw [hs.dirTable]
        exact h.name

theorem DirInv.fsCreate_names {s : State} (h : DirInv s) {name : CString} (hname : ValidName name)
    (hret : (fsCreate s name).1 = 0) :
    ∃ i, findInode s.inodesBitmap = some i ∧ Names name i (fsCreate s name).2 := by
  have hinv := h.create hname
  rcases fsCreate_cases s hname.2 with ⟨he, -⟩ | ⟨-, hd, hi, -⟩ | ⟨i, -, -, hb, he⟩
  · rw [he] at hret
    cases hret
  · rw [h.dirFull_iff_inodes.mpr hi] at hd
    exact absurd hd (by decide)
  · have hi := (findInode_eq_some hb).1
    refine ⟨i, hb, ?_⟩
    rw [he] at hinv ⊢
    have hget := Arr.get_set_self s.dirTable hi
      { newEntry (s.inodeTable.get i).inodeNumber with name := padName name.val }
    refine ⟨hinv, hi, ?_, nameAt_padName hi hname.2 (by rw [hget])⟩
    rw [hget]
    show (1 : UInt8) ≠ 0
    decide

/-- Opening a file that is in slot `i`, with a descriptor free. -/
theorem Names.open {name : CString} {i : Nat} {s : State} (h : Names name i s)
    (hfree : ∃ k, k < 32 ∧ (s.fdTable.get k).isUsed = false) :
    ∃ fd : Nat, fd < 32 ∧ (s.fdTable.get fd).isUsed = false ∧
      fsOpen s name = ((fd : Int), { s with
        fdTable := s.fdTable.set fd
          { isUsed := true, inodeNumber := (s.dirTable.get i).inodeNumber, offset := 0 } }) := by
  have hfind : findName s.dirTable name = some i := h.inv.findName_self h.lt h.used h.name
  cases hfd : findFd s.fdTable with
  | none =>
    obtain ⟨k, hk, hkf⟩ := hfree
    rw [findFd_eq_none.mp hfd k hk] at hkf
    exact absurd hkf (by decide)
  | some fd =>
    obtain ⟨hlt, hfree⟩ := findFd_eq_some hfd
    refine ⟨fd, hlt, hfree, ?_⟩
    rw [fsOpen, hfind]
    simp only [hfd]

/-- **The directory, the inodes and their bitmap agree in every run**, so `fs_create`
succeeds exactly for a new name in a directory of fewer than 64 files, and until the
file is deleted every `fs_open` of its name with a descriptor free opens the inode it
was given. -/
theorem directory_agrees (blank : Disk) (cs : List Call)
    (hcs : RunOk step (fun _ c => NamesValid c) (fresh blank) cs) :
    (∀ i, i < 64 →
      ((run step (fresh blank) cs).inodeTable.get i).inodeNumber.toNat = i ∧
      (((run step (fresh blank) cs).dirTable.get i).isUsed ≠ 0 ↔
        getBit i (run step (fresh blank) cs).inodesBitmap = true) ∧
      (((run step (fresh blank) cs).dirTable.get i).isUsed ≠ 0 →
        ((run step (fresh blank) cs).dirTable.get i).inodeNumber.toNat = i ∧
          nameAt (run step (fresh blank) cs).dirTable i ≠ []) ∧
      (((run step (fresh blank) cs).dirTable.get i).isUsed = 0 →
        nameAt (run step (fresh blank) cs).dirTable i = [])) ∧
    (∀ i j, i < 64 → j < 64 → ((run step (fresh blank) cs).dirTable.get i).isUsed ≠ 0 →
      ((run step (fresh blank) cs).dirTable.get j).isUsed ≠ 0 →
      nameAt (run step (fresh blank) cs).dirTable i
        = nameAt (run step (fresh blank) cs).dirTable j → i = j) ∧
    ∀ name, ValidName name →
      ((fsCreate (run step (fresh blank) cs) name).1 = 0 ↔
        (∀ i, i < 64 → ((run step (fresh blank) cs).dirTable.get i).isUsed ≠ 0 →
          nameAt (run step (fresh blank) cs).dirTable i ≠ name.val) ∧
        fileCount (run step (fresh blank) cs) < 64) ∧
      ((fsCreate (run step (fresh blank) cs) name).1 = 0 →
        ∃ i, i < 64 ∧ getBit i (run step (fresh blank) cs).inodesBitmap = false ∧
          ∀ ds, RunOk step (Keeps name) (fsCreate (run step (fresh blank) cs) name).2 ds →
          ∀ t, t = run step (fsCreate (run step (fresh blank) cs) name).2 ds →
          (∃ k, k < 32 ∧ (t.fdTable.get k).isUsed = false) →
          ∃ fd : Nat, fd < 32 ∧ (fsOpen t name).1 = fd ∧
            ((fsOpen t name).2.fdTable.get fd).isUsed = true ∧
            ((fsOpen t name).2.fdTable.get fd).inodeNumber.toNat = i) := by
  have h := run_dirInv blank hcs
  refine ⟨fun i hi => ⟨h.numbered i hi, h.bit i hi, h.used i hi, fun hu => (h.unused i hi hu).2⟩,
    h.distinct, fun name hname => ⟨h.fsCreate_iff hname, ?_⟩⟩
  intro hret
  obtain ⟨i, hfind, hnames⟩ := h.fsCreate_names hname hret
  refine ⟨i, hnames.lt, (findInode_eq_some hfind).2, ?_⟩
  intro ds hds t ht hfree
  subst ht
  have hlater := run_invariant (I := Names name i) (fun _ _ hn hc => hn.step hc) ds _ hnames hds
  obtain ⟨fd, hlt, -, he⟩ := hlater.open hfree
  have hget := Arr.get_set_self (run step (fsCreate (run step (fresh blank) cs) name).2 ds).fdTable
    hlt { isUsed := true,
          inodeNumber := ((run step (fsCreate (run step (fresh blank) cs) name).2 ds).dirTable.get
            i).inodeNumber, offset := 0 }
  refine ⟨fd, hlt, ?_, ?_, ?_⟩
  · rw [he]
  · rw [he, hget]
  · rw [he, hget]
    exact (hlater.inv.used i hlater.lt hlater.used).1

/-- A file is created, opened and opened again: both times it is the same inode. -/
theorem directory_agrees_nameA :
    (fsCreate (fresh zeroDisk) nameA).1 = 0 ∧
    ∃ i fd, i < 64 ∧ fd < 32 ∧
      (fsOpen (run step (fsCreate (fresh zeroDisk) nameA).2 [.open nameA]) nameA).1 = (fd : Nat) ∧
      ((fsOpen (run step (fsCreate (fresh zeroDisk) nameA).2 [.open nameA]) nameA).2.fdTable.get
        fd).inodeNumber.toNat = i := by
  have hret : (fsCreate (fresh zeroDisk) nameA).1 = 0 := by decide +kernel
  obtain ⟨i, hi, -, h⟩ :=
    ((directory_agrees zeroDisk [] trivial).2.2 nameA ⟨by decide, by decide⟩).2 hret
  obtain ⟨fd, hfd, hopen, -, hino⟩ :=
    h [.open nameA] ⟨⟨trivial, fun hc => by cases hc.1⟩, trivial⟩ _ rfl
      ⟨1, by decide, by decide +kernel⟩
  exact ⟨hret, i, fd, hi, hfd, hopen, hino⟩

end EC440.FileSystems
