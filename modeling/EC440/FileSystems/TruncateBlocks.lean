import EC440.FileSystems.Blocks

/-!
# The blocks `fs_truncate` gives back

`fs_truncate` clears the bits of the blocks behind the new end of the file, and leaves
the slots of the inode and its table as they are.  So every block it gives back is still
named by the file, and may be handed to another one.  `NothingBehind` is the only way
out: there was no block to give back.
-/

namespace EC440.FileSystems

open EC440.Lib

/-- **There is no block behind `length`** for `fs_truncate` to give back.  It looks at one
slot: the direct one behind the new end, or, when that is behind the direct blocks, at
the table. -/
structure NothingBehind (dev : Dev) (ino : Inode) (length : Nat) : Prop where
  direct : startingBlock length < 25 → ino.directBlock.get (startingBlock length) = 0
  table : 25 ≤ startingBlock length → ∀ k, tableOf dev.disk ino k = 0

theorem clearBlocks_eq_self {n : Nat} {blocks : Nat → UInt16} (h : ∀ k, blocks k = 0) (count : Nat)
    (bitmap : Arr n UInt8) : clearBlocks blocks count bitmap = bitmap := by
  induction count with
  | zero => rfl
  | succ c ih => rw [clearBlocks, if_neg (fun hne => hne (h c)), ih]

theorem releaseDirect_of_ge (ino : Inode) (n : Nat) {start : Nat} (h : 25 ≤ start)
    (bitmap : Arr 1024 UInt8) : releaseDirect ino n start bitmap = (start, bitmap) := by
  cases n with
  | zero => rfl
  | succ n => rw [releaseDirect, if_neg (by omega)]

theorem NothingBehind.bitmap_eq {dev : Dev} {ino : Inode} {length : Nat}
    (h : NothingBehind dev ino length) : truncatedBitmap dev ino length = dev.blocksBitmap := by
  rw [truncatedBitmap]
  by_cases hstart : startingBlock length < 25
  · have hr : releaseDirect ino 25 (startingBlock length) dev.blocksBitmap
        = (startingBlock length, dev.blocksBitmap) := by
      rw [releaseDirect, if_pos hstart, if_neg (fun hne => hne (h.direct hstart))]
    rw [hr]
    simp only
    rw [if_neg (fun hc => by omega)]
  · rw [releaseDirect_of_ge ino 25 (by omega)]
    simp only
    split
    · rename_i hc
      refine clearBlocks_eq_self ?_ _ _
      intro k
      have := h.table (by omega) k
      rwa [tableOf, if_neg hc.1] at this
    · rfl

theorem getBit_releaseDirect (ino : Inode) (b : Nat) :
    ∀ (n start : Nat) (bitmap : Arr 1024 UInt8),
      getBit b (releaseDirect ino n start bitmap).2 = true → getBit b bitmap = true := by
  intro n
  induction n with
  | zero => exact fun _ _ h => h
  | succ n ih =>
    intro start bitmap h
    rw [releaseDirect] at h
    split at h
    · split at h
      · have := ih _ _ h
        rw [getBit_clearBit, Bool.and_eq_true] at this
        exact this.2
      · exact h
    · exact h

theorem getBit_truncatedBitmap {dev : Dev} {ino : Inode} {length b : Nat}
    (h : getBit b (truncatedBitmap dev ino length) = true) :
    getBit b (releaseDirect ino 25 (startingBlock length) dev.blocksBitmap).2 = true := by
  rw [truncatedBitmap] at h
  split at h
  · exact ((getBit_clearBlocks _ _ _ _).mp h).1
  · exact h

theorem truncated_direct (dev : Dev) {ino : Inode} {length : Nat} (hstart : startingBlock length < 25)
    (hne : ino.directBlock.get (startingBlock length) ≠ 0) :
    getBit (ino.directBlock.get (startingBlock length)).toNat (truncatedBitmap dev ino length)
      ≠ true := by
  intro h
  have hr := getBit_truncatedBitmap h
  rw [releaseDirect, if_pos hstart, if_pos hne] at hr
  have := getBit_releaseDirect ino _ _ _ _ hr
  rw [getBit_clearBit, decide_eq_true rfl, Bool.not_true, Bool.false_and] at this
  cases this

/-- Behind the direct blocks, what the table names is given back. -/
theorem truncated_entry (dev : Dev) {ino : Inode} {length k : Nat}
    (hstart : 25 ≤ startingBlock length) (hne : tableOf dev.disk ino k ≠ 0) :
    getBit (tableOf dev.disk ino k).toNat (truncatedBitmap dev ino length) ≠ true := by
  obtain ⟨hs, hlt, hk⟩ := tableOf_ne_zero hne
  rw [tableOf, if_neg hs] at hne ⊢
  intro h
  rw [truncatedBitmap, releaseDirect_of_ge ino 25 hstart] at h
  simp only at h
  rw [if_pos ⟨hs, hlt, hstart⟩] at h
  exact ((getBit_clearBlocks _ _ _ _).mp h).2 k hk hne rfl

/-! ### What is left of the file -/

variable {s : State}

theorem finishTruncate_ref (s : State) (fildes length : Nat) (bitmap : Arr 1024 UInt8) :
    (finishTruncate s fildes length bitmap).ref = s.ref := by
  funext ⟨j, sl⟩
  show ((s.inodeTable.set _ _).get j).names (tableOf s.dev.disk ((s.inodeTable.set _ _).get j)) sl = _
  rw [Arr.get_set]
  split
  · rename_i hj
    rw [State.ref, ← hj.1]
    cases sl <;> rfl
  · rfl

/-- Every reference is to a block that is marked. -/
def AllMarked (s : State) : Prop := ∀ x, s.ref x ≠ 0 → getBit (s.ref x) s.dev.blocksBitmap = true

/-- `fs_create`, `fs_open`, and `fs_write` to no descriptor of inode `i`. -/
def OtherFile (i : Nat) (s : State) : Call → Prop
  | .create _ => True
  | .open _ => True
  | .write fildes _ _ => s.FdOpen fildes → s.fileOf fildes ≠ i
  | _ => False

theorem OtherFile.split {i : Nat} {s : State} {motive : (c : Call) → OtherFile i s c → Prop}
    (create : ∀ name, motive (.create name) trivial) («open» : ∀ name, motive (.open name) trivial)
    (closed : ∀ fildes buf nbyte (hclosed : ¬ s.FdOpen fildes),
      motive (.write fildes buf nbyte) fun h => absurd h hclosed)
    (write : ∀ fildes buf nbyte (_ : s.FdOpen fildes) (hc : s.fileOf fildes ≠ i),
      motive (.write fildes buf nbyte) fun _ => hc)
    (c : Call) (hc : OtherFile i s c) : motive c hc := by
  cases c with
  | create name => exact create name
  | «open» name => exact «open» name
  | write fildes buf nbyte =>
    by_cases hopen : s.FdOpen fildes
    · exact write fildes buf nbyte hopen (hc hopen)
    · exact closed fildes buf nbyte hopen
  | _ => exact hc.elim

/-- No run of such calls is given a block that inode `i` names: `new` is what the run adds
to the record of requests. -/
def NeverGiven (i : Nat) (s : State) : Prop :=
  ∀ cs new, RunOk step (OtherFile i) s cs → (run step s cs).dev.trace = new ++ s.dev.trace →
    ∀ sl, s.ref (i, sl) ≠ 0 → Event.found (s.ref (i, sl)) ∉ new

theorem fsWrite_grows (s : State) (fildes : Int) (buf : Nat → UInt8) (nbyte : Nat) :
    Grows s.dev (fsWrite s fildes buf nbyte).2.dev := by
  have hw := writeBlocks_wrote buf (writeRequest (s.fd fildes).offset nbyte)
    (s.fd fildes).offset.toNat s.dev (s.inodeOf fildes)
  rcases fsWrite_cases s fildes buf nbyte with
    h | ⟨-, -, -, -, ⟨v, ho, h⟩ | ⟨e, ho, -, h⟩ | ⟨e, ho, -, h⟩⟩
  · rw [h]
    exact Grows.refl _
  · rw [h]
    exact (hw.of_ok ho).grows
  · rw [h]
    exact (hw.of_error ho).grows
  · rw [h]
    exact (hw.of_error ho).grows

theorem OtherFile.grows {i : Nat} {c : Call} (hc : OtherFile i s c) :
    Grows s.dev (step s c).2.dev := by
  cases c, hc using OtherFile.split with
  | create name =>
    obtain ⟨r, t, bits, h, -⟩ := fsCreate_frame s name
    rw [step, h]
    exact Grows.refl _
  | «open» name =>
    rcases fsOpen_cases s name with h | ⟨j, fd, -, -, h⟩ <;>
    · rw [step, h]
      exact Grows.refl _
  | closed fildes buf nbyte => exact fsWrite_grows s fildes buf nbyte
  | write fildes buf nbyte => exact fsWrite_grows s fildes buf nbyte

/-- Blocks that are marked are not handed out. -/
theorem AllMarked.neverGiven (h : AllMarked s) (i : Nat) : NeverGiven i s := by
  intro cs new hcs hnew sl hne hfound
  have hg : Grows s.dev (run step s cs).dev :=
    run_invariant (I := fun t => Grows s.dev t.dev) (fun _ _ ht hc => ht.trans hc.grows) cs s
      (Grows.refl _) hcs
  obtain ⟨new', hnew', hfree⟩ := hg.found
  have hclear := hfree _ hne (by rw [List.append_cancel_right (hnew'.symm.trans hnew)]; exact hfound)
  rw [h _ hne] at hclear
  cases hclear

/-- **When a truncate keeps the blocks of the file.**  In a state whose references are
pairwise distinct and marked, they are marked after `fs_truncate(fildes, length)`, and no
other file is given one of them, exactly when the file has that length already or has no
block behind it. -/
theorem truncate_keeps_blocks_iff (s : State) (fildes length : Int)
    (hrefs : Owned s.ref (fun b => getBit b s.dev.blocksBitmap = true))
    (hfd : 0 ≤ fildes ∧ fildes ≤ 31) (hused : (s.fd fildes).isUsed = true)
    (hlen : 0 ≤ length ∧ length ≤ (s.inodeOf fildes).fileSize.toNat) :
    ((fsTruncate s fildes length).1 = 0 ∧ AllMarked (fsTruncate s fildes length).2 ∧
      NeverGiven (s.fileOf fildes) (fsTruncate s fildes length).2) ↔
    (length = (s.inodeOf fildes).fileSize.toNat ∨
      NothingBehind s.dev (s.inodeOf fildes) length.toNat) := by
  have hmarked : AllMarked s := hrefs.used_of_ne
  rcases fsTruncate_cases s fildes length with ⟨hbad, -⟩ | ⟨-, -, -, heq, h⟩ | ⟨-, -, -, -, hlt, h⟩
  · have := hbad hfd.1 hfd.2 hused hlen.1
    omega
  · rw [h]
    exact ⟨fun _ => Or.inl heq, fun _ => ⟨rfl, hmarked, hmarked.neverGiven _⟩⟩
  · rw [h]
    have href := finishTruncate_ref s fildes.toNat length.toNat
      (truncatedBitmap s.dev (s.inodeOf fildes) length.toNat)
    constructor
    · rintro ⟨-, hall, -⟩
      refine Or.inr ⟨?_, ?_⟩
      · intro hstart
        by_contra hne
        refine truncated_direct s.dev hstart hne ?_
        have := hall (s.fileOf fildes, .direct (startingBlock length.toNat))
        rw [href] at this
        exact this fun h0 => hne (UInt16.toNat_inj.mp h0)
      · intro hstart k
        by_contra hne
        refine truncated_entry s.dev hstart hne ?_
        have := hall (s.fileOf fildes, .entry k)
        rw [href] at this
        exact this fun h0 => hne (UInt16.toNat_inj.mp h0)
    · rintro (heq | hnone)
      · omega
      · have hall : AllMarked (finishTruncate s fildes.toNat length.toNat
            (truncatedBitmap s.dev (s.inodeOf fildes) length.toNat)) := by
          intro x hx
          rw [href] at hx ⊢
          show getBit (s.ref x) (truncatedBitmap s.dev (s.inodeOf fildes) length.toNat) = true
          rw [hnone.bitmap_eq]
          exact hmarked x hx
        exact ⟨rfl, hall, hall.neverGiven _⟩

/-- A file of `n` bytes, open. -/
def bytesInA (n : Nat) : List Call := [.create nameA, .open nameA, .write 0 (fun _ => 7) n]

theorem bytesInA_owned {n : Nat} (hn : n ≤ 2 ^ 20)
    (hfull : Event.found 0 ∉ (run step (fresh zeroDisk) (bytesInA n)).dev.trace) :
    Owned (run step (fresh zeroDisk) (bytesInA n)).ref
      (fun b => getBit b (run step (fresh zeroDisk) (bytesInA n)).dev.blocksBitmap = true) := by
  have hinv : BlockInv (run step (fresh zeroDisk) (bytesInA n)) :=
    run_blockInv zeroDisk ⟨⟨⟨by decide, by decide⟩, trivial⟩,
      ⟨trivial, Or.inl (by decide)⟩, ⟨⟨hn, hfull⟩, trivial⟩, trivial⟩
  exact hinv.oi.owned.mono fun b hb => hb.2.2

/-- Cut inside its second block, the file keeps both blocks. -/
theorem truncate_keeps_blocks_insideBlock :
    (fsTruncate (run step (fresh zeroDisk) (bytesInA 6000)) 0 5000).1 = 0 ∧
    AllMarked (fsTruncate (run step (fresh zeroDisk) (bytesInA 6000)) 0 5000).2 ∧
    NeverGiven 0 (fsTruncate (run step (fresh zeroDisk) (bytesInA 6000)) 0 5000).2 ∧
    (fsTruncate (run step (fresh zeroDisk) (bytesInA 6000)) 0 5000).2.ref (0, .direct 1) = 6 := by
  have heval : Event.found 0 ∉ (run step (fresh zeroDisk) (bytesInA 6000)).dev.trace ∧
      ((run step (fresh zeroDisk) (bytesInA 6000)).fd 0).isUsed = true ∧
      (5000 : Int) ≤ ((run step (fresh zeroDisk) (bytesInA 6000)).inodeOf 0).fileSize.toNat ∧
      ((run step (fresh zeroDisk) (bytesInA 6000)).inodeOf 0).directBlock.get 2 = 0 ∧
      (run step (fresh zeroDisk) (bytesInA 6000)).fileOf 0 = 0 ∧
      (fsTruncate (run step (fresh zeroDisk) (bytesInA 6000)) 0 5000).2.ref (0, .direct 1) = 6 := by
    decide +kernel
  obtain ⟨hfull, hused, hlen, hslot, hfile, hkept⟩ := heval
  have hnone : NothingBehind (run step (fresh zeroDisk) (bytesInA 6000)).dev
      ((run step (fresh zeroDisk) (bytesInA 6000)).inodeOf 0) 5000 :=
    ⟨fun _ => hslot, fun hge => absurd hge (by decide)⟩
  obtain ⟨hret, hmarked, hgiven⟩ := (truncate_keeps_blocks_iff
    (run step (fresh zeroDisk) (bytesInA 6000)) 0 5000 (bytesInA_owned (by decide) hfull)
    (by decide) hused ⟨by decide, hlen⟩).mpr (Or.inr hnone)
  rw [hfile] at hgiven
  exact ⟨hret, hmarked, hgiven, hkept⟩

/-- A file of one byte that is cut to nothing still names its block, which is marked no longer
and is the next one to be handed out. -/
theorem truncate_releases_named_block :
    Owned (run step (fresh zeroDisk) (bytesInA 1)).ref
      (fun b => getBit b (run step (fresh zeroDisk) (bytesInA 1)).dev.blocksBitmap = true) ∧
    (fsTruncate (run step (fresh zeroDisk) (bytesInA 1)) 0 0).1 = 0 ∧
    ¬ AllMarked (fsTruncate (run step (fresh zeroDisk) (bytesInA 1)) 0 0).2 := by
  have heval : Event.found 0 ∉ (run step (fresh zeroDisk) (bytesInA 1)).dev.trace ∧
      (fsTruncate (run step (fresh zeroDisk) (bytesInA 1)) 0 0).1 = 0 ∧
      (fsTruncate (run step (fresh zeroDisk) (bytesInA 1)) 0 0).2.ref (0, .direct 0) ≠ 0 ∧
      ¬ getBit ((fsTruncate (run step (fresh zeroDisk) (bytesInA 1)) 0 0).2.ref (0, .direct 0))
        (fsTruncate (run step (fresh zeroDisk) (bytesInA 1)) 0 0).2.dev.blocksBitmap = true := by
    decide +kernel
  obtain ⟨hfull, hret, hnamed, hclear⟩ := heval
  exact ⟨bytesInA_owned (by decide) hfull, hret, fun h => hclear (h (0, .direct 0) hnamed)⟩

end EC440.FileSystems
