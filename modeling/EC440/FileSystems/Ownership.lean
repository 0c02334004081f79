import EC440.FileSystems.DirectoryInv
import EC440.Lib.Owned

/-!
# Who owns a block

The blocks of the disk are named in three places: the direct slots of an inode, its
indirect slot, and the table in the block that slot names.  `State.ref` reads them
all, and `OI` says that each names a data block of its own that the bitmap marks.

A round of either loop of `fs_write` keeps such an ownership whatever the references of
the other slots are (`writeSlot_owned`), because it writes only to the block of its own
slot, or to block `0`, which is nobody's.
-/

namespace EC440.FileSystems

open EC440.Lib

inductive Slot where
  | direct (j : Nat)
  | table
  | entry (k : Nat)
  deriving DecidableEq

/-- The blocks an inode names when its table is `tab`. -/
def Inode.names (ino : Inode) (tab : Nat → UInt16) : Slot → Nat
  | .direct j => (ino.directBlock.get j).toNat
  | .table => ino.singleIndirectBlock.toNat
  | .entry k => (tab k).toNat

/-- The table of an inode, which is empty when it has none. -/
def tableOf (disk : Disk) (ino : Inode) (k : Nat) : UInt16 :=
  if ino.singleIndirectBlock = 0 then 0
  else get16 (disk.get ino.singleIndirectBlock.toNat) k

/-- The block that slot `x.2` of inode `x.1` names. -/
def State.ref (s : State) (x : Nat × Slot) : Nat :=
  (s.inodeTable.get x.1).names (tableOf s.dev.disk (s.inodeTable.get x.1)) x.2

theorem tableOf_congr (disk : Disk) {ino ino' : Inode}
    (hs : ino'.singleIndirectBlock = ino.singleIndirectBlock) :
    tableOf disk ino' = tableOf disk ino := by
  funext k
  rw [tableOf, tableOf, hs]

/-- Only a table on the disk has entries, and it has 2048. -/
theorem tableOf_ne_zero {disk : Disk} {ino : Inode} {k : Nat} (h : tableOf disk ino k ≠ 0) :
    ino.singleIndirectBlock ≠ 0 ∧ ino.singleIndirectBlock.toNat < 8192 ∧ k < 2048 := by
  have hs : ino.singleIndirectBlock ≠ 0 := fun h0 => h (by rw [tableOf, if_pos h0])
  rw [tableOf, if_neg hs] at h
  refine ⟨hs, ?_, ?_⟩
  · by_contra hge
    rw [Arr.get_of_ge _ (by omega)] at h
    exact h (get16_fill_zero k)
  · by_contra hge
    exact h (get16_of_ge (m := 2048) rfl _ (by omega))

theorem Inode.names_congr {ino ino' : Inode} (tab : Nat → UInt16)
    (hd : ino'.directBlock = ino.directBlock)
    (hs : ino'.singleIndirectBlock = ino.singleIndirectBlock) (sl : Slot) :
    ino'.names tab sl = ino.names tab sl := by
  cases sl with
  | direct j => rw [Inode.names, Inode.names, hd]
  | table => rw [Inode.names, Inode.names, hs]
  | entry k => rfl

/-! When one slot changes, one name does. -/

theorem Inode.names_setDirect (ino : Inode) (tab : Nat → UInt16) {j : Nat} (hj : j < 25)
    (b : UInt16) :
    (ino.setDirect j b).names tab = Function.update (ino.names tab) (.direct j) b.toNat := by
  funext sl
  by_cases hsl : sl = .direct j
  · rw [hsl, Function.update_self]
    show ((ino.directBlock.set j b).get j).toNat = b.toNat
    rw [Arr.get_set_self _ hj]
  · rw [Function.update_of_ne hsl]
    cases sl with
    | direct k =>
      show ((ino.directBlock.set j b).get k).toNat = (ino.directBlock.get k).toNat
      rw [Arr.get_set_ne _ (fun he => hsl (by rw [he]))]
    | table => rfl
    | entry k => rfl

theorem Inode.names_entry (ino : Inode) (t : Block) {k : Nat} (hk : k < 2048) (b : UInt16) :
    ino.names (get16 (set16 t k b))
      = Function.update (ino.names (get16 t)) (.entry k) b.toNat := by
  funext sl
  by_cases hsl : sl = .entry k
  · rw [hsl, Function.update_self]
    show (get16 (set16 t k b) k).toNat = b.toNat
    rw [get16_set16 (m := 2048) rfl, if_pos ⟨rfl, hk⟩]
  · rw [Function.update_of_ne hsl]
    cases sl with
    | direct j => rfl
    | table => rfl
    | entry l =>
      show (get16 (set16 t k b) l).toNat = (get16 t l).toNat
      rw [get16_set16 (m := 2048) rfl, if_neg (fun he => hsl (by rw [he.1]))]

theorem Inode.names_single (ino : Inode) (tab : Nat → UInt16) (b : UInt16) :
    Inode.names { ino with singleIndirectBlock := b } tab
      = Function.update (ino.names tab) .table b.toNat := by
  funext sl
  cases sl with
  | direct j => rw [Function.update_of_ne (by simp)]; rfl
  | table => rw [Function.update_self]; rfl
  | entry k => rw [Function.update_of_ne (by simp)]; rfl

/-- The first five blocks are marked. -/
def Reserved (bitmap : Arr 1024 UInt8) : Prop := ∀ b, b < 5 → getBit b bitmap = true

/-- A data block that is marked. -/
def InUse (bitmap : Arr 1024 UInt8) (b : Nat) : Prop :=
  5 ≤ b ∧ b < 8192 ∧ getBit b bitmap = true

/-- **Block ownership.**  The first five blocks are marked, every block an inode names
is a marked data block that no other slot names, and an inode that is not in use names
none. -/
structure OI (s : State) : Prop where
  reserved : Reserved s.dev.blocksBitmap
  owned : Owned s.ref (InUse s.dev.blocksBitmap)
  unused : ∀ i, i < 64 → getBit i s.inodesBitmap = false →
    (∀ j, (s.inodeTable.get i).directBlock.get j = 0) ∧
      (s.inodeTable.get i).singleIndirectBlock = 0

theorem Reserved.setBit {bitmap : Arr 1024 UInt8} (h : Reserved bitmap) (o : Nat) :
    Reserved (setBit o bitmap) := by
  intro b hb
  rw [getBit_setBit, h b hb, Bool.or_true]

theorem InUse.setBit {bitmap : Arr 1024 UInt8} {b : Nat} (h : InUse bitmap b) (o : Nat) :
    InUse (setBit o bitmap) b := by
  refine ⟨h.1, h.2.1, ?_⟩
  rw [getBit_setBit, h.2.2, Bool.or_true]

/-- A block that `find_free_bit` finds is a data block that was not in use. -/
theorem findFreeBit_data {bitmap : Arr 1024 UInt8} (h : Reserved bitmap)
    (hf : findFreeBit bitmap ≠ 0) :
    5 ≤ (findFreeBit bitmap).toNat ∧ ¬ InUse bitmap (findFreeBit bitmap).toNat ∧
      InUse (setBit (findFreeBit bitmap).toNat bitmap) (findFreeBit bitmap).toNat := by
  obtain ⟨hlt, hfree, -⟩ := findFreeBit_spec hf
  have h5 : 5 ≤ (findFreeBit bitmap).toNat := by
    by_contra hlow
    rw [h _ (by omega)] at hfree
    exact absurd hfree (by decide)
  refine ⟨h5, ?_, h5, hlt, ?_⟩
  · intro hu
    rw [hu.2.2] at hfree
    exact absurd hfree (by decide)
  · rw [getBit_setBit, decide_eq_true rfl, Bool.true_and,
      decide_eq_true (show (findFreeBit bitmap).toNat < 8 * 1024 by omega), Bool.true_or]

/-! ### A round of a loop -/

section Round

variable {ι : Type} [DecidableEq ι] {ref : ι → Nat} {x : ι} {dev : Dev} {slot : UInt16}

/-- **A round keeps ownership**, whatever the references of the other slots are: it
writes to the block of its own slot, and takes a block for it only when that block is
nobody's. -/
theorem writeSlot_owned (buf : Nat → UInt8) (nbyte cursor pos : Nat) (data : Block × Nat)
    (firstBlock : Bool) (hres : Reserved dev.blocksBitmap)
    (h : Owned ref (InUse dev.blocksBitmap)) (hx : ref x = slot.toNat) :
    Ensures (writeSlot buf nbyte cursor pos data firstBlock dev slot)
      (fun r => Reserved r.1.blocksBitmap ∧
        Owned (Function.update ref x r.2.1.toNat) (InUse r.1.blocksBitmap) ∧
        (∀ y, y ≠ x → ref y ≠ 0 → r.1.disk.get (ref y) = dev.disk.get (ref y)) ∧
        (∀ c, Event.wrote c ∈ r.1.trace → Event.wrote c ∈ dev.trace ∨ c = r.2.1.toNat) ∧
        freeCount r.1.blocksBitmap + (if slot = 0 ∧ r.2.1 ≠ 0 then 1 else 0)
          = freeCount dev.blocksBitmap)
      (fun r => r.1 = .noSpace ∧ r.2.1 = dev.full ∧ r.2.2 = slot ∧
        freeCount dev.blocksBitmap = 0) := by
  have hself : Function.update ref x slot.toNat = ref := by rw [← hx, Function.update_eq_self]
  have hmine : ∀ y, y ≠ x → ref y ≠ 0 → ref y ≠ slot.toNat := by
    intro y hyx hy
    rw [← hx]
    exact h.ne hy hyx
  rcases writeSlot_cases buf nbyte cursor pos data firstBlock dev slot with
    ⟨-, -, -, hr⟩ | ⟨-, hs, hf, hr⟩ | ⟨-, hs, -, hr⟩ | ⟨-, -, hf, hr⟩ | ⟨hb, -⟩
  · rw [hr]
    refine ⟨hres, by rw [hself]; exact h, fun y hyx hy => Arr.get_set_ne _ (hmine y hyx hy) _,
      ?_, ?_⟩
    · intro c hc
      rcases List.mem_cons.mp hc with he | hin
      · exact Or.inr (by cases he; rfl)
      · exact Or.inl hin
    · rw [if_neg (fun hc => hc.2 hc.1), Dev.store_blocksBitmap, Nat.add_zero]
  · obtain ⟨h5, hnot, hin⟩ := findFreeBit_data hres hf
    rw [hr]
    refine ⟨hres.setBit _, h.claim hnot (by omega) (fun b hb => hb.setBit _) hin x,
      fun y _ _ => Arr.get_set_ne _ (h.ne_of_unused hnot (by omega) y) _, ?_, ?_⟩
    · intro c hc
      simp only [Dev.store_trace, Dev.take_trace, List.mem_cons, reduceCtorEq, false_or] at hc
      rcases hc with he | hin
      · exact Or.inr (by cases he; rfl)
      · exact Or.inl hin
    · rw [if_pos ⟨hs, hf⟩]
      exact freeCount_setBit (findFreeBit_spec hf).1 (findFreeBit_spec hf).2.1
  · rw [hr]
    refine ⟨hres, by rw [hself]; exact h, fun y hyx hy => Arr.get_set_ne _ (hmine y hyx hy) _,
      ?_, ?_⟩
    · intro c hc
      rcases List.mem_cons.mp hc with he | hin
      · exact Or.inr (by cases he; rfl)
      · exact Or.inl hin
    · rw [if_neg (fun hc => hs hc.1), Dev.store_blocksBitmap, Nat.add_zero]
  · rw [hr]
    exact ⟨rfl, rfl, rfl, freeCount_of_findFreeBit_eq_zero (hres 0 (by omega)) hf⟩
  · have hne : ref x ≠ 0 := by omega
    have := (h.used_of_ne x hne).2.1
    omega

end Round

end EC440.FileSystems
