import EC440.FileSystems.Ownership

/-!
# How far a read goes

Only the first block of a read looks at the size of the file.  Behind it the direct
loop asks for the size before each block and then reads the block whole, and the loop
over the table does not ask at all.  So a read can move the cursor past the end of the
file: up to the end of its last direct block, or over all blocks the table names.

`readBlocks_facts` bounds the cursor after a read by the blocks that are there.
`ReadStays` is the exact condition, on the state before the read, under which the cursor
stays inside the file.
-/

namespace EC440.FileSystems

open EC440.Lib

/-- The blocks of the first `n` bytes of a file are there, as far as the inode tells. -/
structure Mapped (ino : Inode) (n : Nat) : Prop where
  direct : ∀ j, j < 25 → 4096 * j < n → ino.directBlock.get j ≠ 0
  table : 102400 < n → ino.singleIndirectBlock ≠ 0

theorem Mapped.mono {ino : Inode} {m n : Nat} (h : Mapped ino n) (hm : m ≤ n) : Mapped ino m :=
  ⟨fun j hj hlt => h.direct j hj (by omega), fun hlt => h.table (by omega)⟩

theorem mapped_zero (ino : Inode) : Mapped ino 0 :=
  ⟨fun _ _ h => absurd h (by omega), fun h => absurd h (by omega)⟩

theorem Mapped.start {ino : Inode} {cursor : Nat} (h : Mapped ino cursor) :
    StartMapped cursor ino :=
  ⟨fun hc hb => h.direct _ hb (by omega), h.table⟩

/-- The number of entries of a table, from `a` to `b`, that name a block. -/
def mappedCount (t : Block) (a b : Nat) : Nat :=
  (List.range' a (b - a)).countP (fun k => get16 t k ≠ 0)

theorem mappedCount_self (t : Block) (a : Nat) : mappedCount t a a = 0 := by
  rw [mappedCount, Nat.sub_self]
  rfl

theorem mappedCount_succ (t : Block) {a b : Nat} (h : a ≤ b) :
    mappedCount t a (b + 1) = mappedCount t a b + (if get16 t b ≠ 0 then 1 else 0) := by
  rw [mappedCount, mappedCount, show b + 1 - a = (b - a) + 1 by omega, List.range'_1_concat,
    List.countP_append, List.countP_singleton, show a + (b - a) = b by omega]
  simp only [decide_eq_true_eq]

theorem mappedCount_le_sub (t : Block) (a b : Nat) : mappedCount t a b ≤ b - a := by
  have := List.countP_le_length (p := fun k => decide (get16 t k ≠ 0)) (l := List.range' a (b - a))
  rwa [List.length_range'] at this

theorem mappedCount_le {t : Block} {m : Nat} (h : ∀ k, m ≤ k → get16 t k = 0) (a b : Nat) :
    mappedCount t a b ≤ m - a := by
  by_cases hab : a ≤ b
  · induction b, hab using Nat.le_induction with
    | base =>
      rw [mappedCount_self]
      omega
    | succ b hb ih =>
      rw [mappedCount_succ t hb]
      by_cases hbm : m ≤ b
      · rw [if_neg (by simpa using h b hbm)]
        omega
      · have hle := mappedCount_le_sub t a b
        split <;> omega
  · rw [mappedCount, show b - a = 0 by omega]
    exact Nat.zero_le _

/-! ### One block -/

variable {dev : Dev} {ino : Inode} {nbyte cursor size : Nat}

theorem firstReadSize_le (nbyte cursor size : Nat) :
    firstReadSize nbyte cursor size ≤ nbyte ∧
      firstReadSize nbyte cursor size ≤ 4096 - cursor % 4096 ∧
      firstReadSize nbyte cursor size ≤ size - cursor ∧
      (firstReadSize nbyte cursor size < nbyte → firstReadSize nbyte cursor size < size - cursor →
        firstReadSize nbyte cursor size = 4096 - cursor % 4096) := by
  rw [firstReadSize]
  split <;> split <;> omega

/-- **What a round of a read does**: it passes over a slot that names no block, and
otherwise reads at most the rest of the first block, or at most a whole one. -/
theorem readBlock_cases (b : UInt16) (v : ReadVars) :
    Ensures (readBlock dev nbyte cursor size b v)
      (fun w => w.i = v.i + 1 ∧
        ((b = 0 ∧ w.bytesRead = v.bytesRead ∧ w.firstBlock = v.firstBlock) ∨
          (b ≠ 0 ∧ b.toNat < 8192 ∧ v.firstBlock = true ∧ w.firstBlock = false ∧
            w.bytesRead = v.bytesRead + firstReadSize nbyte cursor size) ∨
          (b ≠ 0 ∧ b.toNat < 8192 ∧ v.firstBlock = false ∧ w.firstBlock = false ∧
            (w.bytesRead = v.bytesRead + 4096 ∧ v.bytesRead + 4096 ≤ nbyte ∨
              w.bytesRead = nbyte ∧ nbyte < v.bytesRead + 4096))))
      (fun _ => True) := by
  rw [readBlock]
  by_cases hb : b = 0
  · rw [if_pos hb]
    exact ⟨rfl, Or.inl ⟨hb, rfl, rfl⟩⟩
  · rw [if_neg hb]
    by_cases hlt : b.toNat < 8192
    · simp only [blockRead_of_lt dev hlt]
      by_cases hf : v.firstBlock = true
      · rw [if_pos hf]
        exact ⟨rfl, Or.inr (Or.inl ⟨hb, hlt, hf, rfl, rfl⟩)⟩
      · rw [if_neg hf]
        have hf' : v.firstBlock = false := by simpa using hf
        by_cases hlast : nbyte - v.bytesRead < 4096
        · rw [if_pos hlast]
          exact ⟨rfl, Or.inr (Or.inr ⟨hb, hlt, hf', hf', Or.inr ⟨rfl, by omega⟩⟩)⟩
        · rw [if_neg hlast]
          exact ⟨rfl, Or.inr (Or.inr ⟨hb, hlt, hf', hf', Or.inl ⟨rfl, by omega⟩⟩)⟩
    · rw [blockRead_of_ge dev (by omega)]
      trivial

/-! ### The direct blocks -/

/-- The rest of the file ends with the block it is in: either in the block of the cursor,
or at the end of a block, or behind the direct blocks. -/
def EndsWithBlock (cursor size : Nat) : Prop :=
  size ≤ 102400 → size % 4096 = 0 ∨ size - cursor ≤ 4096 - cursor % 4096

/-- The invariant of the loop over the direct blocks.  While the blocks of the file are
there, no round passes over one. -/
structure ReadDirectFacts (ino : Inode) (nbyte cursor size : Nat) (v : ReadVars) : Prop where
  le : v.bytesRead ≤ nbyte
  first : v.firstBlock = true → v.bytesRead = 0
  later : v.firstBlock = false → cursor / 4096 < v.i ∧ v.i ≤ 25 ∧
    cursor + v.bytesRead ≤ 4096 * v.i
  low : cursor / 4096 ≤ v.i
  firstAt : Mapped ino size → v.firstBlock = true → v.i = cursor / 4096
  laterAt : Mapped ino size → v.firstBlock = false → v.bytesRead < nbyte →
    cursor + v.bytesRead < size → cursor + v.bytesRead = 4096 * v.i
  mapped : Mapped ino size → ∀ j, cursor / 4096 ≤ j → j < v.i → ino.directBlock.get j ≠ 0
  stays : Mapped ino size → cursor ≤ size → EndsWithBlock cursor size →
    cursor + v.bytesRead ≤ size

theorem ReadDirectFacts.round {v : ReadVars} (h : ReadDirectFacts ino nbyte cursor size v)
    (hi : v.i < 25) (hlt : v.bytesRead < nbyte) (hsize : v.bytesRead + cursor < size) :
    Ensures (readBlock dev nbyte cursor size (ino.directBlock.get v.i) v)
      (fun w => ReadDirectFacts ino nbyte cursor size w ∧ 25 - w.i < 25 - v.i) (fun _ => True) := by
  have hdir : Mapped ino size → ino.directBlock.get v.i ≠ 0 := by
    intro hm
    refine hm.direct v.i hi ?_
    cases hf : v.firstBlock with
    | true =>
      have := h.firstAt hm hf
      omega
    | false =>
      have := h.laterAt hm hf hlt (by omega)
      omega
  have hfr := firstReadSize_le nbyte cursor size
  have hlow := h.low
  refine (readBlock_cases _ v).mono ?_ (fun _ _ => trivial)
  rintro w ⟨hwi, ⟨hb, hbr, hwf⟩ | ⟨hb, -, hf, hwf, hbr⟩ | ⟨hb, -, hf, hwf, hbr⟩⟩
  · refine ⟨⟨?_, ?_, ?_, by omega, fun hm => absurd hb (hdir hm), fun hm => absurd hb (hdir hm),
      fun hm => absurd hb (hdir hm), fun hm => absurd hb (hdir hm)⟩, by omega⟩
    · rw [hbr]
      exact h.le
    · rw [hwf, hbr]
      exact h.first
    · rw [hwf, hbr, hwi]
      intro hf
      have := h.later hf
      omega
  · have h0 := h.first hf
    have hmapped : Mapped ino size → ∀ j, cursor / 4096 ≤ j → j < w.i →
        ino.directBlock.get j ≠ 0 := by
      intro hm j hj hjw
      have := h.firstAt hm hf
      rw [show j = v.i by omega]
      exact hb
    refine ⟨⟨by omega, ?_, fun _ => by omega, by omega, ?_, ?_,
      hmapped, fun hm hc _ => by omega⟩, by omega⟩
    · intro h1
      rw [hwf] at h1
      exact absurd h1 (by decide)
    · intro _ h1
      rw [hwf] at h1
      exact absurd h1 (by decide)
    · intro hm _
      have := h.firstAt hm hf
      omega
  · have hl := h.later hf
    have hmapped : Mapped ino size → ∀ j, cursor / 4096 ≤ j → j < w.i →
        ino.directBlock.get j ≠ 0 := by
      intro hm j hj hjw
      by_cases hjv : j = v.i
      · rw [hjv]
        exact hb
      · exact h.mapped hm j hj (by omega)
    refine ⟨⟨by omega, ?_, fun _ => by omega, by omega, ?_, ?_, hmapped, ?_⟩, by omega⟩
    · intro h1
      rw [hwf] at h1
      exact absurd h1 (by decide)
    · intro _ h1
      rw [hwf] at h1
      exact absurd h1 (by decide)
    · intro hm _
      have := h.laterAt hm hf hlt (by omega)
      omega
    · intro hm hc hends
      -- the next block ends inside the file
      have heq := h.laterAt hm hf hlt (by omega)
      rw [EndsWithBlock] at hends
      omega

theorem readDirect_facts (dev : Dev) {v : ReadVars} (h : ReadDirectFacts ino nbyte cursor size v) :
    Ensures (readDirect dev ino nbyte cursor size v)
      (fun w => ReadDirectFacts ino nbyte cursor size w ∧
        (25 ≤ w.i ∨ nbyte ≤ w.bytesRead ∨ size ≤ w.bytesRead + cursor)) (fun _ => True) := by
  refine (loop_rule _ _ (ReadDirectFacts ino nbyte cursor size) (fun _ => True)
    (fun v => 25 - v.i) ?_ ?_ 25 v h (by omega)).mono (fun w hw => ⟨hw.1, ?_⟩) (fun _ _ => trivial)
  · intro v _ hc
    simp only [decide_eq_true_eq] at hc
    omega
  · intro v hv hc
    simp only [decide_eq_true_eq] at hc
    exact hv.round (by omega) (by omega) (by omega)
  · have hc := hw.2
    simp only [decide_eq_false_iff_not] at hc
    omega

/-! ### The table -/

/-- The entries of a table from `a` to `b` are blocks of the disk. -/
def EntriesOnDisk (t : Block) (a b : Nat) : Prop :=
  ∀ k, a ≤ k → k < b → get16 t k ≠ 0 → (get16 t k).toNat < 8192

/-- The invariant of the loop over the table, entered at `i0` with `b0` bytes read. -/
structure ReadTableFacts (t : Block) (nbyte cursor size i0 b0 : Nat) (first0 : Bool)
    (v : ReadVars) : Prop where
  le : v.bytesRead ≤ nbyte
  zero : v.firstBlock = true → v.bytesRead = 0
  low : i0 ≤ v.i
  bound : v.bytesRead ≤ b0 + 4096 * mappedCount t i0 v.i
  unread : first0 = true → mappedCount t i0 v.i = 0 → v.firstBlock = true
  read : first0 = true → 0 < mappedCount t i0 v.i → v.firstBlock = false ∧
    v.bytesRead + cursor % 4096 ≤ 4096 * mappedCount t i0 v.i ∧
    v.bytesRead + 4096 ≤ (size - cursor) + 4096 * mappedCount t i0 v.i
  onDisk : EntriesOnDisk t i0 v.i

theorem ReadTableFacts.round {t : Block} {i0 b0 : Nat} {first0 : Bool} {v : ReadVars}
    (h : ReadTableFacts t nbyte cursor size i0 b0 first0 v) :
    Ensures (readBlock dev nbyte cursor size (get16 t v.i) v)
      (fun w => ReadTableFacts t nbyte cursor size i0 b0 first0 w ∧ w.i = v.i + 1)
      (fun _ => True) := by
  have hfr := firstReadSize_le nbyte cursor size
  have hlow := h.low
  have hle := h.le
  have hbound := h.bound
  have hcount := mappedCount_succ t h.low
  refine (readBlock_cases _ v).mono ?_ (fun _ _ => trivial)
  rintro w ⟨hwi, hcase⟩
  have hon : (get16 t v.i ≠ 0 → (get16 t v.i).toNat < 8192) → EntriesOnDisk t i0 w.i := by
    intro hv k hk hkw hne
    by_cases hkv : k = v.i
    · rw [hkv] at hne ⊢
      exact hv hne
    · exact h.onDisk k hk (by omega) hne
  rcases hcase with ⟨hb, hbr, hwf⟩ | ⟨hb, hlt, hf, hwf, hbr⟩ | ⟨hb, hlt, hf, hwf, hbr⟩
  · rw [if_neg (by simpa using hb), Nat.add_zero, ← hwi] at hcount
    refine ⟨⟨by omega, ?_, by omega, by omega, ?_, ?_, hon fun hne => absurd hb hne⟩, hwi⟩
    · rw [hwf, hbr]
      exact h.zero
    · rw [hwf, hcount]
      exact h.unread
    · rw [hwf, hbr, hcount]
      exact h.read
  · rw [if_pos hb, ← hwi] at hcount
    have h0 := h.zero hf
    have hcnt : first0 = true → mappedCount t i0 v.i = 0 := by
      intro hf0
      by_contra hpos
      have := (h.read hf0 (by omega)).1
      rw [hf] at this
      exact absurd this (by decide)
    refine ⟨⟨by omega, ?_, by omega, by omega, fun _ hc => absurd hc (by omega),
      ?_, hon fun _ => hlt⟩, hwi⟩
    · intro h1
      rw [hwf] at h1
      exact absurd h1 (by decide)
    · intro hf0 _
      have := hcnt hf0
      exact ⟨hwf, by omega, by omega⟩
  · rw [if_pos hb, ← hwi] at hcount
    refine ⟨⟨by omega, ?_, by omega, by omega, fun _ hc => absurd hc (by omega),
      ?_, hon fun _ => hlt⟩, hwi⟩
    · intro h1
      rw [hwf] at h1
      exact absurd h1 (by decide)
    · intro hf0 _
      have hpos : 0 < mappedCount t i0 v.i := by
        by_contra hzero
        have := h.unread hf0 (by omega)
        rw [hf] at this
        exact absurd this (by decide)
      have := h.read hf0 hpos
      exact ⟨hwf, by omega, by omega⟩

theorem readTable_facts (dev : Dev) {t : Block} {i0 b0 : Nat} {first0 : Bool} {v : ReadVars}
    (h : ReadTableFacts t nbyte cursor size i0 b0 first0 v) (needed : Nat) (hv : v.i = i0) :
    Ensures (loop (fun v => decide (v.i < needed))
        (fun v => readBlock dev nbyte cursor size (get16 t v.i) v) needed v)
      (fun w => w.i = max i0 needed ∧ ReadTableFacts t nbyte cursor size i0 b0 first0 w)
      (fun _ => True) := by
  refine (loop_rule _ _
    (fun w => ReadTableFacts t nbyte cursor size i0 b0 first0 w ∧ w.i ≤ max i0 needed)
    (fun _ => True) (fun v => needed - v.i) ?_ ?_ needed v ⟨h, by omega⟩ (by omega)).mono ?_
    (fun _ _ => trivial)
  · intro w _ hc
    simp only [decide_eq_true_eq] at hc
    omega
  · intro w hw hc
    simp only [decide_eq_true_eq] at hc
    refine hw.1.round.mono (fun w' hw' => ⟨⟨hw'.1, ?_⟩, ?_⟩) (fun _ _ => trivial)
    · have := hw'.2
      omega
    · have := hw'.2
      omega
  · rintro w ⟨⟨hw, hle⟩, hc⟩
    simp only [decide_eq_false_iff_not] at hc
    have := hw.low
    exact ⟨by omega, hw⟩

/-- A table past its end holds nothing, so it does not matter how far it is read. -/
theorem mappedCount_max (t : Block) (a b : Nat) : mappedCount t a (max a b) = mappedCount t a b := by
  rw [mappedCount, mappedCount, show max a b - a = b - a by omega]

/-! ### The whole read -/

/-- **The cursor stays inside the file** in a read of `nbyte` bytes at `cursor`: the file
has as many left; or the cursor is in the direct blocks, the direct blocks end with the
file, and the blocks of the table that the read comes to lie in the file; or it is behind
them and what the table names from its block on lies in the file.  A read that fails
leaves the cursor alone. -/
def ReadStays (dev : Dev) (ino : Inode) (nbyte cursor size : Nat) : Prop :=
  nbyte ≤ size - cursor ∨ size = cursor ∨
  (cursor / 4096 < 25 ∧ EndsWithBlock cursor size ∧
    (102400 < size → ino.singleIndirectBlock ≠ 0 →
      EntriesOnDisk (dev.disk.get ino.singleIndirectBlock.toNat) 0
        (blocksNeeded (cursor + nbyte - 102400)) →
      102400 + 4096 * mappedCount (dev.disk.get ino.singleIndirectBlock.toNat) 0
        (blocksNeeded (cursor + nbyte - 102400)) ≤ size)) ∨
  (25 ≤ cursor / 4096 ∧ (ino.singleIndirectBlock ≠ 0 →
    EntriesOnDisk (dev.disk.get ino.singleIndirectBlock.toNat) (cursor / 4096)
      (blocksNeeded nbyte) →
    mappedCount (dev.disk.get ino.singleIndirectBlock.toNat) (cursor / 4096)
      (blocksNeeded nbyte) ≤ 1 ∨
    4096 * mappedCount (dev.disk.get ino.singleIndirectBlock.toNat) (cursor / 4096)
      (blocksNeeded nbyte) ≤ size - cursor + cursor % 4096))

/-- What a read has done when it has read `n` bytes. -/
structure ReadFacts (dev : Dev) (ino : Inode) (nbyte cursor size n : Nat) : Prop where
  le : n ≤ nbyte
  mapped : Mapped ino cursor → Mapped ino size → Mapped ino (cursor + n)
  bound : cursor ≤ 2 ^ 20 → (∀ k, 231 ≤ k → tableOf dev.disk ino k = 0) → cursor + n ≤ 2 ^ 20
  stays : Mapped ino size → cursor ≤ size → ReadStays dev ino nbyte cursor size →
    cursor + n ≤ size

theorem ReadDirectFacts.mapped_end {v : ReadVars} (h : ReadDirectFacts ino nbyte cursor size v)
    (hc : Mapped ino cursor) (hs : Mapped ino size) : Mapped ino (cursor + v.bytesRead) := by
  refine ⟨?_, ?_⟩
  · intro j hj hlt
    by_cases hjc : j < cursor / 4096
    · exact hc.direct j hj (by omega)
    · cases hf : v.firstBlock with
      | true =>
        rw [h.first hf] at hlt
        exact hc.direct j hj (by omega)
      | false =>
        have := h.later hf
        exact h.mapped hs j (by omega) (by omega)
  · intro hlt
    cases hf : v.firstBlock with
    | true =>
      rw [h.first hf] at hlt
      exact hc.table (by omega)
    | false =>
      have := h.later hf
      omega

theorem ReadDirectFacts.facts (dev : Dev) {v : ReadVars}
    (h : ReadDirectFacts ino nbyte cursor size v) :
    ReadFacts dev ino nbyte cursor size v.bytesRead := by
  refine ⟨h.le, h.mapped_end, ?_, ?_⟩
  · intro hc _
    cases hf : v.firstBlock with
    | true =>
      rw [h.first hf]
      exact hc
    | false =>
      have := h.later hf
      omega
  · intro hm hcs hstays
    have hle := h.le
    rcases hstays with hn | heq | ⟨-, hends, -⟩ | ⟨hbehind, -⟩
    · omega
    · exact h.stays hm hcs fun _ => Or.inr (by omega)
    · exact h.stays hm hcs hends
    · cases hf : v.firstBlock with
      | true =>
        rw [h.first hf]
        exact hcs
      | false =>
        have := h.later hf
        omega

theorem ReadTableFacts.facts {v w : ReadVars} (h : ReadDirectFacts ino nbyte cursor size v)
    (hlt : v.bytesRead < nbyte) (hs : ino.singleIndirectBlock ≠ 0)
    (hsize : v.bytesRead + cursor < size) (hi : 25 ≤ v.i)
    (hw : ReadTableFacts (dev.disk.get ino.singleIndirectBlock.toNat) nbyte cursor size
      (if cursor / 4096 < 25 then 0 else cursor / 4096) v.bytesRead v.firstBlock w)
    (hwi : w.i = max (if cursor / 4096 < 25 then 0 else cursor / 4096)
      (blocksNeeded (nbyte - v.bytesRead))) :
    ReadFacts dev ino nbyte cursor size w.bytesRead := by
  have hbound := hw.bound
  have hread := hw.read
  have hunread := hw.unread
  have hdisk := hw.onDisk
  rw [hwi, mappedCount_max] at hbound hread hunread
  refine ⟨hw.le, fun hc hm => ⟨?_, fun _ => hs⟩, ?_, ?_⟩
  · intro j hj _
    by_cases hjc : 4096 * j < cursor
    · exact hc.direct j hj hjc
    · exact h.mapped hm j (by omega) (by omega)
  · intro hc hhigh
    have hcount := mappedCount_le (t := dev.disk.get ino.singleIndirectBlock.toNat) (m := 231)
      (fun k hk => by
        have := hhigh k hk
        rwa [tableOf, if_neg hs] at this)
      (if cursor / 4096 < 25 then 0 else cursor / 4096) (blocksNeeded (nbyte - v.bytesRead))
    by_cases hc25 : cursor / 4096 < 25
    · rw [if_pos hc25] at hbound hcount
      cases hf : v.firstBlock with
      | true =>
        have := h.first hf
        omega
      | false =>
        have := h.later hf
        omega
    · rw [if_neg hc25] at hbound hread hcount
      cases hf : v.firstBlock with
      | true =>
        have h0 := h.first hf
        by_cases hpos : 0 < mappedCount (dev.disk.get ino.singleIndirectBlock.toNat)
            (cursor / 4096) (blocksNeeded (nbyte - v.bytesRead))
        · have := hread hf hpos
          omega
        · omega
      | false =>
        have := h.later hf
        omega
  · intro hm hcs hstays
    have hle := hw.le
    rcases hstays with hn | heq | ⟨hc25, -, htab⟩ | ⟨hc25, htab⟩
    · omega
    · omega
    · -- the direct blocks are all read, and the table adds the blocks it names
      have hf : v.firstBlock = false := by
        cases hf : v.firstBlock with
        | true =>
          have := h.firstAt hm hf
          omega
        | false => rfl
      have hat := h.laterAt hm hf hlt (by omega)
      have hlater := h.later hf
      have hrem : cursor + nbyte - 102400 = nbyte - v.bytesRead := by omega
      rw [if_pos hc25] at hbound hdisk
      rw [hrem] at htab
      have := htab (by omega) hs (fun k hk hkn => hdisk k hk (by omega))
      omega
    · have hf : v.firstBlock = true := by
        cases hf : v.firstBlock with
        | true => rfl
        | false =>
          have := h.later hf
          omega
      have h0 := h.first hf
      rw [if_neg (by omega)] at hread hunread hdisk
      rw [h0, Nat.sub_zero] at hread hunread hwi
      have hm := htab hs (fun k hk hkn => hdisk k hk (by omega))
      by_cases hpos : 0 < mappedCount (dev.disk.get ino.singleIndirectBlock.toNat)
          (cursor / 4096) (blocksNeeded nbyte)
      · have := hread hf hpos
        omega
      · have := hw.zero (hunread hf (by omega))
        omega

theorem readDirectFacts_start (ino : Inode) (nbyte cursor size : Nat) (buf : Nat → UInt8) :
    ReadDirectFacts ino nbyte cursor size ⟨buf, 0, cursor / 4096, true⟩ := by
  refine ⟨Nat.zero_le _, fun _ => rfl, fun h => absurd h (by simp), le_refl _, fun _ _ => rfl,
    fun _ h => absurd h (by simp), ?_, fun _ hc _ => hc⟩
  intro _ j hj hlt
  simp only at hlt
  omega

/-- **How far a read goes.** -/
theorem readBlocks_facts (dev : Dev) (ino : Inode) (nbyte cursor size : Nat) (buf : Nat → UInt8) :
    Ensures (readBlocks dev ino nbyte cursor size buf)
      (fun v => ReadFacts dev ino nbyte cursor size v.bytesRead) (fun _ => True) := by
  rw [readBlocks]
  have hd := readDirect_facts dev (readDirectFacts_start ino nbyte cursor size buf)
  cases hr : readDirect dev ino nbyte cursor size ⟨buf, 0, cursor / 4096, true⟩ with
  | error v => trivial
  | ok v =>
    rw [hr] at hd
    obtain ⟨hv, hend⟩ := hd
    simp only [readIndirect]
    by_cases hcond : nbyte - v.bytesRead > 0 ∧ ino.singleIndirectBlock ≠ 0 ∧
        size > v.bytesRead + cursor
    · rw [if_pos hcond]
      by_cases hb : ino.singleIndirectBlock.toNat < 8192
      · simp only [blockRead_of_lt dev hb]
        have hstart : ReadTableFacts (dev.disk.get ino.singleIndirectBlock.toNat) nbyte cursor size
            (if cursor / 4096 < 25 then 0 else cursor / 4096) v.bytesRead v.firstBlock
            { v with i := if cursor / 4096 < 25 then 0 else cursor / 4096 } := by
          refine ⟨hv.le, hv.first, le_refl _, Nat.le_add_right _ _, fun hf _ => hf,
            ?_, fun k hk hlt => absurd hlt (by simp only; omega)⟩
          intro _ hpos
          rw [mappedCount_self] at hpos
          exact absurd hpos (by decide)
        refine (readTable_facts dev hstart (blocksNeeded (nbyte - v.bytesRead)) rfl).mono ?_
          (fun _ _ => trivial)
        rintro w ⟨hwi, hw⟩
        exact hw.facts hv (by omega) hcond.2.1 (by omega) (by omega) hwi
      · simp only [blockRead_of_ge dev (show 8192 ≤ ino.singleIndirectBlock.toNat by omega)]
        trivial
    · rw [if_neg hcond]
      exact hv.facts dev

end EC440.FileSystems
