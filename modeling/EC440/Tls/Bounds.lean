import EC440.Tls.Private

/-!
# The bounds of reads and writes

`tls_read` and `tls_write` compare `offset + length` with the size of the area in 32 bits, and fetch the page
of `offset` before they look at `length`.  So a sum that wraps passes the check, and a request of no bytes at
the end of an area of whole pages looks behind the array of pages.  Every other request is answered as it
should be (`bounds_exact_iff`).
-/

namespace EC440.Tls

open EC440.Lib

variable {E : Platform} {s s' : State} {self h : Nat} {tt : TidTls} {offset length : UInt32} {α : Type}

/-- A range inside the area is read, and any other is refused with nothing changed.  A run to the end takes no
index outside of the array of pages. -/
def ReadExact (E : Platform) (s : State) (self : Nat) (size offset length : UInt32) : Prop :=
  if offset.toNat + length.toNat ≤ size.toNat then
    ∃ bytes s', (machine E).exec (tlsRead self offset length) s = some ((0, bytes), s')
  else (machine E).exec (tlsRead self offset length) s = some ((-1, []), s)

def WriteExact (E : Platform) (s : State) (self : Nat) (size offset length : UInt32)
    (buffer : Nat → UInt8) : Prop :=
  if offset.toNat + length.toNat ≤ size.toNat then
    ∃ s', (machine E).exec (tlsWrite self offset length buffer) s = some (0, s')
  else (machine E).exec (tlsWrite self offset length buffer) s = some (-1, s)

/-- The range is inside the area and does not start at the end of the last whole page, or the 32-bit sum is
too large. -/
def Decided (E : Platform) (size offset length : UInt32) : Prop :=
  offset.toNat + length.toNat ≤ size.toNat ∧ ¬ (offset = size ∧ E.getpagesize ∣ size.toNat) ∨
    size.toNat < (offset.toNat + length.toNat) % 2 ^ 32

/-! ### The check -/

theorem gt_size_iff (size : UInt32) :
    offset + length > size ↔ size.toNat < (offset.toNat + length.toNat) % 2 ^ 32 := by
  rw [gt_iff_lt, UInt32.lt_iff_toNat_lt, UInt32.toNat_add]

/-- The start of both programs, up to the first page. -/
theorem exec_check (hget : getTls s self = some (some h)) (ht : s.pairs h = some tt) (e : Prog sig α)
    (k : Nat → Nat → Prog sig α) :
    (machine E).exec (.act (.getTls self) fun (tls : Option Nat) =>
      match tls with
      | none => e
      | some h => .act (.tlsSize h) fun (size : UInt32) =>
          if offset + length > size then e else .act .pageSize fun (pageSize : Nat) => k h pageSize) s =
      if offset + length > tt.tls.size then (machine E).exec e s
      else (machine E).exec (k h s.pageSize) s := by
  rw [(steps_getTls hget _).exec_eq, (steps_tlsSize ht _).exec_eq]
  split
  · rfl
  · rfl

theorem exec_loadSlot (i : Nat) (k : Nat → Prog sig α) :
    (machine E).exec (.act (.loadSlot h i) k) s =
      (slot s h i).bind fun p => (machine E).exec (k p) s := by
  cases hs : slot s h i with
  | none =>
    refine Machine.exec_of_not_safe ?_
    show (slot s h i).isSome = false
    rw [hs]
    rfl
  | some p => rw [(steps_loadSlot hs k).exec_eq, Option.bind_some]

/-- A slot of the area is found below the number of its pages. -/
theorem slot_eq_none_iff (ht : s.pairs h = some tt) (i : Nat) :
    slot s h i = none ↔ tt.tls.pages.length ≤ i := by
  rw [slot_eq, pagesOf_eq ht, List.getElem?_eq_none_iff]

/-- The page of `offset` is missing only at the end of an area of whole pages. -/
theorem numPages_le_iff (E : Platform) {size : UInt32} (hpos : 0 < size.toNat)
    (hoff : offset.toNat ≤ size.toNat) :
    numPagesFor E.getpagesize size ≤ offset.toNat / E.getpagesize ↔
      offset = size ∧ E.getpagesize ∣ size.toNat := by
  have hps := E.pos
  have hle := le_numPagesFor E size
  constructor
  · intro hge
    have hmul := Nat.mul_le_mul_right E.getpagesize hge
    have hdiv := Nat.div_mul_le_self offset.toNat E.getpagesize
    have hend : offset.toNat = size.toNat := by omega
    refine ⟨UInt32.toNat_inj.mp hend, ?_⟩
    -- the pages up to `offset` are whole
    exact ⟨offset.toNat / E.getpagesize, by rw [Nat.mul_comm]; omega⟩
  · rintro ⟨rfl, hdvd⟩
    have hge : E.getpagesize ≤ offset.toNat := Nat.le_of_dvd hpos hdvd
    rw [numPagesFor, if_neg (by omega), if_pos (Nat.mod_eq_zero_of_dvd hdvd)]

/-! ### Reads -/

/-- `tls_read` from its first page on, with the lock held. -/
def readFrom (E : Platform) (h : Nat) (offset length : UInt32) (p : Nat) : Prog sig (Int × List UInt8) :=
  if length.toNat > E.getpagesize - offset.toNat % E.getpagesize then
    readSegment p (offset.toNat % E.getpagesize) (E.getpagesize - offset.toNat % E.getpagesize) []
      fun buffer => readLoop E.getpagesize h (offset.toNat / E.getpagesize) length.toNat
        (length.toNat + 1) (E.getpagesize - offset.toNat % E.getpagesize) 1 buffer
  else readSegment p (offset.toNat % E.getpagesize) length.toNat [] readDone

theorem exec_tlsRead (offset length : UInt32) (hps : s.pageSize = E.getpagesize)
    (hl : s.locked .read = false) (hget : getTls s self = some (some h)) (ht : s.pairs h = some tt) :
    (machine E).exec (tlsRead self offset length) s =
      if offset + length > tt.tls.size then some ((-1, []), s)
      else (slot s h (offset.toNat / E.getpagesize)).bind fun p =>
        (machine E).exec (readFrom E h offset length p) (setLock s .read true) := by
  have hset : { s with pageSize := E.getpagesize } = s := by
    rw [← hps]
  have hstart : (machine E).Steps (tlsRead self offset length) s _ { s with pageSize := E.getpagesize } :=
    Machine.Steps.single rfl rfl
  rw [hset] at hstart
  rw [hstart.exec_eq]
  refine (exec_check hget ht _ _).trans ?_
  split
  · rfl
  · rw [exec_loadSlot, hps]
    congr 1
    funext p
    exact (steps_tryLock hl _ _).exec_eq

theorem exec_readDone (buffer : List UInt8) :
    (machine E).exec (readDone buffer) s = some ((0, buffer), setLock s .read false) :=
  (steps_tryUnlock .read (-1, buffer) (.ret (0, buffer))).exec_ret

/-- Past the check a read that comes to its end returns `0`, whatever its range is. -/
theorem readLoop_ret {startPage len : Nat} {x : Int × List UInt8} :
    ∀ (fuel read pageIndex : Nat) (buffer : List UInt8) (s : State), Readable E s h →
      (machine E).exec (readLoop E.getpagesize h startPage len fuel read pageIndex buffer) s = some (x, s') →
      x.1 = 0 := by
  intro fuel
  induction fuel with
  | zero =>
    intro read pageIndex buffer s _ hexec
    rw [readLoop, exec_readDone] at hexec
    cases hexec
    rfl
  | succ fuel ih =>
    intro read pageIndex buffer s hR hexec
    rw [readLoop] at hexec
    split at hexec
    · rw [exec_loadSlot] at hexec
      obtain ⟨p, hp, hexec⟩ := Option.bind_eq_some_iff.mp hexec
      split at hexec
      · obtain ⟨s₁, hsteps, hr, -⟩ := steps_readPage hR hp
          (show 0 + E.getpagesize ≤ E.getpagesize by omega) buffer fun buffer =>
            readLoop E.getpagesize h startPage len fuel (read + E.getpagesize) (pageIndex + 1) buffer
        rw [hsteps.exec_eq] at hexec
        exact ih _ _ _ s₁ (hr.readable hR) hexec
      · obtain ⟨s₁, hsteps, hr, -⟩ := steps_readPage hR hp
          (show 0 + (len - read) ≤ E.getpagesize by omega) buffer readDone
        rw [hsteps.exec_eq, exec_readDone] at hexec
        cases hexec
        rfl
    · rw [exec_readDone] at hexec
      cases hexec
      rfl

theorem readFrom_ret {p : Nat} {x : Int × List UInt8} (hR : Readable E s h)
    (hp : slot s h (offset.toNat / E.getpagesize) = some p)
    (hexec : (machine E).exec (readFrom E h offset length p) s = some (x, s')) : x.1 = 0 := by
  have hmod := Nat.mod_lt offset.toNat E.pos
  rw [readFrom] at hexec
  split at hexec
  · obtain ⟨s₁, hsteps, hr, -⟩ := steps_readPage hR hp
      (show offset.toNat % E.getpagesize + (E.getpagesize - offset.toNat % E.getpagesize) ≤
        E.getpagesize by omega) [] fun buffer =>
          readLoop E.getpagesize h (offset.toNat / E.getpagesize) length.toNat (length.toNat + 1)
            (E.getpagesize - offset.toNat % E.getpagesize) 1 buffer
    rw [hsteps.exec_eq] at hexec
    exact readLoop_ret _ _ _ _ s₁ (hr.readable hR) hexec
  · obtain ⟨s₁, hsteps, -, -⟩ := steps_readPage hR hp
      (show offset.toNat % E.getpagesize + length.toNat ≤ E.getpagesize by omega) [] readDone
    rw [hsteps.exec_eq, exec_readDone] at hexec
    cases hexec
    rfl

/-- A read of no bytes from a page of the area. -/
theorem exec_readFrom_nothing {p : Nat} (hR : Readable E s h)
    (hp : slot s h (offset.toNat / E.getpagesize) = some p) (hlen : length.toNat = 0) :
    ∃ bytes s', (machine E).exec (readFrom E h offset length p) s = some ((0, bytes), s') := by
  have hmod := Nat.mod_lt offset.toNat E.pos
  obtain ⟨s₁, hsteps, -, -⟩ := steps_readPage hR hp
    (show offset.toNat % E.getpagesize + length.toNat ≤ E.getpagesize by omega) [] readDone
  rw [readFrom, if_neg (by omega)]
  exact ⟨_, _, by rw [hsteps.exec_eq, exec_readDone]⟩

/-! ### Writes -/

/-- `tls_write` from its first page on, with the lock held. -/
def writeFrom (E : Platform) (h : Nat) (offset length : UInt32) (buffer : Nat → UInt8) (p : Nat) :
    Prog sig Int :=
  unshare h (offset.toNat / E.getpagesize) p fun currPage =>
    if length.toNat > E.getpagesize - offset.toNat % E.getpagesize then
      writeSegment currPage (offset.toNat % E.getpagesize)
        (E.getpagesize - offset.toNat % E.getpagesize) buffer <|
        writeLoop E.getpagesize h (offset.toNat / E.getpagesize) length.toNat buffer
          (length.toNat + 1) (E.getpagesize - offset.toNat % E.getpagesize) 1
    else writeSegment currPage (offset.toNat % E.getpagesize) length.toNat buffer writeDone

theorem exec_tlsWrite (offset length : UInt32) (hps : s.pageSize = E.getpagesize)
    (hl : s.locked .write = false) (hget : getTls s self = some (some h)) (ht : s.pairs h = some tt) (buffer : Nat → UInt8) :
    (machine E).exec (tlsWrite self offset length buffer) s =
      if offset + length > tt.tls.size then some (-1, s)
      else (slot s h (offset.toNat / E.getpagesize)).bind fun p =>
        (machine E).exec (writeFrom E h offset length buffer p) (setLock s .write true) := by
  refine (exec_check hget ht _ _).trans ?_
  split
  · rfl
  · rw [exec_loadSlot, hps]
    congr 1
    funext p
    exact (steps_tryLock hl _ _).exec_eq

theorem exec_writeDone : (machine E).exec writeDone s = some (0, setLock s .write false) :=
  (steps_tryUnlock .write (-1) (.ret 0)).exec_ret

/-- Past the check a write that comes to its end returns `0`, whatever its range is. -/
theorem writeLoop_ret {startPage len : Nat} {buffer : Nat → UInt8} {x : Int} :
    ∀ (fuel written pageIndex : Nat) (s : State), Writable E s h 0 →
      (machine E).exec (writeLoop E.getpagesize h startPage len buffer fuel written pageIndex) s =
        some (x, s') → x = 0 := by
  intro fuel
  induction fuel with
  | zero =>
    intro written pageIndex s _ hexec
    rw [writeLoop, exec_writeDone] at hexec
    cases hexec
    rfl
  | succ fuel ih =>
    intro written pageIndex s hW hexec
    rw [writeLoop] at hexec
    split at hexec
    · rw [exec_loadSlot] at hexec
      obtain ⟨p, hp, hexec⟩ := Option.bind_eq_some_iff.mp hexec
      by_cases hmore : len - written > E.getpagesize
      · simp only [if_pos hmore] at hexec
        obtain ⟨s₁, hsteps, hw⟩ := steps_writePage hW.inv hW.pageSize hW.copy hp
          (show 0 + E.getpagesize ≤ E.getpagesize by omega) (fun k => buffer (written + k))
          (writeLoop E.getpagesize h startPage len buffer fuel (written + E.getpagesize) (pageIndex + 1))
        rw [hsteps.exec_eq] at hexec
        exact ih _ _ s₁ (hw.writable hW) hexec
      · simp only [if_neg hmore] at hexec
        obtain ⟨s₁, hsteps, -⟩ := steps_writePage hW.inv hW.pageSize hW.copy hp
          (show 0 + (len - written) ≤ E.getpagesize by omega) (fun k => buffer (written + k)) writeDone
        rw [hsteps.exec_eq, exec_writeDone] at hexec
        cases hexec
        rfl
    · rw [exec_writeDone] at hexec
      cases hexec
      rfl

theorem writeFrom_ret {p : Nat} {buffer : Nat → UInt8} {x : Int} (hW : Writable E s h 0)
    (hp : slot s h (offset.toNat / E.getpagesize) = some p)
    (hexec : (machine E).exec (writeFrom E h offset length buffer p) s = some (x, s')) : x = 0 := by
  have hmod := Nat.mod_lt offset.toNat E.pos
  rw [writeFrom] at hexec
  by_cases hmore : length.toNat > E.getpagesize - offset.toNat % E.getpagesize
  · simp only [if_pos hmore] at hexec
    obtain ⟨s₁, hsteps, hw⟩ := steps_writePage hW.inv hW.pageSize hW.copy hp
      (show offset.toNat % E.getpagesize + (E.getpagesize - offset.toNat % E.getpagesize) ≤
        E.getpagesize by omega) buffer
      (writeLoop E.getpagesize h (offset.toNat / E.getpagesize) length.toNat buffer
        (length.toNat + 1) (E.getpagesize - offset.toNat % E.getpagesize) 1)
    rw [hsteps.exec_eq] at hexec
    exact writeLoop_ret _ _ _ s₁ (hw.writable hW) hexec
  · simp only [if_neg hmore] at hexec
    obtain ⟨s₁, hsteps, -⟩ := steps_writePage hW.inv hW.pageSize hW.copy hp
      (show offset.toNat % E.getpagesize + length.toNat ≤ E.getpagesize by omega) buffer writeDone
    rw [hsteps.exec_eq, exec_writeDone] at hexec
    cases hexec
    rfl

/-- A write of no bytes to a page of the area. -/
theorem exec_writeFrom_nothing {p : Nat} (hW : Writable E s h 0)
    (hp : slot s h (offset.toNat / E.getpagesize) = some p) (hlen : length.toNat = 0)
    (buffer : Nat → UInt8) :
    ∃ s', (machine E).exec (writeFrom E h offset length buffer p) s = some (0, s') := by
  have hmod := Nat.mod_lt offset.toNat E.pos
  obtain ⟨s₁, hsteps, -⟩ := steps_writePage hW.inv hW.pageSize hW.copy hp
    (show offset.toNat % E.getpagesize + length.toNat ≤ E.getpagesize by omega) buffer writeDone
  have hless : ¬ length.toNat > E.getpagesize - offset.toNat % E.getpagesize := by omega
  rw [writeFrom]
  simp only [if_neg hless]
  exact ⟨_, by rw [hsteps.exec_eq, exec_writeDone]⟩

/-! ### The bounds -/

/-- A call that is refused by the check, and otherwise goes to the page of `offset`.  Past the check it
succeeds (`ok`) when it comes to an end, which it does inside the area. -/
theorem exact_iff_decided {β : Type} (ok : β → Prop) {fail : β} {r : Option β} {f : Nat → Option β}
    (hnot : ¬ ok fail) (harea : AreaOk E tt) (ht : s.pairs h = some tt)
    (hr : r = if offset + length > tt.tls.size then some fail
      else (slot s h (offset.toNat / E.getpagesize)).bind f)
    (hret : ∀ p x, slot s h (offset.toNat / E.getpagesize) = some p → f p = some x → ok x)
    (hin : offset.toNat + length.toNat ≤ tt.tls.size.toNat →
      ∀ p, slot s h (offset.toNat / E.getpagesize) = some p → ∃ x, f p = some x) :
    (if offset.toNat + length.toNat ≤ tt.tls.size.toNat then ∃ x, r = some x ∧ ok x
      else r = some fail) ↔ Decided E tt.tls.size offset length := by
  have hwrap := Nat.mod_le (offset.toNat + length.toNat) (2 ^ 32)
  by_cases hgt : offset + length > tt.tls.size
  · have hsum := (gt_size_iff tt.tls.size).mp hgt
    rw [if_pos hgt] at hr
    rw [if_neg (by omega)]
    exact iff_of_true hr (.inr hsum)
  · have hsum := (gt_size_iff tt.tls.size).not.mp hgt
    rw [if_neg hgt] at hr
    by_cases hle : offset.toNat + length.toNat ≤ tt.tls.size.toNat
    · rw [if_pos hle, Decided, or_iff_left hsum, and_iff_right hle,
        ← numPages_le_iff E harea.size_pos (by omega), ← harea.numPages, ← harea.length,
        ← slot_eq_none_iff ht]
      cases hs : slot s h (offset.toNat / E.getpagesize) with
      | none =>
        rw [hs] at hr
        rw [hr]
        simp
      | some p =>
        obtain ⟨x, hx⟩ := hin hle p hs
        rw [hs, Option.bind_some, hx] at hr
        exact iff_of_true ⟨x, hr, hret p x hs hx⟩ (by simp)
    · rw [if_neg hle]
      refine iff_of_false ?_ ?_
      · intro hfail
        rw [hr] at hfail
        obtain ⟨p, hp, hx⟩ := Option.bind_eq_some_iff.mp hfail
        exact hnot (hret p fail hp hx)
      · rintro (⟨hle', -⟩ | hsum')
        · exact hle hle'
        · exact hsum hsum'

/-- A range inside the area that does not start inside of it is empty. -/
theorem length_eq_zero {size : UInt32} (hle : offset.toNat + length.toNat ≤ size.toNat)
    (hoff : ¬ offset.toNat < size.toNat) : length.toNat = 0 := by
  omega

theorem readExact_iff (hI : RegistryInv E s) (hu : Unlocked s) (hget : getTls s self = some (some h))
    (ht : s.pairs h = some tt) :
    ReadExact E s self tt.tls.size offset length ↔ Decided E tt.tls.size offset length := by
  have hps := hI.page_size (hI.started h tt ht)
  have heq := exec_tlsRead offset length hps (hu .read) hget ht
  have hR : Readable E (setLock s .read true) h := hI.readable h
  rw [← exact_iff_decided (fun x => x.1.1 = 0) (show (-1 : Int) ≠ 0 by decide) (hI.area h tt ht)
    ht heq ?_ ?_, ReadExact]
  · split
    · constructor
      · rintro ⟨bytes, s', hexec⟩
        exact ⟨_, hexec, rfl⟩
      · rintro ⟨⟨⟨r, bytes⟩, s'⟩, hexec, rfl⟩
        exact ⟨bytes, s', hexec⟩
    · exact Iff.rfl
  · intro p x hp hx
    exact readFrom_ret hR hp hx
  · intro hle p hp
    by_cases hoff : offset.toNat < tt.tls.size.toNat
    · obtain ⟨s', hsteps, -⟩ := steps_tlsRead (hI.access hget ht hoff hle) (hI.readable h) (hu .read)
      have hexec := hsteps.exec_ret
      rw [heq, if_neg (not_gt_size hle), hp] at hexec
      exact ⟨_, hexec⟩
    · obtain ⟨bytes, s', hexec⟩ := exec_readFrom_nothing hR hp (length_eq_zero hle hoff)
      exact ⟨_, hexec⟩

theorem writeExact_iff (hI : RegistryInv E s) (hu : Unlocked s) (hget : getTls s self = some (some h))
    (ht : s.pairs h = some tt) (buffer : Nat → UInt8) :
    WriteExact E s self tt.tls.size offset length buffer ↔ Decided E tt.tls.size offset length := by
  have hps := hI.page_size (hI.started h tt ht)
  have heq := exec_tlsWrite offset length hps (hu .write) hget ht buffer
  have hW : Writable E (setLock s .write true) h 0 := by
    refine ⟨hI.setLock _ _, hps, ?_, fun i hi => absurd hi (Nat.not_lt_zero i)⟩
    simp only [setLock]
    rw [Function.update_of_ne (by decide)]
    exact hu .copy
  rw [← exact_iff_decided (fun x => x.1 = 0) (show (-1 : Int) ≠ 0 by decide) (hI.area h tt ht)
    ht heq ?_ ?_, WriteExact]
  · split
    · constructor
      · rintro ⟨s', hexec⟩
        exact ⟨_, hexec, rfl⟩
      · rintro ⟨⟨r, s'⟩, hexec, rfl⟩
        exact ⟨s', hexec⟩
    · exact Iff.rfl
  · intro p x hp hx
    exact writeFrom_ret hW hp hx
  · intro hle p hp
    by_cases hoff : offset.toNat < tt.tls.size.toNat
    · obtain ⟨n, s', hsteps, -⟩ := steps_tlsWrite (hI.access hget ht hoff hle) hI hu buffer
      have hexec := hsteps.exec_ret
      rw [heq, if_neg (not_gt_size hle), hp] at hexec
      exact ⟨_, hexec⟩
    · obtain ⟨s', hexec⟩ := exec_writeFrom_nothing hW hp (length_eq_zero hle hoff) buffer
      exact ⟨_, hexec⟩

/-- **When the bounds are exact**: in every registry in order, a read and a write by the owner of an area do
what they should just when the range is inside the area and not at the end of an area of whole pages, or the
32-bit sum exceeds the size. -/
theorem bounds_exact_iff (E : Platform) (s : State) (hI : RegistryInv E s) (hu : Unlocked s)
    (self h : Nat) (tt : TidTls) (hget : getTls s self = some (some h)) (ht : s.pairs h = some tt)
    (offset length : UInt32) (buffer : Nat → UInt8) :
    (ReadExact E s self tt.tls.size offset length ↔ Decided E tt.tls.size offset length) ∧
      (WriteExact E s self tt.tls.size offset length buffer ↔ Decided E tt.tls.size offset length) :=
  ⟨readExact_iff hI hu hget ht, writeExact_iff hI hu hget ht buffer⟩

/-- The last byte of an area of 100 bytes. -/
theorem bounds_exact_lastByte :
    ReadExact fourK (run (call fourK) init createAndClone) 1 100 99 1 ∧
      WriteExact fourK (run (call fourK) init createAndClone) 1 100 99 1 fun _ => 7 := by
  obtain ⟨-, -, hget, -, hsize, -⟩ := createAndClone_lookups
  obtain ⟨tt, ht, hsize⟩ := Option.map_eq_some_iff.mp hsize
  obtain ⟨-, hstands⟩ := run_simulates fourK createAndClone createAndClone_fits
  have h := bounds_exact_iff fourK _ hstands.inv hstands.unlocked 1 0 tt hget ht 99 1 fun _ => 7
  rw [hsize] at h
  have hin : Decided fourK 100 99 1 := .inl (by decide)
  exact ⟨h.1.mpr hin, h.2.mpr hin⟩

/-- One byte at the largest offset, where the sum wraps to `0`, and no bytes at the end of an area of one
whole page: both look for a page behind the array. -/
theorem bounds_not_exact :
    ¬ ReadExact fourK (run (call fourK) init [⟨1, .create 100⟩]) 1 100 4294967295 1 ∧
      ¬ ReadExact fourK (run (call fourK) init [⟨1, .create 4096⟩]) 1 4096 4096 0 := by
  obtain ⟨hwrap, hend⟩ :
      ((machine fourK).exec (tlsRead 1 4294967295 1)
        (run (call fourK) init [⟨1, .create 100⟩])).isNone = true ∧
      ((machine fourK).exec (tlsRead 1 4096 0)
        (run (call fourK) init [⟨1, .create 4096⟩])).isNone = true := by decide +kernel
  constructor
  · rw [ReadExact, if_neg (by decide), Option.isNone_iff_eq_none.mp hwrap]
    simp
  · rw [ReadExact, if_pos (by decide), Option.isNone_iff_eq_none.mp hend]
    simp

end EC440.Tls
