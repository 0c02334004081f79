import EC440.Tls.Sharing

/-!
# Whole reads and writes

`tls_read` and `tls_write` go over the pages of an area segment by segment.  Run alone,
with a range inside the area, a read returns the bytes of the range and a write changes
these bytes and no others.  The lemmas about reads ask nothing of the protection a page
has before, so that they serve when another thread has stopped half way.
-/

namespace EC440.Tls

open EC440.Lib

variable {E : Platform} {s s' : State} {h : Nat}

theorem slice_append (f : Nat → UInt8) (off len len' : Nat) :
    slice f off (len + len') = slice f off len ++ slice f (off + len) len' := by
  simp only [slice, List.range_add, List.map_append, List.map_map]
  congr 2
  funext k
  simp only [Function.comp_apply, Nat.add_assoc]

theorem slice_congr {f g : Nat → UInt8} {off off' len : Nat}
    (hfg : ∀ k, k < len → f (off + k) = g (off' + k)) : slice f off len = slice g off' len := by
  apply List.map_congr_left
  intro k hk
  exact hfg k (List.mem_range.mp hk)

/-- The slots of the area of `h` hold mapped pages. -/
def Readable (E : Platform) (s : State) (h : Nat) : Prop :=
  ∀ i p, slot s h i = some p → ∃ pg m, s.pages p = some pg ∧ pg.address = E.mmap p ∧
    s.mem (E.mmap p) = some m

theorem RegistryInv.readable (hI : RegistryInv E s) (h : Nat) : Readable E s h := by
  intro i p hs
  obtain ⟨hp, b, hm⟩ := hI.slot_page hs
  exact ⟨_, _, hp, rfl, hm⟩

/-- From `s` to `s'`, some pages have become protected and nothing else has changed. -/
structure Reprotected (s s' : State) : Prop where
  rest : s' = { s with mem := s'.mem }
  mem : ∀ a, s'.mem a = s.mem a ∨ ∃ m, s.mem a = some m ∧ s'.mem a = some ⟨.none, m.bytes⟩

theorem Reprotected.refl (s : State) : Reprotected s s := ⟨rfl, fun _ => Or.inl rfl⟩

theorem Reprotected.trans {s'' : State} (hr : Reprotected s s') (hr' : Reprotected s' s'') :
    Reprotected s s'' := by
  constructor
  · rw [hr'.rest, hr.rest]
  · intro a
    rcases hr'.mem a with h' | ⟨m', hm', h'⟩
    · rw [h']
      exact hr.mem a
    · rcases hr.mem a with h₁ | ⟨m, hm, h₁⟩
      · exact Or.inr ⟨m', by rw [← h₁, hm'], h'⟩
      · rw [h₁] at hm'
        cases hm'
        exact Or.inr ⟨m, hm, h'⟩

theorem Reprotected.slot_eq (hr : Reprotected s s') (x i : Nat) : slot s' x i = slot s x i := by
  rw [hr.rest]
  rfl

theorem Reprotected.pages_eq (hr : Reprotected s s') : s'.pages = s.pages := by
  rw [hr.rest]

/-- The page at `a` is protected. -/
def Protected (s : State) (a : Nat) : Prop := ∃ b, s.mem a = some ⟨.none, b⟩

theorem Reprotected.protected (hr : Reprotected s s') {a : Nat} (ha : Protected s a) :
    Protected s' a := by
  obtain ⟨b, hb⟩ := ha
  rcases hr.mem a with h' | ⟨m, -, h'⟩
  · exact ⟨b, by rw [h', hb]⟩
  · exact ⟨m.bytes, h'⟩

theorem Reprotected.readable (hr : Reprotected s s') (hR : Readable E s h) : Readable E s' h := by
  intro i p hs
  rw [hr.slot_eq] at hs
  obtain ⟨pg, m, hp, ha, hm⟩ := hR i p hs
  rw [hr.pages_eq]
  rcases hr.mem (E.mmap p) with h' | ⟨m', -, h'⟩
  · exact ⟨pg, m, hp, ha, by rw [h', hm]⟩
  · exact ⟨pg, _, hp, ha, h'⟩

/-- Protecting pages keeps their bytes. -/
theorem Reprotected.byteAt (hr : Reprotected s s') (hR : Readable E s h) (k : Nat) :
    byteAt E s' h k = byteAt E s h k := by
  rw [Tls.byteAt, Tls.byteAt, hr.slot_eq]
  cases hs : slot s h (k / E.getpagesize) with
  | none => rfl
  | some p =>
    obtain ⟨pg, m, hp, ha, hm⟩ := hR _ p hs
    have hp' : s'.pages p = some pg := by rw [hr.pages_eq, hp]
    rw [← ha] at hm
    rw [Option.elim_some, Option.elim_some, pageBytes_eq hp hm]
    rcases hr.mem pg.address with h' | ⟨m', hm', h'⟩
    · rw [pageBytes_eq hp' (by rw [h', hm])]
    · rw [hm] at hm'
      cases hm'
      rw [pageBytes_eq hp' h']

/-- Where every page is protected already, nothing changes. -/
theorem Reprotected.eq_self (hr : Reprotected s s') (hall : ∀ a m, s.mem a = some m → m.prot = .none) :
    s' = s := by
  rw [hr.rest]
  apply State.ext
  · rfl
  · rfl
  · rfl
  · rfl
  · rfl
  · rfl
  · rfl
  · funext a
    rcases hr.mem a with h' | ⟨m, hm, h'⟩
    · exact h'
    · have hprot := hall a m hm
      rw [h', hm]
      cases m
      simp only at hprot
      rw [hprot]
  · rfl

/-! ### Reading -/

/-- **One segment of a read** of the page in slot `i`. -/
theorem steps_readPage (hR : Readable E s h) {i p off len : Nat} (hs : slot s h i = some p)
    (hlen : off + len ≤ E.getpagesize) (buffer : List UInt8)
    (k : List UInt8 → Prog sig (Int × List UInt8)) :
    ∃ s', (machine E).Steps (readSegment p off len buffer k) s
        (k (buffer ++ slice (byteAt E s h) (i * E.getpagesize + off) len)) s' ∧
      Reprotected s s' ∧ Protected s' (E.mmap p) := by
  obtain ⟨pg, m, hp, ha, hm⟩ := hR i p hs
  rw [← ha] at hm ⊢
  have hsteps := steps_readSegment (E := E) hp hm hlen buffer k
  have hbytes : slice m.bytes off len = slice (byteAt E s h) (i * E.getpagesize + off) len := by
    apply slice_congr
    intro k hk
    have hdiv : (i * E.getpagesize + off + k) / E.getpagesize = i := by
      rw [Nat.div_eq_iff E.pos]
      omega
    have hmod : (i * E.getpagesize + off + k) % E.getpagesize = off + k := by
      rw [Nat.add_assoc, Nat.add_comm, Nat.add_mul_mod_self_right, Nat.mod_eq_of_lt (by omega)]
    rw [byteAt, hdiv, hs, Option.elim_some, hmod, pageBytes_eq hp hm]
  rw [hbytes] at hsteps
  refine ⟨_, hsteps, ⟨rfl, ?_⟩, ⟨m.bytes, putMapping_mem⟩⟩
  intro a
  by_cases hap : a = pg.address
  · exact Or.inr ⟨m, by rw [hap, hm], by rw [hap, putMapping_mem]⟩
  · exact Or.inl (putMapping_mem_of_ne hap)

/-- The loop of `tls_read`, from the segment at `offset + read` on. -/
theorem steps_readLoop {startPage offset length n : Nat}
    (hend : offset + length ≤ n * E.getpagesize) :
    ∀ (fuel read pageIndex : Nat) (buffer : List UInt8) (s : State), Readable E s h →
      (∀ i, i < n → ∃ p, slot s h i = some p) →
      (startPage + pageIndex) * E.getpagesize = offset + read → length - read ≤ fuel →
      ∃ s', (machine E).Steps (readLoop E.getpagesize h startPage length fuel read pageIndex buffer) s
          (readDone (buffer ++ slice (byteAt E s h) (offset + read) (length - read))) s' ∧
        Reprotected s s' ∧
        ∀ i p, startPage + pageIndex ≤ i → i * E.getpagesize < offset + length →
          slot s h i = some p → Protected s' (E.mmap p) := by
  intro fuel
  induction fuel with
  | zero =>
    intro read pageIndex buffer s _ _ hpos hfuel
    refine ⟨s, ?_, .refl s, ?_⟩
    · have hzero : length - read = 0 := by omega
      rw [hzero, slice, List.range_zero, List.map_nil, List.append_nil, readLoop]
      exact .refl _ _
    · intro i p hi hlt
      have := Nat.mul_le_mul_right E.getpagesize hi
      omega
  | succ fuel ih =>
    intro read pageIndex buffer s hR hslots hpos hfuel
    have hps := E.pos
    rw [readLoop]
    by_cases hread : read < length
    · rw [if_pos hread]
      have hin : startPage + pageIndex < n := by
        apply Nat.lt_of_mul_lt_mul_right (a := E.getpagesize)
        omega
      obtain ⟨p, hp⟩ := hslots _ hin
      by_cases hmore : length - read > E.getpagesize
      · -- a whole page, and the rest by induction
        obtain ⟨s₁, hsteps, hr, hprot⟩ := steps_readPage hR hp
          (show 0 + E.getpagesize ≤ E.getpagesize by omega) buffer fun buffer => readLoop E.getpagesize h startPage length fuel
            (read + E.getpagesize) (pageIndex + 1) buffer
        rw [hpos, Nat.add_zero] at hsteps
        have hpos' : (startPage + (pageIndex + 1)) * E.getpagesize =
            offset + (read + E.getpagesize) := by
          rw [← Nat.add_assoc, Nat.succ_mul]
          omega
        obtain ⟨s₂, hsteps', hr', hprot'⟩ := ih (read + E.getpagesize) (pageIndex + 1)
          (buffer ++ slice (byteAt E s h) (offset + read) E.getpagesize) s₁ (hr.readable hR)
          (by intro i hi; rw [hr.slot_eq]; exact hslots i hi) hpos' (by omega)
        have hsame : slice (byteAt E s₁ h) (offset + (read + E.getpagesize))
            (length - (read + E.getpagesize)) = slice (byteAt E s h)
              (offset + read + E.getpagesize) (length - (read + E.getpagesize)) := by
          apply slice_congr
          intro k _
          rw [hr.byteAt hR]
          congr 1
          omega
        rw [hsame, List.append_assoc, ← slice_append] at hsteps'
        have hlen : E.getpagesize + (length - (read + E.getpagesize)) = length - read := by omega
        rw [hlen] at hsteps'
        refine ⟨s₂, ?_, hr.trans hr', ?_⟩
        · refine (steps_loadSlot hp _).trans ?_
          rw [if_pos hmore]
          exact hsteps.trans hsteps'
        · intro i q hi hlt hq
          by_cases hi' : i = startPage + pageIndex
          · subst hi'
            rw [hp] at hq
            cases hq
            exact hr'.protected hprot
          · exact hprot' i q (by omega) hlt (by rw [hr.slot_eq, hq])
      · -- the last segment
        obtain ⟨s₁, hsteps, hr, hprot⟩ := steps_readPage hR hp
          (show 0 + (length - read) ≤ E.getpagesize by omega) buffer readDone
        rw [hpos, Nat.add_zero] at hsteps
        refine ⟨s₁, ?_, hr, ?_⟩
        · refine (steps_loadSlot hp _).trans ?_
          rw [if_neg hmore]
          exact hsteps
        · intro i q hi hlt hq
          have hi' : i = startPage + pageIndex := by
            by_contra hne
            have := Nat.mul_le_mul_right E.getpagesize (show startPage + pageIndex + 1 ≤ i by omega)
            rw [Nat.succ_mul] at this
            omega
          subst hi'
          rw [hp] at hq
          cases hq
          exact hprot
    · refine ⟨s, ?_, .refl s, ?_⟩
      · have hzero : length - read = 0 := by omega
        rw [if_neg hread, hzero, slice, List.range_zero, List.map_nil, List.append_nil]
        exact .refl _ _
      · intro i p hi hlt
        have := Nat.mul_le_mul_right E.getpagesize hi
        omega

/-! ### The arguments -/

/-- The pages `create_new_tls` makes are enough for the size. -/
theorem le_numPagesFor (E : Platform) (size : UInt32) :
    size.toNat ≤ numPagesFor E.getpagesize size * E.getpagesize := by
  have hdm := Nat.div_add_mod size.toNat E.getpagesize
  have hmod := Nat.mod_lt size.toNat E.pos
  rw [Nat.mul_comm] at hdm
  rw [numPagesFor]
  split
  · omega
  · split
    · omega
    · rw [Nat.succ_mul]
      omega

/-- A range inside an area passes the check of `tls_read` and `tls_write`. -/
theorem not_gt_size {offset length size : UInt32} (h : offset.toNat + length.toNat ≤ size.toNat) :
    ¬ offset + length > size := by
  have hsize := size.toNat_lt
  rw [gt_iff_lt, UInt32.lt_iff_toNat_lt, UInt32.toNat_add]
  omega

/-- The pages a read or write of the range goes over. -/
def InRange (E : Platform) (s : State) (h : Nat) (offset length : UInt32) (p : Nat) : Prop :=
  ∃ i, offset.toNat / E.getpagesize ≤ i ∧
    (i = offset.toNat / E.getpagesize ∨ i * E.getpagesize < offset.toNat + length.toNat) ∧
    slot s h i = some p

/-- A call by the owner of the area `h`, with a range inside the area. -/
structure Access (E : Platform) (s : State) (tid h : Nat) (offset length : UInt32) : Prop where
  get : getTls s tid = some (some h)
  pageSize : s.pageSize = E.getpagesize
  inside : ∃ tt, s.pairs h = some tt ∧ offset.toNat < tt.tls.size.toNat ∧
    offset.toNat + length.toNat ≤ tt.tls.size.toNat ∧
    tt.tls.size.toNat ≤ tt.tls.pages.length * E.getpagesize

theorem RegistryInv.access (hI : RegistryInv E s) {self : Nat} {tt : TidTls}
    (hget : getTls s self = some (some h)) (ht : s.pairs h = some tt) {offset length : UInt32}
    (hoff : offset.toNat < tt.tls.size.toNat)
    (hrange : offset.toNat + length.toNat ≤ tt.tls.size.toNat) :
    Access E s self h offset length := by
  have harea := hI.area h tt ht
  refine ⟨hget, hI.page_size (hI.started h tt ht), tt, ht, hoff, hrange, ?_⟩
  rw [harea.length, harea.numPages]
  exact le_numPagesFor E tt.tls.size

section

variable {self : Nat} {offset length : UInt32} {α : Type}

/-- The start of both programs: the area, its size and the page size. -/
theorem steps_access (ha : Access E s self h offset length) (e : Prog sig α)
    (k : Nat → Nat → Prog sig α) :
    (machine E).Steps (.act (.getTls self) fun (tls : Option Nat) =>
      match tls with
      | none => e
      | some h => .act (.tlsSize h) fun (size : UInt32) =>
          if offset + length > size then e else .act .pageSize fun (pageSize : Nat) => k h pageSize)
      s (k h E.getpagesize) s := by
  obtain ⟨tt, ht, -, hrange, -⟩ := ha.inside
  refine (steps_getTls ha.get _).trans ?_
  refine (steps_tlsSize ht _).trans ?_
  rw [if_neg (not_gt_size hrange)]
  have hps : (machine E).perform .pageSize s = (E.getpagesize, s) := by
    rw [← ha.pageSize]
    rfl
  refine Machine.Steps.act rfl rfl ?_
  rw [hps]
  exact .refl _ _

theorem Access.slot (ha : Access E s self h offset length) :
    ∃ n, (∀ i, i < n → ∃ p, slot s h i = some p) ∧ offset.toNat < n * E.getpagesize ∧
      offset.toNat + length.toNat ≤ n * E.getpagesize := by
  obtain ⟨tt, ht, hoff, hrange, hle⟩ := ha.inside
  refine ⟨tt.tls.pages.length, ?_, by omega, by omega⟩
  intro i hi
  exact ⟨_, by rw [Tls.slot_eq, pagesOf_eq ht, List.getElem?_eq_getElem hi]⟩

/-- The end of a read gives the lock back. -/
theorem steps_readDone (hl : s.locked .read = false) (hr : Reprotected (setLock s .read true) s')
    (buffer : List UInt8) :
    (machine E).Steps (readDone buffer) s' (.ret (0, buffer)) { s with mem := s'.mem } ∧
      Reprotected s { s with mem := s'.mem } := by
  constructor
  · have hdone := steps_tryUnlock (E := E) (s := s') .read (-1, buffer) (.ret (0, buffer))
    have heq : setLock s' .read false = { s with mem := s'.mem } := by
      rw [hr.rest]
      simp only [setLock, Function.update_idem]
      rw [← hl, Function.update_eq_self]
    rw [heq] at hdone
    exact hdone
  · exact ⟨rfl, hr.mem⟩

/-- The start of a read, up to the first segment. -/
theorem steps_tlsRead_start (ha : Access E s self h offset length) (hl : s.locked .read = false)
    {p : Nat} (hp : slot s h (offset.toNat / E.getpagesize) = some p) :
    (machine E).Steps (tlsRead self offset length) s
      (if length.toNat > E.getpagesize - offset.toNat % E.getpagesize then
        readSegment p (offset.toNat % E.getpagesize)
          (E.getpagesize - offset.toNat % E.getpagesize) [] fun buffer =>
          readLoop E.getpagesize h (offset.toNat / E.getpagesize) length.toNat (length.toNat + 1)
            (E.getpagesize - offset.toNat % E.getpagesize) 1 buffer
      else readSegment p (offset.toNat % E.getpagesize) length.toNat [] readDone)
      (setLock s .read true) := by
  have hset : { s with pageSize := E.getpagesize } = s := by
    rw [← ha.pageSize]
  refine Machine.Steps.act rfl rfl ?_
  show (machine E).Steps _ { s with pageSize := E.getpagesize } _ _
  rw [hset]
  refine (steps_access ha _ _).trans ?_
  refine (steps_loadSlot hp _).trans ?_
  exact steps_tryLock hl _ _

/-- **A read run alone** returns the bytes of its range, and leaves the pages of it protected. -/
theorem steps_tlsRead (ha : Access E s self h offset length) (hR : Readable E s h)
    (hl : s.locked .read = false) :
    ∃ s', (machine E).Steps (tlsRead self offset length) s
        (.ret (0, slice (byteAt E s h) offset.toNat length.toNat)) s' ∧ Reprotected s s' ∧
      ∀ p, InRange E s h offset length p → Protected s' (E.mmap p) := by
  obtain ⟨n, hslots, hoff, hend⟩ := ha.slot
  have hdm := Nat.div_add_mod offset.toNat E.getpagesize
  have hmod := Nat.mod_lt offset.toNat E.pos
  rw [Nat.mul_comm] at hdm
  obtain ⟨p, hp⟩ := hslots _ (Nat.div_lt_of_lt_mul (by rw [Nat.mul_comm]; exact hoff))
  have hstart := steps_tlsRead_start ha hl hp
  have hR' : Readable E (setLock s .read true) h := hR
  have hbytes : byteAt E (setLock s .read true) h = byteAt E s h := rfl
  by_cases hmore : length.toNat > E.getpagesize - offset.toNat % E.getpagesize
  · rw [if_pos hmore] at hstart
    obtain ⟨s₁, hsteps, hr, hprot⟩ := steps_readPage hR' hp
      (show offset.toNat % E.getpagesize + (E.getpagesize - offset.toNat % E.getpagesize) ≤
        E.getpagesize by omega) [] fun buffer =>
          readLoop E.getpagesize h (offset.toNat / E.getpagesize) length.toNat (length.toNat + 1)
            (E.getpagesize - offset.toNat % E.getpagesize) 1 buffer
    rw [hdm, List.nil_append, hbytes] at hsteps
    have hpos : (offset.toNat / E.getpagesize + 1) * E.getpagesize =
        offset.toNat + (E.getpagesize - offset.toNat % E.getpagesize) := by
      rw [Nat.succ_mul]
      omega
    obtain ⟨s₂, hsteps', hr', hprot'⟩ := steps_readLoop hend (length.toNat + 1) _ 1 _ s₁
      (hr.readable hR') (by intro i hi; rw [hr.slot_eq]; exact hslots i hi) hpos (by omega)
    have hsame : slice (byteAt E s₁ h)
        (offset.toNat + (E.getpagesize - offset.toNat % E.getpagesize))
        (length.toNat - (E.getpagesize - offset.toNat % E.getpagesize)) =
        slice (byteAt E s h) (offset.toNat + (E.getpagesize - offset.toNat % E.getpagesize))
          (length.toNat - (E.getpagesize - offset.toNat % E.getpagesize)) := by
      apply slice_congr
      intro k _
      exact hr.byteAt hR' _
    have hlen : (E.getpagesize - offset.toNat % E.getpagesize) +
        (length.toNat - (E.getpagesize - offset.toNat % E.getpagesize)) = length.toNat := by omega
    rw [hsame, ← slice_append, hlen] at hsteps'
    obtain ⟨hdone, hrd⟩ := steps_readDone (E := E) hl (hr.trans hr')
      (slice (byteAt E s h) offset.toNat length.toNat)
    refine ⟨_, hstart.trans (hsteps.trans (hsteps'.trans hdone)), hrd, ?_⟩
    rintro q ⟨i, hi, hor, hq⟩
    by_cases hi' : i = offset.toNat / E.getpagesize
    · subst hi'
      rw [hp] at hq
      cases hq
      exact hr'.protected hprot
    · have hlt : i * E.getpagesize < offset.toNat + length.toNat := by
        rcases hor with h₁ | h₁
        · exact absurd h₁ hi'
        · exact h₁
      exact hprot' i q (by omega) hlt (by rw [hr.slot_eq]; exact hq)
  · rw [if_neg hmore] at hstart
    obtain ⟨s₁, hsteps, hr, hprot⟩ := steps_readPage hR' hp
      (show offset.toNat % E.getpagesize + length.toNat ≤ E.getpagesize by omega) [] readDone
    rw [hdm, List.nil_append, hbytes] at hsteps
    obtain ⟨hdone, hrd⟩ := steps_readDone (E := E) hl hr
      (slice (byteAt E s h) offset.toNat length.toNat)
    refine ⟨_, hstart.trans (hsteps.trans hdone), hrd, ?_⟩
    rintro q ⟨i, hi, hor, hq⟩
    have hi' : i = offset.toNat / E.getpagesize := by
      rcases hor with h₁ | h₁
      · exact h₁
      · by_contra hne
        have := Nat.mul_le_mul_right E.getpagesize
          (show offset.toNat / E.getpagesize + 1 ≤ i by omega)
        rw [Nat.succ_mul] at this
        omega
    subst hi'
    rw [hp] at hq
    cases hq
    exact hprot

/-! ### Writing -/

/-- What a write needs of the state between two segments. -/
structure Writable (E : Platform) (s : State) (h n : Nat) : Prop where
  inv : RegistryInv E s
  pageSize : s.pageSize = E.getpagesize
  copy : s.locked .copy = false
  slots : ∀ i, i < n → ∃ p, slot s h i = some p

theorem Wrote.writable {n lo len top : Nat} {src : Nat → UInt8} (hw : Wrote E s s' h lo len src top)
    (hW : Writable E s h n) : Writable E s' h n := by
  refine ⟨hw.inv, by rw [hw.pageSize, hW.pageSize], by rw [hw.locked, hW.copy], ?_⟩
  intro i hi
  obtain ⟨p, hp⟩ := hW.slots i hi
  obtain ⟨tt, ht⟩ := slot_pair hp
  have hkey := hw.key h
  rw [ht, Option.map_some] at hkey
  obtain ⟨tt', ht', hk⟩ := Option.map_eq_some_iff.mp hkey
  simp only [Tls.key, Prod.mk.injEq] at hk
  rw [slot_eq, pagesOf_eq ht] at hp
  obtain ⟨hlt, -⟩ := List.getElem?_eq_some_iff.mp hp
  refine ⟨tt'.tls.pages[i], ?_⟩
  rw [slot_eq, pagesOf_eq ht', List.getElem?_eq_getElem]

/-- The loop of `tls_write`, from the segment at `offset + written` on. -/
theorem steps_writeLoop {startPage offset length n : Nat} (buffer : Nat → UInt8)
    (hend : offset + length ≤ n * E.getpagesize) :
    ∀ (fuel written pageIndex : Nat) (s : State), Writable E s h n →
      (startPage + pageIndex) * E.getpagesize = offset + written → length - written ≤ fuel →
      ∃ s', (machine E).Steps
          (writeLoop E.getpagesize h startPage length buffer fuel written pageIndex) s writeDone s' ∧
        Wrote E s s' h (offset + written) (length - written) (fun k => buffer (written + k)) n := by
  intro fuel
  induction fuel with
  | zero =>
    intro written pageIndex s hW _ hfuel
    have hzero : length - written = 0 := by omega
    rw [hzero]
    exact ⟨s, .refl _ _, .refl hW.inv h _ _ n⟩
  | succ fuel ih =>
    intro written pageIndex s hW hpos hfuel
    have hps := E.pos
    rw [writeLoop]
    by_cases hwritten : written < length
    · rw [if_pos hwritten]
      have hin : startPage + pageIndex < n := by
        apply Nat.lt_of_mul_lt_mul_right (a := E.getpagesize)
        omega
      obtain ⟨p, hp⟩ := hW.slots _ hin
      by_cases hmore : length - written > E.getpagesize
      · -- a whole page, and the rest by induction
        simp only [if_pos hmore]
        obtain ⟨s₁, hsteps, hw⟩ := steps_writePage hW.inv hW.pageSize hW.copy hp
          (show 0 + E.getpagesize ≤ E.getpagesize by omega) (fun k => buffer (written + k))
          (writeLoop E.getpagesize h startPage length buffer fuel (written + E.getpagesize)
            (pageIndex + 1))
        rw [Nat.add_zero, hpos] at hw
        have hpos' : (startPage + (pageIndex + 1)) * E.getpagesize =
            offset + (written + E.getpagesize) := by
          rw [← Nat.add_assoc, Nat.succ_mul]
          omega
        obtain ⟨s₂, hsteps', hw'⟩ := ih (written + E.getpagesize) (pageIndex + 1) s₁
          (hw.writable hW) hpos' (by omega)
        refine ⟨s₂, (steps_loadSlot hp _).trans (hsteps.trans hsteps'), ?_⟩
        have hlen : E.getpagesize + (length - (written + E.getpagesize)) = length - written := by
          omega
        rw [← hlen]
        apply (hw.mono (show startPage + pageIndex + 1 ≤ n by omega)).trans
        · simp only [Nat.add_assoc] at hw' ⊢
          exact hw'
        · exact le_refl n
      · -- the last segment
        simp only [if_neg hmore]
        obtain ⟨s₁, hsteps, hw⟩ := steps_writePage hW.inv hW.pageSize hW.copy hp
          (show 0 + (length - written) ≤ E.getpagesize by omega) (fun k => buffer (written + k))
          writeDone
        rw [Nat.add_zero, hpos] at hw
        exact ⟨s₁, (steps_loadSlot hp _).trans hsteps, hw.mono (by omega)⟩
    · have hzero : length - written = 0 := by omega
      rw [if_neg hwritten, hzero]
      exact ⟨s, .refl _ _, .refl hW.inv h _ _ n⟩

/-- The start of a write, up to the first segment. -/
theorem steps_tlsWrite_start (ha : Access E s self h offset length) (hl : s.locked .write = false)
    {p : Nat} (hp : slot s h (offset.toNat / E.getpagesize) = some p) (buffer : Nat → UInt8) :
    (machine E).Steps (tlsWrite self offset length buffer) s
      (unshare h (offset.toNat / E.getpagesize) p fun currPage =>
        if length.toNat > E.getpagesize - offset.toNat % E.getpagesize then
          writeSegment currPage (offset.toNat % E.getpagesize)
            (E.getpagesize - offset.toNat % E.getpagesize) buffer <|
            writeLoop E.getpagesize h (offset.toNat / E.getpagesize) length.toNat buffer
              (length.toNat + 1) (E.getpagesize - offset.toNat % E.getpagesize) 1
        else writeSegment currPage (offset.toNat % E.getpagesize) length.toNat buffer writeDone)
      (setLock s .write true) := by
  refine (steps_access ha _ _).trans ?_
  refine (steps_loadSlot hp _).trans ?_
  exact steps_tryLock hl _ _

/-- The state in which a write starts on its first page. -/
theorem Access.writable (ha : Access E s self h offset length) (hI : RegistryInv E s)
    (hu : Unlocked s) {n : Nat} (hslots : ∀ i, i < n → ∃ p, Tls.slot s h i = some p) :
    Writable E (setLock s .write true) h n := by
  refine ⟨hI.setLock _ _, ha.pageSize, ?_, hslots⟩
  simp only [setLock]
  rw [Function.update_of_ne (by decide)]
  exact hu .copy

/-- **A write run alone** changes the bytes of its range. -/
theorem steps_tlsWrite (ha : Access E s self h offset length) (hI : RegistryInv E s)
    (hu : Unlocked s) (buffer : Nat → UInt8) :
    ∃ n s', (machine E).Steps (tlsWrite self offset length buffer) s (.ret 0) s' ∧
      Wrote E s s' h offset.toNat length.toNat buffer n := by
  obtain ⟨n, hslots, hoff, hend⟩ := ha.slot
  have hdm := Nat.div_add_mod offset.toNat E.getpagesize
  have hmod := Nat.mod_lt offset.toNat E.pos
  rw [Nat.mul_comm] at hdm
  have hin := Nat.div_lt_of_lt_mul (by rw [Nat.mul_comm]; exact hoff : offset.toNat < _)
  obtain ⟨p, hp⟩ := hslots _ hin
  have hstart := steps_tlsWrite_start ha (hu .write) hp buffer
  have hW := ha.writable hI hu hslots
  have hdone : ∀ s₁, (machine E).Steps writeDone s₁ (.ret (0 : Int)) (setLock s₁ .write false) := by
    intro s₁
    exact steps_tryUnlock _ _ _
  by_cases hmore : length.toNat > E.getpagesize - offset.toNat % E.getpagesize
  · simp only [if_pos hmore] at hstart
    obtain ⟨s₁, hsteps, hw⟩ := steps_writePage hW.inv hW.pageSize hW.copy hp
      (show offset.toNat % E.getpagesize + (E.getpagesize - offset.toNat % E.getpagesize) ≤
        E.getpagesize by omega) buffer
      (writeLoop E.getpagesize h (offset.toNat / E.getpagesize) length.toNat buffer
        (length.toNat + 1) (E.getpagesize - offset.toNat % E.getpagesize) 1)
    rw [hdm] at hw
    have hpos : (offset.toNat / E.getpagesize + 1) * E.getpagesize =
        offset.toNat + (E.getpagesize - offset.toNat % E.getpagesize) := by
      rw [Nat.succ_mul]
      omega
    obtain ⟨s₂, hsteps', hw'⟩ := steps_writeLoop buffer hend (length.toNat + 1) _ 1 s₁
      (hw.writable hW) hpos (by omega)
    refine ⟨n, _, hstart.trans (hsteps.trans (hsteps'.trans (hdone s₂))), ?_⟩
    have hlen : (E.getpagesize - offset.toNat % E.getpagesize) +
        (length.toNat - (E.getpagesize - offset.toNat % E.getpagesize)) = length.toNat := by omega
    have hboth := (hw.mono (show offset.toNat / E.getpagesize + 1 ≤ n by omega)).trans hw' (le_refl n)
    rw [hlen] at hboth
    exact hboth.unlock (hu .write)
  · simp only [if_neg hmore] at hstart
    obtain ⟨s₁, hsteps, hw⟩ := steps_writePage hW.inv hW.pageSize hW.copy hp
      (show offset.toNat % E.getpagesize + length.toNat ≤ E.getpagesize by omega) buffer writeDone
    rw [hdm] at hw
    exact ⟨_, _, hstart.trans (hsteps.trans (hdone s₁)), hw.unlock (hu .write)⟩

end

end EC440.Tls
