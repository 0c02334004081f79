import EC440.Lib.Run
import EC440.Tls.Transfer

/-!
# Thread-local storage as private arrays

What the library is for: every thread has an array of bytes of its own.  `specCall` says
so, with a clone that copies an array and nothing shared.  `call_simulates` says that the
pages shared between clones and copied on the first write cannot be told from this.
-/

namespace EC440.Tls

open EC440.Lib

/-! ### The private arrays -/

/-- The array of each thread, when it has one. -/
abbrev Arrays : Type := Nat → Option (List UInt8)

def specCall (a : Arrays) (r : Request) : Answer × Arrays :=
  match r.call with
  | .create size =>
      if size = 0 ∨ (a r.self).isSome then (some (-1, []), a)
      else (some (0, []), Function.update a r.self (some (List.replicate size.toNat 0)))
  | .clone tid =>
      match a r.self, a tid with
      | none, some bytes => (some (0, []), Function.update a r.self (some bytes))
      | _, _ => (some (-1, []), a)
  | .read offset length =>
      match a r.self with
      | none => (some (-1, []), a)
      | some bytes =>
          if offset.toNat + length.toNat ≤ bytes.length then
            (some (0, (bytes.drop offset.toNat).take length.toNat), a)
          else (some (-1, []), a)
  | .write offset length buffer =>
      match a r.self with
      | none => (some (-1, []), a)
      | some bytes =>
          if offset.toNat + length.toNat ≤ bytes.length then
            (some (0, []), Function.update a r.self (some (bytes.take offset.toNat ++
              slice buffer 0 length.toNat ++ bytes.drop (offset.toNat + length.toNat))))
          else (some (-1, []), a)
  | .destroy =>
      (some (if (a r.self).isSome then 0 else -1, []), Function.update a r.self none)

/-- The array of each thread in the registry. -/
def arrays (E : Platform) (s : State) : Arrays := fun tid =>
  match getTls s tid with
  | some (some h) => (s.pairs h).map fun tt => slice (byteAt E s h) 0 tt.tls.size.toNat
  | _ => none

/-- The calls of the theorems below: at most `MAX_THREAD_COUNT` areas are created, a thread with
an area reads and writes inside it, and no area is destroyed. -/
def Fits (E : Platform) (s : State) (r : Request) : Prop :=
  match r.call with
  | .create _ | .clone _ => (call E s r).2.nextPair ≤ maxThreadCount
  | .read offset length | .write offset length _ =>
      ∀ h tt, getTls s r.self = some (some h) → s.pairs h = some tt →
        offset.toNat < tt.tls.size.toNat ∧ offset.toNat + length.toNat ≤ tt.tls.size.toNat
  | .destroy => False

variable {E : Platform} {s s' : State}

theorem length_slice (f : Nat → UInt8) (off len : Nat) : (slice f off len).length = len := by
  rw [slice, List.length_map, List.length_range]

theorem getElem_slice (f : Nat → UInt8) (off len i : Nat) (h : i < (slice f off len).length) :
    (slice f off len)[i] = f (off + i) := by
  simp only [slice, List.getElem_map, List.getElem_range]

/-- A slice of a slice. -/
theorem take_drop_slice (f : Nat → UInt8) {off len n : Nat} (h : off + len ≤ n) :
    ((slice f 0 n).drop off).take len = slice f off len := by
  apply List.ext_getElem
  · rw [List.length_take, List.length_drop, length_slice, length_slice]
    omega
  · intro i h₁ h₂
    rw [List.getElem_take, List.getElem_drop, getElem_slice, getElem_slice, Nat.zero_add]

/-- Writing into the bytes is writing into the slice. -/
theorem slice_write {f g src : Nat → UInt8} {off len n : Nat} (h : off + len ≤ n)
    (hg : ∀ k, g k = if off ≤ k ∧ k < off + len then src (k - off) else f k) :
    (slice f 0 n).take off ++ slice src 0 len ++ (slice f 0 n).drop (off + len) = slice g 0 n := by
  have htake : (slice f 0 n).take off = slice g 0 off := by
    have := take_drop_slice f (show 0 + off ≤ n by omega)
    rw [List.drop_zero] at this
    rw [this]
    apply slice_congr
    intro k hk
    rw [hg, if_neg (by omega)]
  have hsrc : slice src 0 len = slice g (0 + off) len := by
    apply slice_congr
    intro k hk
    rw [hg, if_pos (by omega)]
    congr 1
    omega
  have hdrop : (slice f 0 n).drop (off + len) = slice g (0 + (off + len)) (n - (off + len)) := by
    have := take_drop_slice f (show off + len + (n - (off + len)) ≤ n by omega)
    rw [List.take_of_length_le] at this
    · rw [this]
      apply slice_congr
      intro k hk
      rw [hg, if_neg (by omega)]
      congr 1
      omega
    · rw [List.length_drop, length_slice]
  rw [htake, hsrc, ← slice_append, hdrop, ← slice_append]
  congr 1
  omega

/-! ### Arrays and pairs -/

theorem arrays_of_pair (hI : RegistryInv E s) {h : Nat} {tt : TidTls} (ht : s.pairs h = some tt) :
    arrays E s tt.tid = some (slice (byteAt E s h) 0 tt.tls.size.toNat) := by
  have hget := (getTls_eq_some_iff hI tt.tid h).mpr ⟨tt, ht, rfl⟩
  rw [arrays]
  simp only [hget, ht, Option.map_some]

theorem arrays_eq_none (hI : RegistryInv E s) {tid : Nat}
    (hall : ∀ h tt, s.pairs h = some tt → tt.tid ≠ tid) : arrays E s tid = none := by
  rw [arrays]
  rcases getTls_spec hI.live tid with ⟨hnone, -⟩ | ⟨i, x, tt, hsome, -, ht, htid⟩
  · simp only [hnone]
  · exact absurd htid (hall x tt ht)

/-- A thread has an array, or it has no pair. -/
theorem arrays_cases (hI : RegistryInv E s) (tid : Nat) :
    (∃ h tt, getTls s tid = some (some h) ∧ s.pairs h = some tt ∧ tt.tid = tid ∧
        arrays E s tid = some (slice (byteAt E s h) 0 tt.tls.size.toNat)) ∨
      getTls s tid = some none ∧ (∀ h tt, s.pairs h = some tt → tt.tid ≠ tid) ∧
        arrays E s tid = none := by
  rcases getTls_spec hI.live tid with ⟨hnone, hall⟩ | ⟨i, x, tt, hsome, -, ht, htid⟩
  · have hno : ∀ h tt, s.pairs h = some tt → tt.tid ≠ tid := by
      intro h tt ht
      obtain ⟨i, hi⟩ := hI.registered h tt ht
      exact hall i h tt hi ht
    exact Or.inr ⟨hnone, hno, arrays_eq_none hI hno⟩
  · refine Or.inl ⟨x, tt, hsome, ht, htid, ?_⟩
    rw [← htid]
    exact arrays_of_pair hI ht

/-- The same pairs with the same bytes are the same array. -/
theorem arrays_congr (hI : RegistryInv E s) (hI' : RegistryInv E s') {tid : Nat}
    (hold : ∀ h tt, s.pairs h = some tt → tt.tid = tid → ∃ tt', s'.pairs h = some tt' ∧
      tt'.tid = tid ∧ tt'.tls.size = tt.tls.size ∧ ∀ k, byteAt E s' h k = byteAt E s h k)
    (hnew : ∀ h tt', s'.pairs h = some tt' → tt'.tid = tid →
      ∃ tt, s.pairs h = some tt ∧ tt.tid = tid) :
    arrays E s' tid = arrays E s tid := by
  rcases arrays_cases hI tid with ⟨h, tt, -, ht, htid, harr⟩ | ⟨-, hno, harr⟩
  · obtain ⟨tt', ht', htid', hsize, hbytes⟩ := hold h tt ht htid
    have := arrays_of_pair hI' ht'
    rw [htid'] at this
    rw [this, harr, hsize]
    congr 1
    apply slice_congr
    intro k _
    exact hbytes _
  · rw [harr]
    apply arrays_eq_none hI'
    intro h tt' ht' htid'
    obtain ⟨tt, ht, htid⟩ := hnew h tt' ht' htid'
    exact hno h tt ht htid

/-! ### Creating and cloning -/

section

variable {l : List Nat} {i : Nat} {tt : TidTls}

theorem slot_registerAt (hp : Prepared E s s' l) (hl : tt.tls.pages = l) (x a : Nat) :
    slot (registerAt s' i tt) x a = if x = s.nextPair then l[a]? else slot s x a := by
  rw [slot_eq, slot_eq, pagesOf_registerAt hp hl]
  split
  · rfl
  · rfl

/-- The pages of the other areas keep their bytes. -/
theorem pageBytes_registerAt (hI : RegistryInv E s) (hp : Prepared E s s' l) {p : Nat} {pg : Page}
    (hpg : s.pages p = some pg) : pageBytes (registerAt s' i tt) p = pageBytes s p := by
  obtain ⟨⟨pg', hpg'⟩, hmem⟩ := hp.kept p pg hpg
  obtain ⟨b, hb⟩ := hI.mapped p pg hpg
  have haddr : pg.address = E.mmap p := congrArg Page.address (hI.counted p pg hpg)
  have haddr' : pg'.address = E.mmap p := congrArg Page.address (hp.counted p pg' hpg')
  rw [pageBytes_eq (s := registerAt s' i tt) (m := ⟨.none, b⟩) hpg',
    pageBytes_eq (m := ⟨.none, b⟩) hpg]
  · rw [haddr, hb]
  · rw [haddr']
    exact hmem.trans hb

theorem byteAt_registerAt (hI : RegistryInv E s) (hp : Prepared E s s' l) (hl : tt.tls.pages = l)
    {x : Nat} (hx : x ≠ s.nextPair) (k : Nat) :
    byteAt E (registerAt s' i tt) x k = byteAt E s x k := by
  rw [byteAt, byteAt, slot_registerAt hp hl, if_neg hx]
  cases hq : slot s x (k / E.getpagesize) with
  | none => rfl
  | some q =>
    obtain ⟨hqp, -⟩ := hI.slot_page hq
    rw [Option.elim_some, Option.elim_some, pageBytes_registerAt hI hp hqp]

/-- A new area with the pages of the pair `x` has its bytes. -/
theorem byteAt_clone (hI : RegistryInv E s) (hp : Prepared E s s' l) (hl : tt.tls.pages = l)
    {x : Nat} (hx : pagesOf s x = l) (k : Nat) :
    byteAt E (registerAt s' i tt) s.nextPair k = byteAt E s x k := by
  have hslot : slot (registerAt s' i tt) s.nextPair (k / E.getpagesize) =
      slot s x (k / E.getpagesize) := by
    rw [slot_registerAt hp hl, if_pos rfl, slot_eq, hx]
  rw [byteAt, byteAt, hslot]
  cases hq : slot s x (k / E.getpagesize) with
  | none => rfl
  | some q =>
    obtain ⟨hqp, -⟩ := hI.slot_page hq
    rw [Option.elim_some, Option.elim_some, pageBytes_registerAt hI hp hqp]

/-- A new area is a new array, and no other array changes. -/
theorem arrays_registerAt (hI : RegistryInv E s) (hp : Prepared E s s' l) (hi : freeSlot s = some i)
    (hl : tt.tls.pages = l) (harea : AreaOk E tt)
    (hself : ∀ x tt', s.pairs x = some tt' → tt'.tid ≠ tt.tid) {f : Nat → UInt8}
    (hf : ∀ k, k < tt.tls.size.toNat → byteAt E (registerAt s' i tt) s.nextPair k = f k) :
    arrays E (registerAt s' i tt) =
      Function.update (arrays E s) tt.tid (some (slice f 0 tt.tls.size.toNat)) := by
  have hI' := hI.registerAt hp hi hl harea hself
  have hpairs : ∀ x, (registerAt s' i tt).pairs x =
      if x = s.nextPair then some tt else s.pairs x := pairs_registerAt hp
  funext tid
  by_cases htid : tid = tt.tid
  · subst htid
    rw [Function.update_self, arrays_of_pair hI' (h := s.nextPair) (by rw [hpairs, if_pos rfl])]
    congr 1
    apply slice_congr
    intro k hk
    rw [Nat.zero_add]
    exact hf k hk
  · rw [Function.update_of_ne htid]
    have hfresh := hI.fresh_pair s.nextPair (le_refl _)
    apply arrays_congr hI hI'
    · intro h tt' ht' htid'
      have hne : h ≠ s.nextPair := by
        intro hc
        rw [hc, hfresh] at ht'
        cases ht'
      exact ⟨tt', by rw [hpairs, if_neg hne, ht'], htid', rfl, byteAt_registerAt hI hp hl hne⟩
    · intro h tt' ht' htid'
      rw [hpairs] at ht'
      split at ht'
      · cases ht'
        exact absurd htid'.symm htid
      · exact ⟨tt', ht', htid'⟩

theorem unlocked_registerAt (hu : Unlocked s) (hp : Prepared E s s' l) :
    Unlocked (registerAt s' i tt) := by
  intro m
  have : (registerAt s' i tt).locked = s'.locked := rfl
  rw [this, hp.locked]
  exact hu m

end

/-- The registry stands for these arrays. -/
structure Stands (E : Platform) (s : State) (a : Arrays) : Prop where
  inv : RegistryInv E s
  unlocked : Unlocked s
  arrays_eq : arrays E s = a

theorem register_nextPair (s : State) (self : Nat) (size : UInt32) (n : Nat) (l : List Nat) :
    (register s self size n l).2.nextPair = s.nextPair + 1 := by
  rw [register, appendToArr]
  split
  · rfl
  · rfl

/-- `tls_init` before the first area. -/
theorem Stands.tlsInit {a : Arrays} (h : Stands E s a) :
    ∃ s₁, (if s.isFirstTime then tlsInit E { s with isFirstTime := false } else s) = s₁ ∧
      Stands E s₁ a ∧ s₁.isFirstTime = false ∧ s₁.nextPair = s.nextPair ∧ s₁.pairs = s.pairs := by
  by_cases hf : s.isFirstTime = true
  · rw [if_pos hf]
    refine ⟨_, rfl, ⟨?_, fun _ => rfl, ?_⟩, rfl, rfl, rfl⟩
    · have hI := h.inv
      exact ⟨hI.live, hI.registered, hI.tid_inj, hI.area, hI.held, hI.same_index, hI.counted,
        hI.mapped, hI.memory, hI.fresh_pair, hI.fresh_page, fun _ => rfl, fun _ _ _ => rfl⟩
    · rw [← h.arrays_eq]
      rfl
  · rw [if_neg hf]
    exact ⟨s, rfl, h, by simpa using hf, rfl, rfl⟩

theorem checkTidHasLsa_eq {tid : Nat} {x : Option Nat} (hg : getTls s tid = some x) :
    checkTidHasLsa s tid = some x.isSome := by
  rw [getTls] at hg
  rw [checkTidHasLsa, hg, Option.map_some]

/-- The simulation of a call, from what the code and the arrays do. -/
theorem simulates_of_eq {a b : Arrays} {r : Request} {x : Answer} (hcall : call E s r = (x, s'))
    (hspec : specCall a r = (x, b)) (h : Stands E s' b) :
    (call E s r).1 = (specCall a r).1 ∧ Stands E (call E s r).2 (specCall a r).2 := by
  rw [hcall, hspec]
  exact ⟨rfl, h⟩

theorem create_simulates {a : Arrays} (h : Stands E s a) (self : Nat) (size : UInt32)
    (hfits : Fits E s ⟨self, .create size⟩) :
    (call E s ⟨self, .create size⟩).1 = (specCall a ⟨self, .create size⟩).1 ∧
      Stands E (call E s ⟨self, .create size⟩).2 (specCall a ⟨self, .create size⟩).2 := by
  by_cases hsize : size = 0
  · exact simulates_of_eq (x := some (-1, [])) (by simp [call, tlsCreate, hsize, answer])
      (by simp [specCall, hsize]) h
  rcases arrays_cases h.inv self with ⟨x, tt, hget, -, -, harr⟩ | ⟨hget, hno, harr⟩
  · rw [h.arrays_eq] at harr
    exact simulates_of_eq (x := some (-1, []))
      (by simp [call, tlsCreate, hsize, answer, checkTidHasLsa_eq hget])
      (by simp [specCall, harr]) h
  rw [h.arrays_eq] at harr
  obtain ⟨s₁, hs₁, h₁, hfirst, hnext, hpairs⟩ := h.tlsInit
  have hprep := prepared_mapPages h₁.inv hfirst (numPagesFor E.getpagesize size)
  have hcreate : tlsCreate E s self size = some (register
      (mapPages E (numPagesFor E.getpagesize size) s₁).2 self size
      (numPagesFor E.getpagesize size) (mapPages E (numPagesFor E.getpagesize size) s₁).1) := by
    rw [tlsCreate, if_neg hsize, checkTidHasLsa_eq hget]
    simp only [Option.isSome_none]
    rw [hs₁, createNewTls, if_neg Bool.false_ne_true, h₁.inv.page_size hfirst]
  simp only [Fits, call, hcreate, answer, register_nextPair, hprep.nextPair] at hfits
  obtain ⟨i, hi⟩ := exists_freeSlot h₁.inv (by omega)
  rw [register_eq (by rw [freeSlot_congr hprep.arr, hi])] at hcreate
  obtain ⟨hlist, -, hpages, hzero, -⟩ := mapPages_spec E (numPagesFor E.getpagesize size) s₁
  have harea : AreaOk E ⟨self, ⟨self, size, numPagesFor E.getpagesize size,
      (mapPages E (numPagesFor E.getpagesize size) s₁).1⟩⟩ := by
    refine ⟨rfl, ?_, rfl, ?_⟩
    · apply Nat.pos_of_ne_zero
      intro hc
      exact hsize (UInt32.toNat_inj.mp hc)
    · simp only [hlist, List.length_range']
  have hself : ∀ x tt', s₁.pairs x = some tt' → tt'.tid ≠ self := by
    rw [hpairs]
    exact hno
  refine simulates_of_eq (x := some (0, [])) (congrArg (answer s) hcreate)
    (b := Function.update a self (some (List.replicate size.toNat 0)))
    (by simp [specCall, harr, hsize]) ?_
  refine ⟨h₁.inv.registerAt hprep hi rfl harea hself, unlocked_registerAt h₁.unlocked hprep, ?_⟩
  rw [arrays_registerAt h₁.inv hprep hi rfl harea hself (f := fun _ => 0), h₁.arrays_eq]
  · congr 2
    simp [slice]
  · intro k _
    rw [byteAt, slot_registerAt hprep rfl, if_pos rfl, hlist]
    cases hq : (List.range' s₁.nextPage (numPagesFor E.getpagesize size))[k / E.getpagesize]? with
    | none => rfl
    | some q =>
      have hmem := List.mem_range'_1.mp (List.mem_of_getElem? hq)
      have hq' := hpages q
      rw [if_pos hmem] at hq'
      rw [Option.elim_some, pageBytes_eq (s := registerAt _ _ _) hq' (hzero q hmem.1 hmem.2)]

theorem clone_simulates {a : Arrays} (h : Stands E s a) (self tid : Nat)
    (hfits : Fits E s ⟨self, .clone tid⟩) :
    (call E s ⟨self, .clone tid⟩).1 = (specCall a ⟨self, .clone tid⟩).1 ∧
      Stands E (call E s ⟨self, .clone tid⟩).2 (specCall a ⟨self, .clone tid⟩).2 := by
  rcases arrays_cases h.inv self with ⟨x, tt, hget, -, -, harr⟩ | ⟨hget, hno, harr⟩
  · rw [h.arrays_eq] at harr
    exact simulates_of_eq (x := some (-1, []))
      (by simp [call, tlsClone, answer, checkTidHasLsa_eq hget]) (by simp [specCall, harr]) h
  rw [h.arrays_eq] at harr
  rcases arrays_cases h.inv tid with ⟨x, tt, hget', ht, htid, harr'⟩ | ⟨hget', -, harr'⟩
  · rw [h.arrays_eq] at harr'
    have hprep := prepared_sharePages h.inv ht
    have hclone : tlsClone E s self tid = some (register { s with
        pages := addRefs tt.tls.pages s.pages } self tt.tls.size tt.tls.numPages tt.tls.pages) := by
      rw [tlsClone, checkTidHasLsa_eq hget, checkTidHasLsa_eq hget']
      simp only [Option.isSome_none, Option.isSome_some, createNewTls, if_true, hget', ht]
      rw [sharePages_spec, Option.map_some]
      intro p hp
      rw [← pagesOf_eq ht] at hp
      exact h.inv.held x p hp
    simp only [Fits, call, hclone, answer, register_nextPair] at hfits
    obtain ⟨i, hi⟩ := exists_freeSlot h.inv (by omega)
    rw [register_eq (by rw [freeSlot_congr hprep.arr, hi])] at hclone
    have hareax := h.inv.area x tt ht
    have harea : AreaOk E ⟨self, ⟨self, tt.tls.size, tt.tls.numPages, tt.tls.pages⟩⟩ :=
      ⟨rfl, hareax.size_pos, hareax.numPages, hareax.length⟩
    refine simulates_of_eq (x := some (0, [])) (congrArg (answer s) hclone)
      (b := Function.update a self (some (slice (byteAt E s x) 0 tt.tls.size.toNat)))
      (by simp [specCall, harr, harr']) ?_
    refine ⟨h.inv.registerAt hprep hi rfl harea hno, unlocked_registerAt h.unlocked hprep, ?_⟩
    rw [@arrays_registerAt E s _ _ i
      ⟨self, ⟨self, tt.tls.size, tt.tls.numPages, tt.tls.pages⟩⟩ h.inv hprep hi rfl harea hno
      (byteAt E s x), h.arrays_eq]
    intro k _
    apply byteAt_clone h.inv hprep
    · rfl
    · exact pagesOf_eq ht
  · rw [h.arrays_eq] at harr'
    exact simulates_of_eq (x := some (-1, []))
      (by simp [call, tlsClone, answer, checkTidHasLsa_eq hget, checkTidHasLsa_eq hget'])
      (by simp [specCall, harr, harr']) h

/-! ### Reading and writing -/

/-- Between calls every mapped page is protected. -/
theorem RegistryInv.prot_none (hI : RegistryInv E s) {a : Nat} {m : Mapping} (hm : s.mem a = some m) :
    m.prot = .none := by
  obtain ⟨p, pg, rfl, hp⟩ := hI.memory a m hm
  obtain ⟨b, hb⟩ := hI.mapped p pg hp
  rw [hb] at hm
  cases hm
  rfl

theorem call_read {self : Nat} {offset length : UInt32} {x : Int × List UInt8}
    (h : (machine E).Steps (tlsRead self offset length) s (.ret x) s') :
    call E s ⟨self, .read offset length⟩ = (some x, s') := by
  simp only [call, h.exec_ret]

theorem call_write {self : Nat} {offset length : UInt32} {buffer : Nat → UInt8} {r : Int}
    (h : (machine E).Steps (tlsWrite self offset length buffer) s (.ret r) s') :
    call E s ⟨self, .write offset length buffer⟩ = (some (r, []), s') := by
  simp only [call, h.exec_ret, answer]

theorem read_simulates {a : Arrays} (h : Stands E s a) (self : Nat) (offset length : UInt32)
    (hfits : Fits E s ⟨self, .read offset length⟩) :
    (call E s ⟨self, .read offset length⟩).1 = (specCall a ⟨self, .read offset length⟩).1 ∧
      Stands E (call E s ⟨self, .read offset length⟩).2
        (specCall a ⟨self, .read offset length⟩).2 := by
  rcases arrays_cases h.inv self with ⟨x, tt, hget, ht, -, harr⟩ | ⟨hget, hno, harr⟩
  · rw [h.arrays_eq] at harr
    obtain ⟨hoff, hrange⟩ := hfits x tt hget ht
    obtain ⟨s', hsteps, hr, -⟩ := steps_tlsRead (h.inv.access hget ht hoff hrange)
      (h.inv.readable x) (h.unlocked .read)
    have hs' := hr.eq_self fun b m hm => h.inv.prot_none hm
    rw [hs'] at hsteps
    refine simulates_of_eq (call_read hsteps) (b := a) ?_ h
    simp only [specCall, harr, length_slice, if_pos hrange, take_drop_slice _ hrange]
  · rw [h.arrays_eq] at harr
    have hI := h.inv
    have hsteps : (machine E).Steps (tlsRead self offset length) s (.ret (-1, []))
        { s with pageSize := E.getpagesize } := by
      refine Machine.Steps.act rfl rfl ?_
      exact steps_getTls (s := { s with pageSize := E.getpagesize }) hget _
    refine simulates_of_eq (call_read hsteps) (b := a) (by simp only [specCall, harr]) ?_
    refine ⟨⟨hI.live, hI.registered, hI.tid_inj, hI.area, hI.held, hI.same_index, hI.counted,
      hI.mapped, hI.memory, hI.fresh_pair, hI.fresh_page, fun _ => rfl, hI.started⟩,
      h.unlocked, ?_⟩
    rw [← h.arrays_eq]
    rfl

theorem write_simulates {a : Arrays} (h : Stands E s a) (self : Nat) (offset length : UInt32)
    (buffer : Nat → UInt8) (hfits : Fits E s ⟨self, .write offset length buffer⟩) :
    (call E s ⟨self, .write offset length buffer⟩).1 =
        (specCall a ⟨self, .write offset length buffer⟩).1 ∧
      Stands E (call E s ⟨self, .write offset length buffer⟩).2
        (specCall a ⟨self, .write offset length buffer⟩).2 := by
  rcases arrays_cases h.inv self with ⟨x, tt, hget, ht, htid, harr⟩ | ⟨hget, hno, harr⟩
  · rw [h.arrays_eq] at harr
    obtain ⟨hoff, hrange⟩ := hfits x tt hget ht
    obtain ⟨n, s', hsteps, hw⟩ := steps_tlsWrite (h.inv.access hget ht hoff hrange) h.inv h.unlocked
      buffer
    refine simulates_of_eq (call_write hsteps)
      (b := Function.update a self (some (slice (byteAt E s' x) 0 tt.tls.size.toNat))) ?_ ?_
    · simp only [specCall, harr, length_slice, if_pos hrange]
      rw [slice_write (g := byteAt E s' x) hrange]
      intro k
      rw [hw.bytes]
      simp only [true_and]
    · refine ⟨hw.inv, fun m => by rw [hw.locked]; exact h.unlocked m, ?_⟩
      funext tid
      by_cases htid' : tid = self
      · subst htid'
        have hkey := hw.key x
        rw [ht, Option.map_some] at hkey
        obtain ⟨tt', ht', hk⟩ := Option.map_eq_some_iff.mp hkey
        simp only [key, Prod.mk.injEq] at hk
        have harr' := arrays_of_pair hw.inv ht'
        rw [hk.1, hk.2.2.1, htid] at harr'
        rw [harr', Function.update_self]
      · rw [Function.update_of_ne htid', ← h.arrays_eq]
        apply arrays_congr h.inv hw.inv
        · intro y ty hy hytid
          have hyx : y ≠ x := by
            intro hc
            rw [hc, ht] at hy
            cases hy
            exact htid' (by rw [← hytid, htid])
          refine ⟨ty, by rw [hw.pairs y hyx, hy], hytid, rfl, ?_⟩
          intro k
          rw [hw.bytes, if_neg (fun hc => hyx hc.1)]
        · intro y ty hy hytid
          obtain ⟨ty', hy', hk⟩ := key_eq hw.key hy
          exact ⟨ty', hy', by rw [← hytid]; exact (congrArg Prod.fst hk).symm⟩
  · rw [h.arrays_eq] at harr
    have hsteps : (machine E).Steps (tlsWrite self offset length buffer) s (.ret (-1)) s :=
      steps_getTls hget _
    exact simulates_of_eq (call_write hsteps) (b := a) (by simp only [specCall, harr]) h

/-! ### Runs -/

theorem stands_init (E : Platform) : Stands E init fun _ => none := by
  obtain ⟨hI, hu⟩ := inv_init E
  refine ⟨hI, hu, ?_⟩
  funext tid
  apply arrays_eq_none hI
  intro h tt ht
  cases ht

/-- **Every call does to the registry what it does to private arrays.** -/
theorem call_simulates {a : Arrays} (h : Stands E s a) (r : Request) (hfits : Fits E s r) :
    (call E s r).1 = (specCall a r).1 ∧ Stands E (call E s r).2 (specCall a r).2 := by
  obtain ⟨self, c⟩ := r
  cases c with
  | create size => exact create_simulates h self size hfits
  | clone tid => exact clone_simulates h self tid hfits
  | read offset length => exact read_simulates h self offset length hfits
  | write offset length buffer => exact write_simulates h self offset length buffer hfits
  | destroy => exact absurd hfits id

theorem run_simulates (E : Platform) (rs : List Request)
    (hrun : RunOk (call E) (Fits E) init rs) :
    replies (call E) init rs = replies specCall (fun _ => none) rs ∧
      Stands E (run (call E) init rs) (run specCall (fun _ => none) rs) :=
  replies_eq_of_simulation (R := Stands E) (fun _ _ r h => call_simulates h r) rs _ _
    (stands_init E) hrun

/-- A call changes no array but the caller's. -/
theorem specCall_other (a : Arrays) (r : Request) {tid : Nat} (htid : tid ≠ r.self) :
    (specCall a r).2 tid = a tid := by
  rw [specCall]
  repeat' split
  all_goals first
    | rfl
    | exact Function.update_of_ne htid ..

/-- **Copy on write refines private arrays**: in every run the replies are those of the private
arrays, the registry stands for these arrays, and no call of one thread changes what another
thread reads. -/
theorem copyOnWrite_refines_arrays (E : Platform) (rs : List Request)
    (hrun : RunOk (call E) (Fits E) init rs) :
    replies (call E) init rs = replies specCall (fun _ => none) rs ∧
      arrays E (run (call E) init rs) = run specCall (fun _ => none) rs ∧
      ∀ r, Fits E (run (call E) init rs) r → ∀ tid, tid ≠ r.self →
        arrays E (call E (run (call E) init rs) r).2 tid = arrays E (run (call E) init rs) tid := by
  obtain ⟨hreplies, hstands⟩ := run_simulates E rs hrun
  refine ⟨hreplies, hstands.arrays_eq, ?_⟩
  intro r hfits tid htid
  rw [(call_simulates hstands r hfits).2.arrays_eq, specCall_other _ r htid, hstands.arrays_eq]

/-- A range inside the area the caller is found to have. -/
theorem inside_of_lookup {self x : Nat} {size offset length : UInt32}
    (hget : getTls s self = some (some x))
    (hsize : (s.pairs x).map (fun tt => tt.tls.size) = some size)
    (hoff : offset.toNat < size.toNat) (hrange : offset.toNat + length.toNat ≤ size.toNat) :
    ∀ h tt, getTls s self = some (some h) → s.pairs h = some tt →
      offset.toNat < tt.tls.size.toNat ∧ offset.toNat + length.toNat ≤ tt.tls.size.toNat := by
  intro h tt hget' ht
  rw [hget] at hget'
  cases hget'
  rw [ht, Option.map_some] at hsize
  cases hsize
  exact ⟨hoff, hrange⟩

/-- Pages of 4096 bytes, at addresses one page apart. -/
def fourK : Platform where
  getpagesize := 4096
  mmap n := 4096 * (n + 1)
  pow_two := ⟨12, by decide⟩
  four_k_le := by decide
  lt_int := by decide
  mmap_inj := by
    intro m n h
    omega

/-- Thread 1 makes an area of two pages, thread 2 clones it and writes over the boundary. -/
def cloneAndWrite : List Request :=
  [⟨1, .create 5000⟩, ⟨2, .clone 1⟩, ⟨2, .write 4090 10 fun _ => 7⟩, ⟨1, .read 4090 10⟩]

/-- The sizes and owners the calls of `cloneAndWrite` meet. -/
theorem cloneAndWrite_lookups :
    (call fourK init ⟨1, .create 5000⟩).2.nextPair = 1 ∧
      (run (call fourK) init (cloneAndWrite.take 2)).nextPair = 2 ∧
      getTls (run (call fourK) init (cloneAndWrite.take 2)) 2 = some (some 1) ∧
      ((run (call fourK) init (cloneAndWrite.take 2)).pairs 1).map (fun tt => tt.tls.size) =
        some 5000 ∧
      getTls (run (call fourK) init (cloneAndWrite.take 3)) 1 = some (some 0) ∧
      ((run (call fourK) init (cloneAndWrite.take 3)).pairs 0).map (fun tt => tt.tls.size) =
        some 5000 := by
  decide +kernel

theorem cloneAndWrite_fits : RunOk (call fourK) (Fits fourK) init cloneAndWrite := by
  obtain ⟨hcreate, hclone, hget₂, hsize₂, hget₁, hsize₁⟩ := cloneAndWrite_lookups
  refine ⟨?_, ?_, ?_, ?_, trivial⟩
  · show (call fourK init ⟨1, .create 5000⟩).2.nextPair ≤ maxThreadCount
    rw [hcreate]
    decide
  · show (run (call fourK) init (cloneAndWrite.take 2)).nextPair ≤ maxThreadCount
    rw [hclone]
    decide
  · exact inside_of_lookup hget₂ hsize₂ (by decide) (by decide)
  · exact inside_of_lookup hget₁ hsize₁ (by decide) (by decide)

theorem copyOnWrite_refines_arrays_cloneAndWrite :
    RunOk (call fourK) (Fits fourK) init cloneAndWrite ∧
      replies (call fourK) init cloneAndWrite = replies specCall (fun _ => none) cloneAndWrite :=
  ⟨cloneAndWrite_fits, (copyOnWrite_refines_arrays fourK cloneAndWrite cloneAndWrite_fits).1⟩

/-- Thread 1 makes an area of one page and thread 2 clones it. -/
def createAndClone : List Request := [⟨1, .create 100⟩, ⟨2, .clone 1⟩]

theorem createAndClone_lookups :
    (call fourK init ⟨1, .create 100⟩).2.nextPair = 1 ∧
      (run (call fourK) init createAndClone).nextPair = 2 ∧
      getTls (run (call fourK) init createAndClone) 1 = some (some 0) ∧
      getTls (run (call fourK) init createAndClone) 2 = some (some 1) ∧
      ((run (call fourK) init createAndClone).pairs 0).map (fun tt => tt.tls.size) = some 100 ∧
      ((run (call fourK) init createAndClone).pairs 1).map (fun tt => tt.tls.size) = some 100 ∧
      slot (run (call fourK) init createAndClone) 0 0 = some 0 ∧
      slot (run (call fourK) init createAndClone) 1 0 = some 0 := by
  decide +kernel

theorem createAndClone_fits : RunOk (call fourK) (Fits fourK) init createAndClone := by
  obtain ⟨hcreate, hclone, -⟩ := createAndClone_lookups
  refine ⟨?_, ?_, trivial⟩
  · show (call fourK init ⟨1, .create 100⟩).2.nextPair ≤ maxThreadCount
    rw [hcreate]
    decide
  · show (run (call fourK) init createAndClone).nextPair ≤ maxThreadCount
    rw [hclone]
    decide

/-! ### The invariant of the registry -/

theorem numPagesFor_pos (pageSize : Nat) {size : UInt32} (hsize : size ≠ 0) : 0 < numPagesFor pageSize size := by
  have hpos : 0 < size.toNat := by
    rw [Nat.pos_iff_ne_zero]
    intro hzero
    exact hsize (UInt32.toNat_inj.mp hzero)
  rw [numPagesFor]
  split
  · omega
  · rename_i hle
    split
    · rename_i hmod
      have hps : 0 < pageSize := by
        rw [Nat.pos_iff_ne_zero]
        intro hzero
        rw [hzero, Nat.mod_zero] at hmod
        omega
      exact Nat.div_pos (by omega) hps
    · exact Nat.succ_pos _

theorem numPagesFor_eq_ceil (E : Platform) (size : UInt32) (hsize : 0 < size.toNat) :
    numPagesFor E.getpagesize size = (size.toNat + E.getpagesize - 1) / E.getpagesize ∧
      1 ≤ numPagesFor E.getpagesize size := by
  have hps := E.pos
  have hdm := Nat.div_add_mod size.toNat E.getpagesize
  have hmod := Nat.mod_lt size.toNat hps
  have hne : size ≠ 0 := by
    rintro rfl
    exact absurd hsize (by decide)
  rw [Nat.mul_comm] at hdm
  refine ⟨?_, numPagesFor_pos E.getpagesize hne⟩
  symm
  rw [numPagesFor, Nat.div_eq_iff hps]
  split
  · omega
  · split
    · omega
    · rw [Nat.succ_mul]
      omega

/-- The registry and the pages between two calls. -/
structure RegistryOk (E : Platform) (s : State) : Prop where
  /-- a thread id occurs in one slot at most -/
  tid_inj : ∀ i j h h' tt tt', s.tidTlsArr.get i = some h → s.tidTlsArr.get j = some h' →
    s.pairs h = some tt → s.pairs h' = some tt' → tt.tid = tt'.tid → i = j
  /-- an area has the pages its size needs, all different -/
  area : ∀ i h, s.tidTlsArr.get i = some h → ∃ tt, s.pairs h = some tt ∧
    tt.tls.numPages = (tt.tls.size.toNat + E.getpagesize - 1) / E.getpagesize ∧
    1 ≤ tt.tls.numPages ∧ tt.tls.pages.length = tt.tls.numPages ∧ tt.tls.pages.Nodup ∧
    ∀ p ∈ tt.tls.pages, ∃ pg, s.pages p = some pg
  /-- a page is counted once for each slot of an area that holds it -/
  refCount : ∀ p pg, s.pages p = some pg → pg.refCount = refs (own s) p
  /-- areas that share a page hold it at the same index -/
  same_index : ∀ h h' tt tt' (i j p : Nat), s.pairs h = some tt → s.pairs h' = some tt' →
    tt.tls.pages[i]? = some p → tt'.tls.pages[j]? = some p → i = j
  /-- every mapped page is protected -/
  prot_none : ∀ a m, s.mem a = some m → m.prot = .none

theorem RegistryInv.registryOk (hI : RegistryInv E s) : RegistryOk E s := by
  refine ⟨hI.tid_inj, ?_, ?_, ?_, ?_⟩
  · intro i h hi
    obtain ⟨tt, ht⟩ := hI.live i h hi
    have harea := hI.area h tt ht
    obtain ⟨hceil, hone⟩ := numPagesFor_eq_ceil E tt.tls.size harea.size_pos
    have hpages := pagesOf_eq ht
    refine ⟨tt, ht, by rw [harea.numPages, hceil], by rw [harea.numPages]; exact hone,
      harea.length, ?_, ?_⟩
    · rw [← hpages]
      exact hI.nodup h
    · intro p hp
      rw [← hpages] at hp
      exact hI.held h p hp
  · intro p pg hp
    rw [hI.counted p pg hp]
  · intro h h' tt tt' i j p ht ht' hi hj
    rw [← pagesOf_eq ht] at hi
    rw [← pagesOf_eq ht'] at hj
    exact hI.same_index h h' i j p hi hj
  · intro a m hm
    exact hI.prot_none hm

/-- **Reference counts and protection** are in order in every state between calls. -/
theorem run_registryOk (E : Platform) (rs : List Request)
    (hrun : RunOk (call E) (Fits E) init rs) : RegistryOk E (run (call E) init rs) :=
  (run_simulates E rs hrun).2.inv.registryOk

theorem run_registryOk_cloneAndWrite : RunOk (call fourK) (Fits fourK) init cloneAndWrite ∧
    RegistryOk fourK (run (call fourK) init cloneAndWrite) :=
  ⟨cloneAndWrite_fits, run_registryOk fourK cloneAndWrite cloneAndWrite_fits⟩

end EC440.Tls
