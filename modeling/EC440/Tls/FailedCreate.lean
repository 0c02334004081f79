import EC440.Tls.Private

/-!
# `tls_create` and `tls_clone` that fail

The slot of `tid_tls_arr` is taken last, after the pages were mapped or shared.  With all slots in
use `append_to_arr` fails, and the pages stay mapped and the references stay counted
(`failed_leaves_no_trace_iff`).

The registry is out of order after such a call, so `RegistryInv` does not hold in every state that
can be reached.  `Loose` does: it says just that pairs hold pages that exist, and that pages are
numbered in order.
-/

namespace EC440.Tls

open EC440.Lib

variable {E : Platform} {s s' : State} {known : List Nat} {α : Type}

structure Loose (s : State) : Prop where
  live : SlotsLive s
  pages : ∀ h tt, s.pairs h = some tt →
    tt.tls.pages ≠ [] ∧ ∀ p ∈ tt.tls.pages, ∃ pg, s.pages p = some pg
  fresh : ∀ p, s.nextPage ≤ p → s.pages p = none

/-- The registry, the reference counts and the set of mapped pages are as before. -/
structure Unchanged (s s' : State) : Prop where
  arr : s'.tidTlsArr = s.tidTlsArr
  refCounts : ∀ p, (s'.pages p).map Page.refCount = (s.pages p).map Page.refCount
  mapped : ∀ a, (s'.mem a).isSome = (s.mem a).isSome

/-- The call leaves no trace when it returns `-1`. -/
def LeavesNoTrace (E : Platform) (s : State) (r : Request) : Prop :=
  ∀ bytes s', call E s r = (some (-1, bytes), s') → Unchanged s s'

/-- The thread `t` has an area. -/
def HasArea (s : State) (t : Nat) : Prop :=
  ∃ i h tt, s.tidTlsArr.get i = some h ∧ s.pairs h = some tt ∧ tt.tid = t

/-- The call is refused before anything is made. -/
def Refused (s : State) (r : Request) : Prop :=
  match r.call with
  | .create size => size = 0 ∨ HasArea s r.self
  | .clone tid => HasArea s r.self ∨ ¬ HasArea s tid
  | _ => False

/-! ### Reads and writes -/

/-- The page `p` has been made. -/
def HasPage (s : State) (p : Nat) : Prop := ∃ pg, s.pages p = some pg

/-- The program puts no page into a slot but those `known` and those it has mapped itself. -/
def StoresOwn : List Nat → Prog sig α → Prop
  | _, .ret _ => True
  | known, .act .mapPage k => ∀ q : Nat, StoresOwn (q :: known) (k q)
  | known, .act (.storeSlot _ _ p) k => p ∈ known ∧ StoresOwn known (k ())
  | known, .act _ k => ∀ r, StoresOwn known (k r)

/-- A step that changes no slot of an area and forgets no page. -/
theorem Loose.of_pairs (h : Loose s) (harr : s'.tidTlsArr = s.tidTlsArr)
    (hpairs : s'.pairs = s.pairs)
    (hpages : ∀ p, HasPage s p → HasPage s' p) (hfresh : ∀ p, s'.nextPage ≤ p → s'.pages p = none) :
    Loose s' := by
  refine ⟨?_, ?_, hfresh⟩
  · intro i x hi
    rw [harr] at hi
    rw [hpairs]
    exact h.live i x hi
  · intro x tt ht
    rw [hpairs] at ht
    obtain ⟨hne, hheld⟩ := h.pages x tt ht
    exact ⟨hne, fun p hp => hpages p (hheld p hp)⟩

/-- Changing memory only. -/
theorem Loose.setMem (h : Loose s) (mem : Nat → Option Mapping) : Loose { s with mem := mem } :=
  h.of_pairs rfl rfl (fun _ hp => hp) h.fresh

theorem modifyMapping_mem (s : State) (p : Nat) (f : Mapping → Mapping) :
    ∃ mem, modifyMapping s p f = { s with mem := mem } := by
  rw [modifyMapping]
  split
  · exact ⟨s.mem, rfl⟩
  · exact ⟨_, rfl⟩

theorem Loose.mapPage (h : Loose s) :
    Loose (mapPage E s) ∧ ∀ p, HasPage s p → HasPage (Tls.mapPage E s) p := by
  have hexists : ∀ p, HasPage s p → HasPage (Tls.mapPage E s) p := by
    rintro p ⟨pg, hp⟩
    by_cases heq : p = s.nextPage
    · subst heq
      exact ⟨_, Function.update_self ..⟩
    · exact ⟨pg, by rw [Tls.mapPage]; simp only [Function.update_of_ne heq, hp]⟩
  refine ⟨h.of_pairs rfl rfl hexists ?_, hexists⟩
  intro p hp
  have hp' : s.nextPage + 1 ≤ p := hp
  rw [Tls.mapPage]
  simp only [Function.update_of_ne (show p ≠ s.nextPage by omega)]
  exact h.fresh p (by omega)

theorem Loose.decRefCount (h : Loose s) (p : Nat) :
    Loose (decRefCount s p) ∧ ∀ q, HasPage s q → HasPage (Tls.decRefCount s p) q := by
  have hpages : ∀ q, (Tls.decRefCount s p).pages q =
      if q = p then (s.pages p).map fun pg => { pg with refCount := pg.refCount - 1 }
      else s.pages q := by
    intro q
    rw [Tls.decRefCount]
    simp only [Function.update_apply]
  have hexists : ∀ q, HasPage s q → HasPage (Tls.decRefCount s p) q := by
    rintro q ⟨pg, hq⟩
    rw [HasPage, hpages]
    by_cases heq : q = p
    · subst heq
      rw [if_pos rfl, hq]
      exact ⟨_, rfl⟩
    · rw [if_neg heq]
      exact ⟨pg, hq⟩
  refine ⟨h.of_pairs rfl rfl hexists ?_, hexists⟩
  intro q hq
  rw [hpages]
  split
  · rename_i heq
    rw [← heq, h.fresh q hq]
    rfl
  · exact h.fresh q hq

theorem Loose.storeSlot (h : Loose s) (x i : Nat) {p : Nat} (hp : HasPage s p) :
    Loose (storeSlot s x i p) := by
  have hpairs : ∀ y, (Tls.storeSlot s x i p).pairs y = if y = x then (s.pairs x).map fun tt =>
      { tt with tls := { tt.tls with pages := tt.tls.pages.set i p } } else s.pairs y := by
    intro y
    rw [Tls.storeSlot]
    simp only [Function.update_apply]
  refine ⟨?_, ?_, h.fresh⟩
  · intro j y hj
    obtain ⟨tt, ht⟩ := h.live j y hj
    rw [hpairs]
    by_cases heq : y = x
    · rw [if_pos heq, ← heq, ht]
      exact ⟨_, rfl⟩
    · rw [if_neg heq]
      exact ⟨tt, ht⟩
  · intro y tt ht
    rw [hpairs] at ht
    by_cases heq : y = x
    · rw [if_pos heq, Option.map_eq_some_iff] at ht
      obtain ⟨tt', ht', rfl⟩ := ht
      obtain ⟨hne, hheld⟩ := h.pages x tt' ht'
      refine ⟨?_, ?_⟩
      · intro hnil
        have hlen := congrArg List.length hnil
        rw [List.length_set, List.length_nil, List.length_eq_zero_iff] at hlen
        exact hne hlen
      · intro q hq
        rcases List.mem_or_eq_of_mem_set hq with hq | rfl
        · exact hheld q hq
        · exact hp
    · rw [if_neg heq] at ht
      exact h.pages y tt ht

/-- One action of such a program. -/
theorem Loose.act (h : Loose s) (hknown : ∀ p ∈ known, HasPage s p) (a : Act)
    (k : Reply a → Prog sig α)
    (hprog : StoresOwn known (.act a k)) :
    ∃ known', Loose (perform E a s).2 ∧ (∀ p ∈ known', HasPage (perform E a s).2 p) ∧
      StoresOwn known' (k (perform E a s).1) := by
  have hmodify : ∀ p f, Loose (modifyMapping s p f) ∧
      ∀ q ∈ known, HasPage (modifyMapping s p f) q := by
    intro p f
    obtain ⟨mem, hmem⟩ := modifyMapping_mem s p f
    rw [hmem]
    exact ⟨h.setMem mem, hknown⟩
  cases a with
  | mapPage =>
    refine ⟨s.nextPage :: known, h.mapPage.1, ?_, hprog s.nextPage⟩
    intro p hp
    rcases List.mem_cons.mp hp with rfl | hp
    · exact ⟨_, Function.update_self ..⟩
    · exact h.mapPage.2 p (hknown p hp)
  | storeSlot x i p => exact ⟨known, h.storeSlot x i (hknown p hprog.1), hknown, hprog.2⟩
  | setPageSize => exact ⟨known, h.of_pairs rfl rfl (fun _ hq => hq) h.fresh, hknown, hprog _⟩
  | lock m => exact ⟨known, h.of_pairs rfl rfl (fun _ hq => hq) h.fresh, hknown, hprog _⟩
  | unlock m => exact ⟨known, h.of_pairs rfl rfl (fun _ hq => hq) h.fresh, hknown, hprog _⟩
  | decRefCount p =>
    exact ⟨known, (h.decRefCount p).1, fun q hq => (h.decRefCount p).2 q (hknown q hq), hprog _⟩
  | mprotect p prot =>
    refine ⟨known, ?_, ?_, hprog _⟩
    · rw [perform]
      split
      · exact (hmodify p _).1
      · exact h
    · rw [perform]
      split
      · exact (hmodify p _).2
      · exact hknown
  | copyIn p off len src => exact ⟨known, (hmodify p _).1, (hmodify p _).2, hprog _⟩
  | copyPage q p => exact ⟨known, (hmodify q _).1, (hmodify q _).2, hprog _⟩
  | pageSize | getTls tid | tlsSize x | loadSlot x i | refCount p | copyOut p off len =>
    exact ⟨known, h, hknown, hprog _⟩

/-- **A program that puts only its own pages into slots** keeps the registry as it is. -/
theorem Loose.exec {prog : Prog sig α} {x : α} (h : Loose s) (hprog : StoresOwn known prog)
    (hknown : ∀ p ∈ known, HasPage s p) (hexec : (machine E).exec prog s = some (x, s')) :
    Loose s' := by
  induction prog generalizing s known with
  | ret y =>
    cases hexec
    exact h
  | act a k ih =>
    rw [Machine.exec] at hexec
    split at hexec
    · obtain ⟨known', h', hknown', hk⟩ := h.act hknown a k hprog
      exact ih _ h' hk hknown' hexec
    · cases hexec

theorem StoresOwn.mono {prog : Prog sig α} {known' : List Nat} (h : StoresOwn known prog)
    (hsub : ∀ p ∈ known, p ∈ known') : StoresOwn known' prog := by
  induction prog generalizing known known' with
  | ret x => trivial
  | act a k ih =>
    change Act at a
    cases a with
    | mapPage =>
      intro q
      apply ih q (h q)
      intro p hp
      rcases List.mem_cons.mp hp with rfl | hp
      · exact List.mem_cons_self
      · exact List.mem_cons_of_mem q (hsub p hp)
    | storeSlot x i p => exact ⟨hsub p h.1, ih _ h.2 hsub⟩
    | _ => exact fun r => ih r (h r) hsub

theorem StoresOwn.tryMprotect {k : Prog sig α} (hk : StoresOwn known k) (p : Nat) (prot : Prot)
    (e : α) :
    StoresOwn known (tryMprotect p prot e k) := by
  intro (r : Int)
  dsimp only
  split
  · trivial
  · exact hk

theorem StoresOwn.tryLock {k : Prog sig α} (hk : StoresOwn known k) (m : Mutex) (e : α) :
    StoresOwn known (tryLock m e k) := by
  intro (r : Int)
  dsimp only
  split
  · trivial
  · exact hk

theorem StoresOwn.tryUnlock {k : Prog sig α} (hk : StoresOwn known k) (m : Mutex) (e : α) :
    StoresOwn known (tryUnlock m e k) := by
  intro (r : Int)
  dsimp only
  split
  · trivial
  · exact hk

theorem StoresOwn.copyPage {k : Prog sig Int} (hk : StoresOwn known k) (h p i : Nat) :
    StoresOwn known (copyPage h p i k) := by
  apply StoresOwn.tryLock
  intro (copy : Nat)
  apply StoresOwn.tryMprotect
  apply StoresOwn.tryMprotect
  intro _
  apply StoresOwn.tryMprotect
  apply StoresOwn.tryMprotect
  intro _
  refine ⟨List.mem_cons_self, ?_⟩
  apply StoresOwn.tryUnlock
  exact hk.mono fun q hq => List.mem_cons_of_mem copy hq

theorem StoresOwn.readSegment {k : List UInt8 → Prog sig (Int × List UInt8)}
    (hk : ∀ b, StoresOwn known (k b))
    (p off len : Nat) (buffer : List UInt8) : StoresOwn known (readSegment p off len buffer k) := by
  apply StoresOwn.tryMprotect
  intro (bytes : List UInt8)
  apply StoresOwn.tryMprotect
  exact hk _

theorem storesOwn_readDone (buffer : List UInt8) : StoresOwn known (readDone buffer) :=
  StoresOwn.tryUnlock (k := .ret (0, buffer)) trivial _ _

theorem storesOwn_readLoop (pageSize h startPage length : Nat) : ∀ n read pageIndex buffer,
    StoresOwn known (readLoop pageSize h startPage length n read pageIndex buffer) := by
  intro n
  induction n with
  | zero =>
    intro read pageIndex buffer
    exact storesOwn_readDone buffer
  | succ n ih =>
    intro read pageIndex buffer
    rw [readLoop]
    split
    · intro (currPage : Nat)
      dsimp only
      split
      · exact StoresOwn.readSegment (fun b => ih _ _ b) _ _ _ _
      · exact StoresOwn.readSegment (fun b => storesOwn_readDone b) _ _ _ _
    · exact storesOwn_readDone buffer

theorem storesOwn_tlsRead (self : Nat) (offset length : UInt32) :
    StoresOwn known (tlsRead self offset length) := by
  intro _ (tls : Option Nat)
  cases tls with
  | none => trivial
  | some h =>
    intro (size : UInt32)
    dsimp only
    split
    · trivial
    · intro (pageSize : Nat) (currPage : Nat)
      apply StoresOwn.tryLock
      split
      · exact StoresOwn.readSegment (fun b => storesOwn_readLoop _ _ _ _ _ _ _ b) _ _ _ _
      · exact StoresOwn.readSegment (fun b => storesOwn_readDone b) _ _ _ _

theorem StoresOwn.writeSegment {k : Prog sig Int} (hk : StoresOwn known k) (p off len : Nat)
    (src : Nat → UInt8) :
    StoresOwn known (writeSegment p off len src k) := by
  apply StoresOwn.tryMprotect
  intro _
  apply StoresOwn.tryMprotect
  exact hk

theorem StoresOwn.unshare {k : Nat → Prog sig Int} (hk : ∀ p, StoresOwn known (k p)) (h i p : Nat) :
    StoresOwn known (unshare h i p k) := by
  intro (refCount : Int)
  dsimp only
  split
  · apply StoresOwn.copyPage
    intro (currPage : Nat)
    exact hk currPage
  · exact hk p

theorem storesOwn_writeDone : StoresOwn known writeDone :=
  StoresOwn.tryUnlock (k := .ret 0) trivial _ _

theorem storesOwn_writeLoop (pageSize h startPage length : Nat) (buffer : Nat → UInt8) :
    ∀ n written pageIndex,
    StoresOwn known (writeLoop pageSize h startPage length buffer n written pageIndex) := by
  intro n
  induction n with
  | zero =>
    intro written pageIndex
    exact storesOwn_writeDone
  | succ n ih =>
    intro written pageIndex
    rw [writeLoop]
    split
    · intro (currPage : Nat)
      apply StoresOwn.unshare
      intro p
      split
      · exact StoresOwn.writeSegment (ih _ _) _ _ _ _
      · exact StoresOwn.writeSegment storesOwn_writeDone _ _ _ _
    · exact storesOwn_writeDone

theorem storesOwn_tlsWrite (self : Nat) (offset length : UInt32) (buffer : Nat → UInt8) :
    StoresOwn known (tlsWrite self offset length buffer) := by
  intro (tls : Option Nat)
  cases tls with
  | none => trivial
  | some h =>
    intro (size : UInt32)
    dsimp only
    split
    · trivial
    · intro (pageSize : Nat) (currPage : Nat)
      apply StoresOwn.tryLock
      apply StoresOwn.unshare
      intro p
      split
      · exact StoresOwn.writeSegment (storesOwn_writeLoop _ _ _ _ _ _ _ _) _ _ _ _
      · exact StoresOwn.writeSegment storesOwn_writeDone _ _ _ _

/-! ### New areas -/

theorem freeSlot_isSome_iff (s : State) :
    (freeSlot s).isSome = true ↔ ∃ i < maxThreadCount, s.tidTlsArr.get i = none := by
  rw [freeSlot, List.find?_isSome]
  simp only [List.mem_range, Option.isNone_iff_eq_none]

theorem register_of_full {s' : State} (hfull : freeSlot s' = none) (self : Nat) (size : UInt32)
    (numPages : Nat)
    (l : List Nat) : register s' self size numPages l = (-1, { s' with
      pairs := Function.update s'.pairs s'.nextPair (some ⟨self, ⟨self, size, numPages, l⟩⟩)
      nextPair := s'.nextPair + 1 }) := by
  rw [register, appendToArr]
  have hf : freeSlot { s' with
      pairs := Function.update s'.pairs s'.nextPair (some ⟨self, ⟨self, size, numPages, l⟩⟩)
      nextPair := s'.nextPair + 1 } = none := hfull
  rw [hf]

/-- A new pair that holds some pages, in a slot or in none. -/
theorem Loose.register (h : Loose s) (self : Nat) (size : UInt32) (numPages : Nat) {l : List Nat}
    (hne : l ≠ [])
    (hmade : ∀ p ∈ l, HasPage s p) : Loose (register s self size numPages l).2 := by
  have hheld : ∀ x tt,
      Function.update s.pairs s.nextPair (some ⟨self, ⟨self, size, numPages, l⟩⟩) x = some tt →
      tt.tls.pages ≠ [] ∧ ∀ p ∈ tt.tls.pages, HasPage s p := by
    intro x tt hx
    rw [Function.update_apply] at hx
    by_cases heq : x = s.nextPair
    · rw [if_pos heq] at hx
      cases hx
      exact ⟨hne, hmade⟩
    · rw [if_neg heq] at hx
      exact h.pages x tt hx
  have hlive : ∀ x, x = s.nextPair ∨ (∃ tt, s.pairs x = some tt) →
      ∃ tt, Function.update s.pairs s.nextPair (some ⟨self, ⟨self, size, numPages, l⟩⟩) x =
        some tt := by
    intro x hx
    rw [Function.update_apply]
    by_cases heq : x = s.nextPair
    · exact ⟨_, if_pos heq⟩
    · rw [if_neg heq]
      exact hx.resolve_left heq
  cases hf : freeSlot s with
  | none =>
    rw [register_of_full hf]
    exact ⟨fun i x hi => hlive x (Or.inr (h.live i x hi)), hheld, h.fresh⟩
  | some i =>
    rw [register_eq hf]
    refine ⟨?_, hheld, h.fresh⟩
    intro j x hj
    rw [registerAt] at hj
    dsimp only at hj
    rcases Arr.get_set_cases s.tidTlsArr i j (some s.nextPair) with ⟨hnew, -⟩ | hold
    · rw [hnew] at hj
      cases hj
      exact hlive _ (Or.inl rfl)
    · rw [hold] at hj
      exact hlive x (Or.inr (h.live j x hj))

theorem Loose.mapPages (h : Loose s) (n : Nat) :
    Loose (mapPages E n s).2 ∧ ∀ p ∈ (Tls.mapPages E n s).1, HasPage (Tls.mapPages E n s).2 p := by
  obtain ⟨hlist, hrest, hpages, -, -⟩ := mapPages_spec E n s
  have harr : (Tls.mapPages E n s).2.tidTlsArr = s.tidTlsArr := by rw [hrest]
  have hpairs : (Tls.mapPages E n s).2.pairs = s.pairs := by rw [hrest]
  have hnext : (Tls.mapPages E n s).2.nextPage = s.nextPage + n := congrArg State.nextPage hrest
  constructor
  · apply h.of_pairs harr hpairs
    · rintro p ⟨pg, hp⟩
      rw [HasPage, hpages]
      split
      · exact ⟨_, rfl⟩
      · exact ⟨pg, hp⟩
    · intro p hp
      rw [hnext] at hp
      rw [hpages, if_neg (by omega)]
      exact h.fresh p (by omega)
  · intro p hp
    rw [hlist, List.mem_range'_1] at hp
    rw [HasPage, hpages, if_pos hp]
    exact ⟨_, rfl⟩

theorem Loose.addRefs (h : Loose s) (l : List Nat) :
    Loose { s with pages := addRefs l s.pages } ∧
      ∀ p, HasPage s p → HasPage { s with pages := Tls.addRefs l s.pages } p := by
  have hexists : ∀ p, HasPage s p → HasPage { s with pages := Tls.addRefs l s.pages } p := by
    rintro p ⟨pg, hp⟩
    rw [HasPage]
    simp only [Tls.addRefs, hp]
    exact ⟨_, rfl⟩
  refine ⟨h.of_pairs rfl rfl hexists ?_, hexists⟩
  intro p hp
  simp only [Tls.addRefs, h.fresh p hp]
  rfl

/-- `check_tid_has_lsa` tells whether the thread has an area. -/
theorem checkTidHasLsa_cases (hlive : SlotsLive s) (t : Nat) :
    HasArea s t ∧ checkTidHasLsa s t = some true ∨
      ¬ HasArea s t ∧ checkTidHasLsa s t = some false := by
  rcases getTls_spec hlive t with ⟨hnone, hall⟩ | ⟨i, x, tt, hsome, hi, ht, htid⟩
  · refine Or.inr ⟨?_, checkTidHasLsa_eq hnone⟩
    rintro ⟨i, x, tt, hi, ht, htid⟩
    exact hall i x tt hi ht htid
  · exact Or.inl ⟨⟨i, x, tt, hi, ht, htid⟩, checkTidHasLsa_eq hsome⟩

/-- The state in which `tls_create` makes the area. -/
def started (E : Platform) (s : State) : State :=
  if s.isFirstTime then tlsInit E { s with isFirstTime := false } else s

theorem Loose.started (h : Loose s) : Loose (started E s) := by
  rw [Tls.started]
  split
  · exact h.of_pairs rfl rfl (fun _ hp => hp) h.fresh
  · exact h

theorem started_nextPage : (started E s).nextPage = s.nextPage := by
  rw [started]
  split
  · rfl
  · rfl

/-- The pages `tls_create` makes. -/
def createdPages (E : Platform) (s : State) (size : UInt32) : List Nat × State :=
  mapPages E (numPagesFor (started E s).pageSize size) (started E s)

theorem createdPages_registry (size : UInt32) :
    (createdPages E s size).2.tidTlsArr = s.tidTlsArr ∧
      (createdPages E s size).2.pairs = s.pairs ∧
      (createdPages E s size).2.nextPair = s.nextPair := by
  rw [createdPages, (mapPages_spec E _ _).2.1, started]
  split
  · exact ⟨rfl, rfl, rfl⟩
  · exact ⟨rfl, rfl, rfl⟩

/-- What `tls_create` does: it is refused, or it makes pages and registers them. -/
theorem tlsCreate_cases (hlive : SlotsLive s) (self : Nat) (size : UInt32) :
    Refused s ⟨self, .create size⟩ ∧ tlsCreate E s self size = some (-1, s) ∨
      ¬ Refused s ⟨self, .create size⟩ ∧ tlsCreate E s self size =
        some (register (createdPages E s size).2 self size
          (numPagesFor (started E s).pageSize size) (createdPages E s size).1) := by
  rw [tlsCreate]
  by_cases hsize : size = 0
  · rw [if_pos hsize]
    exact Or.inl ⟨Or.inl hsize, rfl⟩
  · rw [if_neg hsize]
    rcases checkTidHasLsa_cases hlive self with ⟨harea, hcheck⟩ | ⟨harea, hcheck⟩
    · simp only [hcheck]
      exact Or.inl ⟨Or.inr harea, trivial⟩
    · simp only [hcheck]
      exact Or.inr ⟨not_or.mpr ⟨hsize, harea⟩, rfl⟩

/-- What `tls_clone` does: it is refused, or it shares the pages of its target and registers
them. -/
theorem tlsClone_cases (h : Loose s) (self tid : Nat) :
    Refused s ⟨self, .clone tid⟩ ∧ tlsClone E s self tid = some (-1, s) ∨
      ¬ Refused s ⟨self, .clone tid⟩ ∧ ∃ x tt, s.pairs x = some tt ∧ tlsClone E s self tid =
        some (register { s with pages := addRefs tt.tls.pages s.pages } self tt.tls.size
          tt.tls.numPages tt.tls.pages) := by
  rw [tlsClone]
  rcases checkTidHasLsa_cases h.live self with ⟨harea, hcheck⟩ | ⟨harea, hcheck⟩
  · simp only [hcheck]
    exact Or.inl ⟨Or.inl harea, trivial⟩
  · simp only [hcheck]
    rcases getTls_spec h.live tid with ⟨hnone, hall⟩ | ⟨i, x, tt, hsome, hi, ht, htid⟩
    · rw [checkTidHasLsa_eq hnone]
      refine Or.inl ⟨Or.inr ?_, rfl⟩
      rintro ⟨i, x, tt, hi, ht, htid⟩
      exact hall i x tt hi ht htid
    · rw [checkTidHasLsa_eq hsome]
      refine Or.inr ⟨?_, x, tt, ht, ?_⟩
      · rintro (hc | hc)
        · exact harea hc
        · exact hc ⟨i, x, tt, hi, ht, htid⟩
      · simp only [Option.isSome_some, createNewTls, if_pos, hsome, ht]
        rw [sharePages_spec _ _ (h.pages x tt ht).2]
        rfl

theorem Loose.tlsCreate (h : Loose s) {self : Nat} {size : UInt32} {r : Int}
    (hr : tlsCreate E s self size = some (r, s')) : Loose s' := by
  rcases tlsCreate_cases (E := E) h.live self size with ⟨-, heq⟩ | ⟨hnot, heq⟩
  · rw [heq] at hr
    cases hr
    exact h
  · rw [heq] at hr
    obtain ⟨hpages, hmade⟩ := (h.started (E := E)).mapPages (E := E)
      (numPagesFor (Tls.started E s).pageSize size)
    have hne : (createdPages E s size).1 ≠ [] := by
      have hpos := numPagesFor_pos (Tls.started E s).pageSize (fun hzero => hnot (Or.inl hzero))
      rw [createdPages, (mapPages_spec E _ _).1]
      simp only [ne_eq, List.range'_eq_nil_iff]
      omega
    have hreg : Loose (Tls.register (createdPages E s size).2 self size
        (numPagesFor (Tls.started E s).pageSize size) (createdPages E s size).1).2 :=
      hpages.register self size _ hne hmade
    rw [Option.some.inj hr] at hreg
    exact hreg

theorem Loose.tlsClone (h : Loose s) {self tid : Nat} {r : Int}
    (hr : tlsClone E s self tid = some (r, s')) : Loose s' := by
  rcases tlsClone_cases (E := E) h self tid with ⟨-, heq⟩ | ⟨-, x, tt, ht, heq⟩
  · rw [heq] at hr
    cases hr
    exact h
  · rw [heq] at hr
    obtain ⟨hne, hheld⟩ := h.pages x tt ht
    obtain ⟨hrefs, hkept⟩ := h.addRefs tt.tls.pages
    have hreg := hrefs.register self tt.tls.size tt.tls.numPages hne
      (fun p hp => hkept p (hheld p hp))
    rw [Option.some.inj hr] at hreg
    exact hreg

theorem Loose.answer {o : Option (Int × State)} (h : Loose s)
    (ho : ∀ r s', o = some (r, s') → Loose s') :
    Loose (answer s o).2 := by
  cases o with
  | none => exact h
  | some rs => exact ho rs.1 rs.2 rfl

theorem Loose.call (h : Loose s) (r : Request) (hr : r.call ≠ .destroy) : Loose (call E s r).2 := by
  rw [Tls.call]
  cases hc : r.call with
  | create size => exact h.answer fun _ _ => h.tlsCreate
  | clone tid => exact h.answer fun _ _ => h.tlsClone
  | read offset length =>
    have hown : StoresOwn [] (tlsRead r.self offset length) := storesOwn_tlsRead _ _ _
    dsimp only
    cases he : (machine E).exec (tlsRead r.self offset length) s with
    | none => exact h
    | some x => exact h.exec hown (by simp) he
  | write offset length buffer =>
    have hown : StoresOwn [] (tlsWrite r.self offset length buffer) := storesOwn_tlsWrite _ _ _ _
    exact h.answer fun _ _ => h.exec hown (by simp)
  | destroy => exact absurd hc hr

theorem loose_init : Loose init := by
  refine ⟨?_, ?_, ?_⟩
  · intro i x hi
    rw [show init.tidTlsArr.get i = none from Arr.get_fill_default i] at hi
    cases hi
  · intro x tt hx
    cases hx
  · intro p _
    rfl

theorem run_loose (E : Platform) (rs : List Request) (hrs : ∀ r ∈ rs, r.call ≠ .destroy) :
    Loose (run (call E) init rs) := by
  have hok : RunOk (call E) (fun _ r => r.call ≠ .destroy) init rs :=
    runOk_of_forall_mem (fun r hr _ => hrs r hr) init
  exact run_invariant (fun _ r h hr => h.call r hr) rs init loose_init hok

/-! ### What a failed call leaves -/

theorem Unchanged.refl (s : State) : Unchanged s s := ⟨rfl, fun _ => rfl, fun _ => rfl⟩

theorem leavesNoTrace_of_eq {r : Request} {i : Int} (hcall : call E s r = (some (i, []), s'))
    (h : i = -1 → Unchanged s s') : LeavesNoTrace E s r := by
  intro bytes s'' hr
  rw [hcall] at hr
  cases hr
  exact h rfl

/-- A slot is free, or the registration that ends the call fails. -/
theorem leavesNoTrace_register {r : Request} {self : Nat} {size : UInt32} {n : Nat} {l : List Nat}
    (harr : s'.tidTlsArr = s.tidTlsArr)
    (hcall : call E s r = answer s (some (register s' self size n l)))
    (htrace : ∃ p, (s'.pages p).map Page.refCount ≠ (s.pages p).map Page.refCount) :
    LeavesNoTrace E s r ↔ ∃ i < maxThreadCount, s.tidTlsArr.get i = none := by
  rw [← freeSlot_isSome_iff]
  cases hf : freeSlot s with
  | some i =>
    rw [register_eq ((freeSlot_congr harr).trans hf)] at hcall
    refine iff_of_true ?_ rfl
    exact leavesNoTrace_of_eq hcall (fun h => absurd h (by decide))
  | none =>
    rw [register_of_full ((freeSlot_congr harr).trans hf)] at hcall
    refine iff_of_false ?_ (by simp)
    intro h
    obtain ⟨p, hp⟩ := htrace
    exact hp ((h _ _ hcall).refCounts p)

theorem create_leavesNoTrace_iff (h : Loose s) (self : Nat) (size : UInt32) :
    LeavesNoTrace E s ⟨self, .create size⟩ ↔
      (∃ i < maxThreadCount, s.tidTlsArr.get i = none) ∨ Refused s ⟨self, .create size⟩ := by
  rcases tlsCreate_cases (E := E) h.live self size with ⟨href, heq⟩ | ⟨hnot, heq⟩
  · refine iff_of_true ?_ (Or.inr href)
    have hcall : call E s ⟨self, .create size⟩ = (some (-1, []), s) := by
      rw [call]
      simp only [heq, answer]
    exact leavesNoTrace_of_eq hcall (fun _ => Unchanged.refl s)
  · rw [or_iff_left hnot]
    have hcall : call E s ⟨self, .create size⟩ =
        answer s (some (register (createdPages E s size).2 self size
          (numPagesFor (started E s).pageSize size) (createdPages E s size).1)) := by
      rw [call]
      simp only [heq]
    -- the page it maps first is one that did not exist
    refine leavesNoTrace_register (createdPages_registry size).1 hcall ⟨s.nextPage, ?_⟩
    have hpages := (mapPages_spec E (numPagesFor (started E s).pageSize size) (started E s)).2.2.1
    have hpos := numPagesFor_pos (started E s).pageSize (fun hzero => hnot (Or.inl hzero))
    rw [createdPages, hpages, started_nextPage, if_pos (by omega), h.fresh s.nextPage (le_refl _)]
    simp

theorem clone_leavesNoTrace_iff (h : Loose s) (self tid : Nat) :
    LeavesNoTrace E s ⟨self, .clone tid⟩ ↔
      (∃ i < maxThreadCount, s.tidTlsArr.get i = none) ∨ Refused s ⟨self, .clone tid⟩ := by
  rcases tlsClone_cases (E := E) h self tid with ⟨href, heq⟩ | ⟨hnot, x, tt, ht, heq⟩
  · refine iff_of_true ?_ (Or.inr href)
    have hcall : call E s ⟨self, .clone tid⟩ = (some (-1, []), s) := by
      rw [call]
      simp only [heq, answer]
    exact leavesNoTrace_of_eq hcall (fun _ => Unchanged.refl s)
  · rw [or_iff_left hnot]
    have hcall : call E s ⟨self, .clone tid⟩ =
        answer s (some (register { s with pages := addRefs tt.tls.pages s.pages } self tt.tls.size
          tt.tls.numPages tt.tls.pages)) := by
      rw [call]
      simp only [heq]
    obtain ⟨hne, hheld⟩ := h.pages x tt ht
    obtain ⟨p, hp⟩ := List.exists_mem_of_ne_nil _ hne
    obtain ⟨pg, hpg⟩ := hheld p hp
    -- the first page of the target is counted once more
    refine leavesNoTrace_register ?_ hcall ⟨p, ?_⟩
    · rfl
    · have hcount := List.count_pos_iff.mpr hp
      simp only [addRefs, hpg, Option.map_some, ne_eq, Option.some.injEq]
      omega

/-- The call makes an area. -/
def MakesArea (r : Request) : Prop :=
  match r.call with
  | .create _ | .clone _ => True
  | _ => False

/-- **A `tls_create` or `tls_clone` that fails leaves no trace** exactly when a slot is free or one
of the checks before the pages are made refuses it. -/
theorem failed_leaves_no_trace_iff (E : Platform) (rs : List Request)
    (hrs : ∀ r ∈ rs, r.call ≠ .destroy) (r : Request) (hr : MakesArea r) :
    LeavesNoTrace E (run (call E) init rs) r ↔
      (∃ i < maxThreadCount, (run (call E) init rs).tidTlsArr.get i = none) ∨
        Refused (run (call E) init rs) r := by
  have hloose := run_loose E rs hrs
  obtain ⟨self, c⟩ := r
  cases c with
  | create size => exact create_leavesNoTrace_iff hloose self size
  | clone tid => exact clone_leavesNoTrace_iff hloose self tid
  | read | write | destroy => exact absurd hr id

/-! ### A full registry -/

/-- The threads `0, …, n - 1` have the slots of their numbers. -/
structure Filled (n : Nat) (s : State) : Prop where
  arr : ∀ i < maxThreadCount, s.tidTlsArr.get i = if i < n then some i else none
  pairs : ∀ i < n, ∃ tt, s.pairs i = some tt ∧ tt.tid = i
  nextPair : s.nextPair = n

theorem Filled.hasArea_iff {n : Nat} (h : Filled n s) (hn : n ≤ maxThreadCount) (t : Nat) :
    HasArea s t ↔ t < n := by
  constructor
  · rintro ⟨i, x, tt, hi, ht, rfl⟩
    rw [h.arr i (index_lt hi)] at hi
    split at hi
    · rename_i hlt
      cases hi
      obtain ⟨tt', ht', htid⟩ := h.pairs i hlt
      rw [ht] at ht'
      cases ht'
      omega
    · cases hi
  · intro ht
    obtain ⟨tt, hp, htid⟩ := h.pairs t ht
    exact ⟨t, t, tt, by rw [h.arr t (by omega), if_pos ht], hp, htid⟩

theorem Filled.freeSlot {n : Nat} (h : Filled n s) (hn : n < maxThreadCount) :
    freeSlot s = some n := by
  rw [Tls.freeSlot, List.find?_range_eq_some]
  refine ⟨?_, List.mem_range.mpr hn, ?_⟩
  · rw [h.arr n hn, if_neg (by omega)]
    rfl
  · intro j hj
    rw [h.arr j (by omega), if_pos hj]
    rfl

/-- One more thread. -/
theorem Filled.create {n : Nat} (h : Filled n s) (hL : Loose s) (hn : n < maxThreadCount) :
    Filled (n + 1) (call E s ⟨n, .create 1⟩).2 := by
  rcases tlsCreate_cases (E := E) hL.live n 1 with ⟨href, -⟩ | ⟨-, heq⟩
  · rcases href with hzero | harea
    · cases hzero
    · exact absurd ((h.hasArea_iff (by omega) n).mp harea) (by omega)
  · obtain ⟨harr, hpairs, hnext⟩ := createdPages_registry (E := E) (s := s) 1
    rw [call]
    simp only [heq, answer]
    rw [register_eq ((freeSlot_congr harr).trans (h.freeSlot hn)), registerAt]
    rw [harr, hpairs, hnext, h.nextPair]
    refine ⟨?_, ?_, rfl⟩
    · intro i hi
      dsimp only
      rw [Arr.get_set]
      by_cases hin : i = n
      · rw [if_pos ⟨hin, hn⟩, if_pos (by omega), hin]
      · rw [if_neg (fun hc => hin hc.1), h.arr i hi]
        by_cases hlt : i < n
        · rw [if_pos hlt, if_pos (by omega)]
        · rw [if_neg hlt, if_neg (by omega)]
    · intro i hi
      dsimp only
      rw [Function.update_apply]
      by_cases hin : i = n
      · rw [if_pos hin]
        exact ⟨_, rfl, hin.symm⟩
      · rw [if_neg hin]
        exact h.pairs i (by omega)

/-- The threads `0, …, n - 1` create an area each. -/
def creates (n : Nat) : List Request := (List.range n).map fun t => ⟨t, .create 1⟩

theorem creates_ne_destroy (n : Nat) : ∀ r ∈ creates n, r.call ≠ .destroy := by
  intro r hr
  obtain ⟨t, -, rfl⟩ := List.mem_map.mp hr
  exact Call.noConfusion

theorem filled_creates (E : Platform) : ∀ n ≤ maxThreadCount,
    Filled n (run (call E) init (creates n)) := by
  intro n
  induction n with
  | zero =>
    intro _
    refine ⟨?_, ?_, rfl⟩
    · intro i _
      exact Arr.get_fill_default i
    · intro i hi
      omega
  | succ n ih =>
    intro hn
    have hrun : run (call E) init (creates (n + 1)) =
        (call E (run (call E) init (creates n)) ⟨n, .create 1⟩).2 := by
      rw [creates, List.range_succ, List.map_append, run_append]
      rfl
    rw [hrun]
    exact (ih (by omega)).create (run_loose E _ (creates_ne_destroy n)) (by omega)

theorem creates_full (E : Platform) :
    ¬ ∃ i < maxThreadCount,
      (run (call E) init (creates maxThreadCount)).tidTlsArr.get i = none := by
  rintro ⟨i, hi, hnone⟩
  rw [(filled_creates E maxThreadCount (le_refl _)).arr i hi, if_pos hi] at hnone
  cases hnone

/-- With all slots in use a thread that has an area is refused, and nothing changes. -/
theorem failed_leaves_no_trace_full : (∀ r ∈ creates maxThreadCount, r.call ≠ .destroy) ∧
    LeavesNoTrace fourK (run (call fourK) init (creates maxThreadCount)) ⟨5, .clone 7⟩ := by
  refine ⟨creates_ne_destroy _, ?_⟩
  rw [failed_leaves_no_trace_iff fourK _ (creates_ne_destroy _) ⟨5, .clone 7⟩ trivial]
  have hfilled := filled_creates fourK maxThreadCount (le_refl _)
  exact Or.inr (Or.inl ((hfilled.hasArea_iff (le_refl _) 5).mpr (by decide)))

/-- With all slots in use `tls_clone` by another thread fails and leaves the pages of its target
counted twice. -/
theorem failed_clone_leaves_trace : (∀ r ∈ creates maxThreadCount, r.call ≠ .destroy) ∧
    ¬ LeavesNoTrace fourK (run (call fourK) init (creates maxThreadCount)) ⟨128, .clone 7⟩ := by
  refine ⟨creates_ne_destroy _, ?_⟩
  have hfilled := filled_creates fourK maxThreadCount (le_refl _)
  rw [clone_leavesNoTrace_iff (run_loose fourK _ (creates_ne_destroy _))]
  rintro (hfree | hself | htarget)
  · exact creates_full fourK hfree
  · exact absurd ((hfilled.hasArea_iff (le_refl _) 128).mp hself) (by decide)
  · exact htarget ((hfilled.hasArea_iff (le_refl _) 7).mpr (by decide))

end EC440.Tls
