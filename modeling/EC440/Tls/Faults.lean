import EC440.Lib.Align
import EC440.Tls.Invariant

/-!
# Thread-local storage: the handler of page faults

`is_fault_in_tls_space` and `tls_handle_page_fault` of `tls.c`.  An address of the
machine is a word of 64 bits, and `page_size` an `int` of 32.  As in the registry, `none` says
that a pointer to something freed is followed, or that the array `pages` is left.

The handler rounds the address down to the start of its page and looks for a page of that
address, so on aligned pages it finds the one that covers the address, if there is one
(`tlsHandlePageFault_iff`).
-/

namespace EC440.Tls

open EC440.Lib

/-- What the process knows as a signal. -/
inductive Signal
  | sigbus
  | sigsegv
  | other (number : Nat)
  deriving DecidableEq

/-- What a signal does to the process. -/
inductive Action
  | sigDfl
  | handlePageFault
  | other (number : Nat)
  deriving DecidableEq

/-- How `tls_handle_page_fault` ends: it ends the thread, or raises `sig` again under the
actions it leaves. -/
inductive Handled
  | pthreadExit
  | raise (actions : Signal → Action) (sig : Signal)

/-- The loop over the pages of an area, for the indices `js`. -/
def scanPages (s : State) (tls : TLS) (pageFault : BitVec 64) : List Nat → Option Bool
  | [] => some false
  | j :: js =>
      match tls.pages[j]?.bind s.pages with
      | none => none
      | some page =>
          if page.address = pageFault.toNat then some true else scanPages s tls pageFault js

/-- The loop over the slots `is` of `tid_tls_arr`. -/
def scanSlots (s : State) (pageFault : BitVec 64) : List Nat → Option Bool
  | [] => some false
  | i :: is =>
      match s.tidTlsArr.get i with
      | none => scanSlots s pageFault is
      | some h =>
          match s.pairs h with
          | none => none
          | some tt =>
              match scanPages s tt.tls pageFault (List.range tt.tls.numPages) with
              | none => none
              | some true => some true
              | some false => scanSlots s pageFault is

def isFaultInTlsSpace (s : State) (pageFault : BitVec 64) : Option Bool :=
  scanSlots s pageFault (List.range maxThreadCount)

/-- `((unsigned long)si->si_addr) & ~(page_size - 1)`. -/
def pageFault (s : State) (siAddr : BitVec 64) : BitVec 64 :=
  siAddr &&& pageMask 64 (BitVec.ofNat 32 s.pageSize)

def tlsHandlePageFault (s : State) (actions : Signal → Action) (sig : Signal)
    (siAddr : BitVec 64) : Option Handled :=
  (isFaultInTlsSpace s (pageFault s siAddr)).map fun found =>
    if found then .pthreadExit
    else
      .raise (Function.update (Function.update actions .sigbus .sigDfl) .sigsegv .sigDfl) sig

/-! ### The pages in the registry -/

/-- A page of an area in `tid_tls_arr`. -/
def InRegistry (s : State) (page : Page) : Prop :=
  ∃ i h tt j, s.tidTlsArr.get i = some h ∧ s.pairs h = some tt ∧ j < tt.tls.numPages ∧
    tt.tls.pages[j]?.bind s.pages = some page

/-- The pointers of the registry lead to areas and to pages, and no index of an area is outside
of its array. -/
structure PointersLive (s : State) : Prop where
  slots : SlotsLive s
  pages : ∀ i h tt j, s.tidTlsArr.get i = some h → s.pairs h = some tt → j < tt.tls.numPages →
    ∃ page, tt.tls.pages[j]?.bind s.pages = some page

/-- The registry between calls has no other pointers. -/
theorem RegistryInv.pointersLive {E : Platform} {s : State} (h : RegistryInv E s) :
    PointersLive s := by
  refine ⟨h.live, ?_⟩
  intro i x tt j _ ht hj
  rw [← (h.area x tt ht).length] at hj
  obtain ⟨page, hpage⟩ := h.held x tt.tls.pages[j] (by rw [pagesOf_eq ht]; exact List.getElem_mem hj)
  exact ⟨page, by rw [List.getElem?_eq_getElem hj, Option.bind_some, hpage]⟩

variable {s : State} {pf : BitVec 64}

/-! ### The search -/

theorem scanPages_spec {tls : TLS} (js : List Nat)
    (hlive : ∀ j ∈ js, ∃ page, tls.pages[j]?.bind s.pages = some page) :
    ∃ found, scanPages s tls pf js = some found ∧
      (found = true ↔
        ∃ j ∈ js, ∃ page, tls.pages[j]?.bind s.pages = some page ∧ page.address = pf.toNat) := by
  induction js with
  | nil => exact ⟨false, rfl, by simp⟩
  | cons j js ih =>
    obtain ⟨page, hpage⟩ := hlive j List.mem_cons_self
    obtain ⟨found, hscan, hfound⟩ := ih fun j' hj' => hlive j' (List.mem_cons_of_mem j hj')
    rw [scanPages, hpage]
    by_cases heq : page.address = pf.toNat
    · exact ⟨true, by simp [heq], iff_of_true rfl ⟨j, List.mem_cons_self, page, hpage, heq⟩⟩
    · refine ⟨found, by simp [heq, hscan], hfound.trans ?_⟩
      rw [List.exists_mem_cons_iff]
      refine ⟨.inr, fun h => h.resolve_left ?_⟩
      rintro ⟨page', hpage', heq'⟩
      rw [Option.some.inj (hpage.symm.trans hpage')] at heq
      exact heq heq'

/-- The page of slot `i` that the search is after. -/
def FoundAt (s : State) (pf : BitVec 64) (i : Nat) : Prop :=
  ∃ h tt j page, s.tidTlsArr.get i = some h ∧ s.pairs h = some tt ∧ j < tt.tls.numPages ∧
    tt.tls.pages[j]?.bind s.pages = some page ∧ page.address = pf.toNat

theorem scanSlots_spec (hlive : PointersLive s) (is : List Nat) :
    ∃ found, scanSlots s pf is = some found ∧ (found = true ↔ ∃ i ∈ is, FoundAt s pf i) := by
  induction is with
  | nil => exact ⟨false, rfl, by simp⟩
  | cons i is ih =>
    obtain ⟨found, hscan, hfound⟩ := ih
    rw [scanSlots, List.exists_mem_cons_iff]
    cases hi : s.tidTlsArr.get i with
    | none =>
      refine ⟨found, hscan, hfound.trans ⟨.inr, fun h => h.resolve_left ?_⟩⟩
      rintro ⟨h, tt, j, page, hi', -⟩
      rw [hi] at hi'
      cases hi'
    | some h =>
      obtain ⟨tt, ht⟩ := hlive.slots i h hi
      obtain ⟨here, hpages, hhere⟩ := @scanPages_spec s pf tt.tls (List.range tt.tls.numPages)
        fun j hj => hlive.pages i h tt j hi ht (List.mem_range.mp hj)
      have hat : FoundAt s pf i ↔ here = true := by
        rw [hhere]
        constructor
        · rintro ⟨h', tt', j, page, hi', ht', hj, hpage⟩
          obtain rfl := Option.some.inj (hi.symm.trans hi')
          obtain rfl := Option.some.inj (ht.symm.trans ht')
          exact ⟨j, List.mem_range.mpr hj, page, hpage⟩
        · rintro ⟨j, hj, page, hpage⟩
          exact ⟨h, tt, j, page, hi, ht, List.mem_range.mp hj, hpage⟩
      simp only [ht, hpages, hat]
      cases here with
      | true => exact ⟨true, rfl, iff_of_true rfl (.inl rfl)⟩
      | false => exact ⟨found, hscan, by simpa using hfound⟩

/-- **The search finds an address** just when a page of the registry has it. -/
theorem isFaultInTlsSpace_spec (hlive : PointersLive s) :
    ∃ found, isFaultInTlsSpace s pf = some found ∧
      (found = true ↔ ∃ page, InRegistry s page ∧ page.address = pf.toNat) := by
  obtain ⟨found, hscan, hfound⟩ := @scanSlots_spec s pf hlive (List.range maxThreadCount)
  refine ⟨found, hscan, hfound.trans ?_⟩
  constructor
  · rintro ⟨i, -, h, tt, j, page, hi, ht, hj, hpage, heq⟩
    exact ⟨page, ⟨i, h, tt, j, hi, ht, hj, hpage⟩, heq⟩
  · rintro ⟨page, ⟨i, h, tt, j, hi, ht, hj, hpage⟩, heq⟩
    exact ⟨i, List.mem_range.mpr (index_lt hi), h, tt, j, page, hi, ht, hj, hpage, heq⟩

/-! ### The handler -/

/-- A page of the registry covers the address. -/
def Covered (s : State) (a : BitVec 64) : Prop :=
  ∃ page, InRegistry s page ∧ page.address ≤ a.toNat ∧ a.toNat < page.address + s.pageSize

/-- The address is rounded down to a multiple of the page size. -/
theorem pageFault_toNat (hpow : ∃ k, s.pageSize = 2 ^ k) (hint : s.pageSize < 2 ^ 31)
    (a : BitVec 64) : (pageFault s a).toNat = a.toNat / s.pageSize * s.pageSize := by
  obtain ⟨k, hk⟩ := hpow
  rw [hk] at hint
  have hlt : k < 31 := (Nat.pow_lt_pow_iff_right (by decide)).mp hint
  rw [pageFault, hk, toNat_and_pageMask a (by omega)]

theorem covered_iff (hpow : ∃ k, s.pageSize = 2 ^ k) (hint : s.pageSize < 2 ^ 31)
    (haligned : ∀ page, InRegistry s page → s.pageSize ∣ page.address) (a : BitVec 64) :
    Covered s a ↔ ∃ page, InRegistry s page ∧ page.address = (pageFault s a).toNat := by
  have hpos : 0 < s.pageSize := by
    obtain ⟨k, hk⟩ := hpow
    rw [hk]
    exact Nat.two_pow_pos k
  refine exists_congr fun page => and_congr_right fun hpage => ?_
  rw [pageFault_toNat hpow hint, eq_comm, div_mul_eq_iff hpos (haligned page hpage)]

/-- **Page faults are attributed to the area they are in**: the handler ends the thread just when a
page of the registry covers the address, and otherwise it restores the default actions and raises
the signal again. -/
theorem tlsHandlePageFault_iff (s : State) (hlive : PointersLive s)
    (hpow : ∃ k, s.pageSize = 2 ^ k) (hint : s.pageSize < 2 ^ 31)
    (haligned : ∀ page, InRegistry s page → s.pageSize ∣ page.address)
    (actions : Signal → Action) (sig : Signal) (a : BitVec 64) :
    (tlsHandlePageFault s actions sig a = some .pthreadExit ↔ Covered s a) ∧
      (¬ Covered s a → ∃ actions', tlsHandlePageFault s actions sig a = some (.raise actions' sig) ∧
        actions' .sigbus = .sigDfl ∧ actions' .sigsegv = .sigDfl ∧
        ∀ n, actions' (.other n) = actions (.other n)) := by
  obtain ⟨found, hscan, hfound⟩ := @isFaultInTlsSpace_spec s (pageFault s a) hlive
  rw [← covered_iff hpow hint haligned a] at hfound
  rw [tlsHandlePageFault, hscan, ← hfound]
  cases found with
  | true => exact ⟨iff_of_true rfl rfl, fun h => absurd rfl h⟩
  | false =>
    exact ⟨iff_of_false (by simp) (by simp), fun _ => ⟨_, rfl, rfl, rfl, fun n => rfl⟩⟩

/-- One area with one page, at an address of more than 32 bits. -/
def onePage : State :=
  { init with
    isFirstTime := false
    pageSize := 4096
    tidTlsArr := (Arr.fill none).set 3 (some 0)
    pairs := fun h => if h = 0 then some ⟨7, ⟨7, 1, 1, [0]⟩⟩ else none
    nextPair := 1
    pages := fun p => if p = 0 then some ⟨0x7f0000001000, 1⟩ else none
    nextPage := 1 }

theorem onePage_slot {i h : Nat} (hi : onePage.tidTlsArr.get i = some h) : i = 3 ∧ h = 0 := by
  rcases Arr.get_set_cases (Arr.fill none : Arr maxThreadCount (Option Nat)) 3 i (some 0) with
    ⟨hset, hslot⟩ | hset
  · exact ⟨hslot, (Option.some.inj (hset.symm.trans hi)).symm⟩
  · have hnone := hset.symm.trans hi
    rw [show (Arr.fill none : Arr maxThreadCount (Option Nat)).get i = none from
      Arr.get_fill_default i] at hnone
    cases hnone

theorem onePage_inRegistry {page : Page} (h : InRegistry onePage page) :
    page = ⟨0x7f0000001000, 1⟩ := by
  obtain ⟨i, x, tt, j, hi, ht, hj, hpage⟩ := h
  obtain ⟨-, rfl⟩ := onePage_slot hi
  obtain rfl := Option.some.inj ht
  obtain rfl : j = 0 := Nat.lt_one_iff.mp hj
  exact (Option.some.inj hpage).symm

theorem onePage_pointersLive : PointersLive onePage := by
  constructor
  · intro i h hi
    obtain ⟨-, rfl⟩ := onePage_slot hi
    exact ⟨_, rfl⟩
  · intro i h tt j hi ht hj
    obtain ⟨-, rfl⟩ := onePage_slot hi
    obtain rfl := Option.some.inj ht
    obtain rfl : j = 0 := Nat.lt_one_iff.mp hj
    exact ⟨_, rfl⟩

theorem tlsHandlePageFault_onePage :
    tlsHandlePageFault onePage (fun _ => .handlePageFault) .sigsegv 0x7f0000001abc =
      some .pthreadExit := by
  have haligned : ∀ page, InRegistry onePage page → onePage.pageSize ∣ page.address := by
    intro page hpage
    rw [onePage_inRegistry hpage]
    exact ⟨0x7f0000001, by decide⟩
  refine (tlsHandlePageFault_iff onePage onePage_pointersLive ⟨12, by decide⟩ (by decide) haligned
    _ _ _).1.mpr ?_
  exact ⟨⟨0x7f0000001000, 1⟩, ⟨3, 0, _, 0, by decide, rfl, by decide, rfl⟩, by decide, by decide⟩

end EC440.Tls
