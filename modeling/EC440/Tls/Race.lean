import EC440.Tls.Separate

/-!
# A read and a write at the same time

`tls_read` takes `mutex_read` and `tls_write` takes `mutex_write` and `mutex_copy`, so the
two exclude each other nowhere, while both change the protection of the pages they go over.
`neverProtected_iff` says when this does harm: some interleaving of a read by one thread and
a write by another copies to or from a protected page exactly when the two go over a common
page.
-/

namespace EC440.Tls

open EC440.Lib

/-- The pages a step copies bytes from or to. -/
def copies : Act → List Nat
  | .copyOut p _ len => if len = 0 then [] else [p]
  | .copyIn p _ len _ => if len = 0 then [] else [p]
  | .copyPage q p => [q, p]
  | _ => []

/-- The next step of the program copies from and to accessible pages, when it copies. -/
def CopiesOk {α : Type} (k : Prog sig α) (u : State) : Prop :=
  ∀ a k', k = .act a k' → ∀ p ∈ copies a, accessible u p = true

/-- In every interleaving of the two programs, each `memcpy` finds its pages accessible. -/
def NeverProtected {α β : Type} (E : Platform) (s : State) (R : Prog sig α) (W : Prog sig β) : Prop :=
  ∀ R' W' u, (machine E).Interleaved R W s R' W' u → CopiesOk R' u ∧ CopiesOk W' u

variable {E : Platform} {s s' : State} {h : Nat}

theorem accessible_of_safe {a : Act} {u : State} (hs : safe E a u = true) :
    ∀ p ∈ copies a, accessible u p = true := by
  intro p hp
  cases a with
  | copyOut q off len =>
    simp only [copies] at hp
    split at hp
    · cases hp
    · rename_i hlen
      rw [List.mem_singleton.mp hp]
      simp only [safe, hlen, decide_false, Bool.false_or, Bool.and_eq_true] at hs
      exact hs.1
  | copyIn q off len src =>
    simp only [copies] at hp
    split at hp
    · cases hp
    · rename_i hlen
      rw [List.mem_singleton.mp hp]
      simp only [safe, hlen, decide_false, Bool.false_or, Bool.and_eq_true] at hs
      exact hs.1
  | copyPage q r =>
    simp only [safe, Bool.and_eq_true] at hs
    simp only [copies, List.mem_cons, List.not_mem_nil, or_false] at hp
    rcases hp with rfl | rfl
    · exact hs.1
    · exact hs.2
  | _ => cases hp

theorem Undisturbed.copiesOk {α : Type} {O O' : Nat → Prop} {h' : Nat} {k : Prog sig α} {u : State}
    (hu : Undisturbed E O h O' h' k u) : CopiesOk k u := by
  intro a k' hk p hp
  subst hk
  -- a step that copies waits for no lock
  have hready : ready a u = true := by
    cases a with
    | lock m => cases hp
    | _ => rfl
  exact accessible_of_safe (Machine.SafeAmong.safe_of_ready (fun v => Keeps.refl v) hu hready) p hp

/-! ### Disjoint ranges -/

/-- Two programs that keep off each other's pages. -/
theorem Undisturbed.interleaved {α β : Type} {O O' : Nat → Prop} {h' : Nat} {R R' : Prog sig α}
    {W W' : Prog sig β} {u : State} (hR : Undisturbed E O h O' h' R s)
    (hW : Undisturbed E O' h' O h W s) (hu : (machine E).Interleaved R W s R' W' u) :
    Undisturbed E O h O' h' R' u ∧ Undisturbed E O' h' O h W' u := by
  have hR' : (machine E).SafeAmong (Keeps E O h) (Keeps E O' h') R s := hR
  have hW' : (machine E).SafeAmong (Keeps E O' h') (Keeps E O h) W s := hW
  refine Machine.interleaved_safeAmong ?_ ?_ ?_ ?_ ?_ ?_ hR' hW' hu
  · exact fun _ _ _ h₁ h₂ => h₁.trans h₂
  · exact fun _ _ _ h₁ h₂ => h₁.trans h₂
  · exact Keeps.refl
  · exact Keeps.refl
  · exact fun _ _ hk => hk
  · exact fun _ _ hk => hk

section

variable {t : Nat} {offset length : UInt32}

theorem InRange.live (hI : RegistryInv E s) {p : Nat} (hp : InRange E s h offset length p) :
    Live E s p ∧ p < s.nextPage := by
  obtain ⟨i, -, -, hs⟩ := hp
  obtain ⟨hpg, b, hm⟩ := hI.slot_page hs
  exact ⟨⟨by rw [hpg]; rfl, _, hm⟩, hI.page_lt hpg⟩

/-- What a thread knows at the start of a call whose range lies in the pages `O`. -/
theorem Access.hand (ha : Access E s t h offset length) (hI : RegistryInv E s) {O : Nat → Prop}
    (maps : Prop) (hO : ∀ p, InRange E s h offset length p → O p)
    (hfresh : maps → ∀ p, s.nextPage ≤ p → O p) :
    Hand E t O h (fun i => offset.toNat / E.getpagesize ≤ i ∧ (i = offset.toNat / E.getpagesize ∨
      i * E.getpagesize < offset.toNat + length.toNat)) maps [] [] s := by
  obtain ⟨n, hslots, hoff, hend⟩ := ha.slot
  refine ⟨ha.get, ha.pageSize, ?_, hfresh, fun p hp => (by cases hp), fun p hp => (by cases hp)⟩
  rintro i ⟨hi, hor⟩
  have hin : i < n := by
    rcases hor with rfl | hlt
    · exact Nat.div_lt_of_lt_mul (by rw [Nat.mul_comm]; exact hoff)
    · apply Nat.lt_of_mul_lt_mul_right (a := E.getpagesize)
      omega
  obtain ⟨p, hp⟩ := hslots i hin
  have hr : InRange E s h offset length p := ⟨i, hi, hor, hp⟩
  exact ⟨p, hp, hO p hr, (hr.live hI).1⟩

end

section

variable {t₁ t₂ h₁ h₂ : Nat} {o₁ l₁ o₂ l₂ : UInt32}

theorem neverProtected_of_disjoint (hI : RegistryInv E s) (hne : h₁ ≠ h₂)
    (ha₁ : Access E s t₁ h₁ o₁ l₁) (ha₂ : Access E s t₂ h₂ o₂ l₂) (buffer : Nat → UInt8)
    (hdisj : ∀ p, ¬ (InRange E s h₁ o₁ l₁ p ∧ InRange E s h₂ o₂ l₂ p)) :
    NeverProtected E s (tlsRead t₁ o₁ l₁) (tlsWrite t₂ o₂ l₂ buffer) := by
  have hread : Undisturbed E (InRange E s h₁ o₁ l₁) h₁ (fun p => ¬ InRange E s h₁ o₁ l₁ p) h₂
      (tlsRead t₁ o₁ l₁) s := by
    refine undisturbed_tlsRead (fun p hp hc => hc hp) (fun i hi hor => ⟨hi, hor⟩) s
      (ha₁.hand hI False (fun p hp => hp) False.elim)
  have hwrite : Undisturbed E (fun p => ¬ InRange E s h₁ o₁ l₁ p) h₂ (InRange E s h₁ o₁ l₁) h₁
      (tlsWrite t₂ o₂ l₂ buffer) s := by
    refine undisturbed_tlsWrite (fun p hp => hp) (Ne.symm hne) trivial (fun i hi hor => ⟨hi, hor⟩) s
      (ha₂.hand hI True (fun p hp hc => hdisj p ⟨hc, hp⟩) ?_)
    intro _ p hp hc
    have := (hc.live hI).2
    omega
  intro R' W' u hu
  obtain ⟨hR, hW⟩ := hread.interleaved hwrite hu
  exact ⟨hR.copiesOk, hW.copiesOk⟩

end

/-! ### A common page -/

/-- The loop of a write run alone, up to the page of slot `j`. -/
theorem steps_writeLoop_upto {startPage offset length n j p : Nat} (buffer : Nat → UInt8)
    (hend : offset + length ≤ n * E.getpagesize) (hj : j * E.getpagesize < offset + length) :
    ∀ (fuel written pageIndex : Nat) (s : State), Writable E s h n →
      (startPage + pageIndex) * E.getpagesize = offset + written → length - written ≤ fuel →
      startPage + pageIndex ≤ j → slot s h j = some p →
      ∃ k s' len, (machine E).Steps
          (writeLoop E.getpagesize h startPage length buffer fuel written pageIndex) s
          (unshare h j p k) s' ∧
        Wrote E s s' h (offset + written) len (fun k => buffer (written + k)) j := by
  intro fuel
  induction fuel with
  | zero =>
    intro written pageIndex s _ hpos hfuel hle
    have := Nat.mul_le_mul_right E.getpagesize hle
    omega
  | succ fuel ih =>
    intro written pageIndex s hW hpos hfuel hle hp
    have hps := E.pos
    have hlej := Nat.mul_le_mul_right E.getpagesize hle
    rw [writeLoop, if_pos (by omega)]
    by_cases hlast : startPage + pageIndex = j
    · rw [hlast]
      exact ⟨_, s, 0, steps_loadSlot hp _, .refl hW.inv h _ _ j⟩
    · have hnext := Nat.mul_le_mul_right E.getpagesize (show startPage + pageIndex + 1 ≤ j by omega)
      rw [Nat.succ_mul] at hnext
      have hin : startPage + pageIndex < n := by
        apply Nat.lt_of_mul_lt_mul_right (a := E.getpagesize)
        omega
      obtain ⟨q, hq⟩ := hW.slots _ hin
      simp only [if_pos (show length - written > E.getpagesize by omega)]
      obtain ⟨s₁, hsteps, hw⟩ := steps_writePage hW.inv hW.pageSize hW.copy hq
        (show 0 + E.getpagesize ≤ E.getpagesize by omega) (fun k => buffer (written + k))
        (writeLoop E.getpagesize h startPage length buffer fuel (written + E.getpagesize)
          (pageIndex + 1))
      rw [Nat.add_zero, hpos] at hw
      have hpos' : (startPage + (pageIndex + 1)) * E.getpagesize =
          offset + (written + E.getpagesize) := by
        rw [← Nat.add_assoc, Nat.succ_mul]
        omega
      obtain ⟨k, s₂, len, hsteps', hw'⟩ := ih (written + E.getpagesize) (pageIndex + 1) s₁
        (hw.writable hW) hpos' (by omega) (by omega) (by rw [hw.slots j (by omega), hp])
      refine ⟨k, s₂, E.getpagesize + len, (steps_loadSlot hq _).trans (hsteps.trans hsteps'), ?_⟩
      apply (hw.mono (show startPage + pageIndex + 1 ≤ j by omega)).trans
      · simp only [Nat.add_assoc] at hw' ⊢
        exact hw'
      · exact le_refl j

section

variable {t : Nat} {offset length : UInt32}

/-- A write run alone, up to a page of its range. -/
theorem steps_tlsWrite_upto (ha : Access E s t h offset length) (hI : RegistryInv E s)
    (hu : Unlocked s) (buffer : Nat → UInt8) {j p : Nat} (hge : offset.toNat / E.getpagesize ≤ j)
    (hor : j = offset.toNat / E.getpagesize ∨ j * E.getpagesize < offset.toNat + length.toNat)
    (hp : slot s h j = some p) :
    ∃ k s' len, (machine E).Steps (tlsWrite t offset length buffer) s (unshare h j p k) s' ∧
      Wrote E (setLock s .write true) s' h offset.toNat len buffer j := by
  obtain ⟨n, hslots, hoff, hend⟩ := ha.slot
  have hdm := Nat.div_add_mod offset.toNat E.getpagesize
  have hmod := Nat.mod_lt offset.toNat E.pos
  rw [Nat.mul_comm] at hdm
  have hin := Nat.div_lt_of_lt_mul (by rw [Nat.mul_comm]; exact hoff : offset.toNat < _)
  obtain ⟨q, hq⟩ := hslots _ hin
  have hstart := steps_tlsWrite_start ha (hu .write) hq buffer
  have hW := ha.writable hI hu hslots
  by_cases hfirst : j = offset.toNat / E.getpagesize
  · subst hfirst
    rw [hp] at hq
    cases hq
    exact ⟨_, _, 0, hstart, .refl hW.inv h _ _ _⟩
  · have hlt : j * E.getpagesize < offset.toNat + length.toNat := by
      rcases hor with h₁ | h₁
      · exact absurd h₁ hfirst
      · exact h₁
    have hnext := Nat.mul_le_mul_right E.getpagesize
      (show offset.toNat / E.getpagesize + 1 ≤ j by omega)
    rw [Nat.succ_mul] at hnext
    simp only [if_pos (show length.toNat > E.getpagesize - offset.toNat % E.getpagesize by omega)]
      at hstart
    obtain ⟨s₁, hsteps, hw⟩ := steps_writePage hW.inv hW.pageSize hW.copy hq
      (show offset.toNat % E.getpagesize + (E.getpagesize - offset.toNat % E.getpagesize) ≤
        E.getpagesize by omega) buffer
      (writeLoop E.getpagesize h (offset.toNat / E.getpagesize) length.toNat buffer
        (length.toNat + 1) (E.getpagesize - offset.toNat % E.getpagesize) 1)
    rw [hdm] at hw
    have hpos : (offset.toNat / E.getpagesize + 1) * E.getpagesize =
        offset.toNat + (E.getpagesize - offset.toNat % E.getpagesize) := by
      rw [Nat.succ_mul]
      omega
    obtain ⟨k, s₂, len, hsteps', hw'⟩ := steps_writeLoop_upto buffer hend hlt (length.toNat + 1) _ 1
      s₁ (hw.writable hW) hpos (by omega) (by omega) (by rw [hw.slots j (by omega)]; exact hp)
    exact ⟨k, s₂, _, hstart.trans (hsteps.trans hsteps'),
      (hw.mono (show offset.toNat / E.getpagesize + 1 ≤ j by omega)).trans hw' (le_refl j)⟩

end

section

variable {p : Nat} {b : Nat → UInt8} {pg : Page}

/-- While `copy_page` copies a page, every page is mapped. -/
theorem readable_copying (hI : RegistryInv E s) (x : Nat) :
    Readable E (copying E s (E.mmap p) b) x := by
  intro i q hq
  have hq' : slot s x i = some q := hq
  obtain ⟨hqp, bq, hqm⟩ := hI.slot_page hq'
  have hne := Nat.ne_of_lt (hI.page_lt hqp)
  have haddr := hI.address_ne hqp
  have hpages : (copying E s (E.mmap p) b).pages q = some ⟨E.mmap q, refs (own s) q⟩ := by
    simp only [copying, putMapping_pages, mapPage, setLock, Function.update_of_ne hne, hqp]
  refine ⟨_, (if q = p then ⟨.readWrite, b⟩ else ⟨.none, bq⟩), hpages, rfl, ?_⟩
  rw [copying, putMapping_mem_of_ne haddr]
  by_cases hqe : q = p
  · rw [if_pos hqe, hqe, putMapping_mem]
  · rw [if_neg hqe, putMapping_mem_of_ne (fun hc => hqe (E.mmap_inj _ _ hc))]
    simp only [mapPage, setLock, Function.update_of_ne haddr, hqm]

theorem not_accessible_of_protected {u : State} (hp : u.pages p = some pg)
    (hpr : Protected u pg.address) : accessible u p ≠ true := by
  obtain ⟨b, hb⟩ := hpr
  rw [accessible_eq hp hb]
  simp

end

section

variable {t₁ t₂ h₁ h₂ : Nat} {o₁ l₁ o₂ l₂ : UInt32}

/-- The writer stops before the `memcpy` of `copy_page` on a page of both ranges, and the reader
runs to its end: it leaves the page protected. -/
theorem not_neverProtected_of_common (hI : RegistryInv E s) (hu : Unlocked s) (hne : h₁ ≠ h₂)
    (ha₁ : Access E s t₁ h₁ o₁ l₁) (ha₂ : Access E s t₂ h₂ o₂ l₂) (buffer : Nat → UInt8) {p : Nat}
    (hp₁ : InRange E s h₁ o₁ l₁ p) (hp₂ : InRange E s h₂ o₂ l₂ p) :
    ¬ NeverProtected E s (tlsRead t₁ o₁ l₁) (tlsWrite t₂ o₂ l₂ buffer) := by
  intro hnever
  obtain ⟨i, hge₁, hor₁, hs₁⟩ := hp₁
  obtain ⟨j, hge₂, hor₂, hs₂⟩ := hp₂
  obtain ⟨k, s₁, len, hsteps, hw⟩ := steps_tlsWrite_upto ha₂ hI hu buffer hge₂ hor₂ hs₂
  have hslot₂ : slot s₁ h₂ j = some p := by
    rw [hw.slots j (le_refl j)]
    exact hs₂
  have hpair₁ : s₁.pairs h₁ = s.pairs h₁ := hw.pairs h₁ hne
  have hslot₁ : slot s₁ h₁ i = some p := by
    rw [slot_congr hpair₁, hs₁]
  obtain ⟨hpg, b, hm⟩ := hw.inv.slot_page hslot₂
  -- two areas hold the page, so the writer copies it
  have hshared : 2 ≤ refs (own s₁) p := by
    rw [slot_eq] at hslot₁ hslot₂
    exact hw.inv.shared hne (List.mem_of_getElem? hslot₁) (List.mem_of_getElem? hslot₂)
  have hcopy : s₁.locked .copy = false := by
    rw [hw.locked]
    exact hu .copy
  have hcopying := steps_copyPage_copying (E := E) hcopy hpg hm
    (Nat.ne_of_lt (hw.inv.page_lt hpg)) (hw.inv.address_ne hpg) h₂ j
    (.act (.loadSlot h₂ j) fun (currPage : Nat) => k currPage)
  have hcount := steps_refCount (E := E) hpg fun refCount => if refCount > 1 then
    copyPage h₂ p j (.act (.loadSlot h₂ j) fun (currPage : Nat) => k currPage) else k p
  rw [if_pos (show (refs (own s₁) p : Int) > 1 by omega)] at hcount
  -- the reader runs in the state the writer has stopped in
  have ha : Access E (copying E s₁ (E.mmap p) b) t₁ h₁ o₁ l₁ := by
    refine ⟨?_, ?_, ?_⟩
    · rw [← ha₁.get]
      apply getTls_congr
      · rw [copying_arr, hw.arr, setLock_arr]
      · intro x
        rw [copying_pairs, hw.key, setLock_pairs]
    · rw [copying_pageSize, hw.pageSize, setLock_pageSize, ha₁.pageSize]
    · rw [copying_pairs, hpair₁]
      exact ha₁.inside
  have hread : (copying E s₁ (E.mmap p) b).locked .read = false := by
    rw [copying_locked_read, hw.locked]
    exact hu .read
  obtain ⟨s₂, hsteps', hr, hprot⟩ := steps_tlsRead ha (readable_copying hw.inv h₁) hread
  have hinter := ((hsteps.trans (hcount.trans hcopying)).right (tlsRead t₁ o₁ l₁)).trans
    (hsteps'.left _)
  have hok := (hnever _ _ _ hinter).2 _ _ rfl p (by simp [copies])
  have hpg' : s₂.pages p = some ⟨E.mmap p, refs (own s₁) p⟩ := by
    rw [hr.pages_eq]
    exact copying_pages hpg (Nat.ne_of_lt (hw.inv.page_lt hpg))
  exact not_accessible_of_protected hpg' (hprot p ⟨i, hge₁, hor₁, hslot₁⟩) hok

/-- **When a read and a write are safe together**: in every state between calls, for a read by one
thread and a write by another inside their areas, no interleaving copies from or to a protected
page exactly when the two ranges have no page in common. -/
theorem neverProtected_iff (E : Platform) (rs : List Request)
    (hrun : RunOk (call E) (Fits E) init rs) (ht : t₁ ≠ t₂)
    (hget₁ : getTls (run (call E) init rs) t₁ = some (some h₁))
    (hget₂ : getTls (run (call E) init rs) t₂ = some (some h₂)) (buffer : Nat → UInt8)
    (hread : Fits E (run (call E) init rs) ⟨t₁, .read o₁ l₁⟩)
    (hwrite : Fits E (run (call E) init rs) ⟨t₂, .write o₂ l₂ buffer⟩) :
    NeverProtected E (run (call E) init rs) (tlsRead t₁ o₁ l₁) (tlsWrite t₂ o₂ l₂ buffer) ↔
      ∀ p, ¬ (InRange E (run (call E) init rs) h₁ o₁ l₁ p ∧
        InRange E (run (call E) init rs) h₂ o₂ l₂ p) := by
  obtain ⟨-, hstands⟩ := run_simulates E rs hrun
  have hI := hstands.inv
  obtain ⟨tt₁, htt₁, htid₁⟩ := (getTls_eq_some_iff hI t₁ h₁).mp hget₁
  obtain ⟨tt₂, htt₂, htid₂⟩ := (getTls_eq_some_iff hI t₂ h₂).mp hget₂
  obtain ⟨hoff₁, hrange₁⟩ := hread h₁ tt₁ hget₁ htt₁
  obtain ⟨hoff₂, hrange₂⟩ := hwrite h₂ tt₂ hget₂ htt₂
  have ha₁ := hI.access hget₁ htt₁ hoff₁ hrange₁
  have ha₂ := hI.access hget₂ htt₂ hoff₂ hrange₂
  have hne : h₁ ≠ h₂ := by
    intro hc
    rw [hc, htt₂] at htt₁
    cases htt₁
    exact ht (by rw [← htid₁, ← htid₂])
  constructor
  · intro hnever p hp
    exact not_neverProtected_of_common hI hstands.unlocked hne ha₁ ha₂ buffer hp.1 hp.2 hnever
  · intro hdisj
    exact neverProtected_of_disjoint hI hne ha₁ ha₂ buffer hdisj

end

/-- Both threads are inside their areas at byte `0`. -/
theorem createAndClone_inside (buffer : Nat → UInt8) :
    Fits fourK (run (call fourK) init createAndClone) ⟨1, .read 0 1⟩ ∧
      Fits fourK (run (call fourK) init createAndClone) ⟨2, .write 0 1 buffer⟩ := by
  obtain ⟨-, -, hget₁, hget₂, hsize₁, hsize₂, -, -⟩ := createAndClone_lookups
  exact ⟨inside_of_lookup hget₁ hsize₁ (by decide) (by decide),
    inside_of_lookup hget₂ hsize₂ (by decide) (by decide)⟩

theorem neverProtected_iff_createAndClone :
    NeverProtected fourK (run (call fourK) init createAndClone) (tlsRead 1 0 1)
        (tlsWrite 2 0 1 fun _ => 7) ↔
      ∀ p, ¬ (InRange fourK (run (call fourK) init createAndClone) 0 0 1 p ∧
        InRange fourK (run (call fourK) init createAndClone) 1 0 1 p) := by
  obtain ⟨-, -, hget₁, hget₂, -⟩ := createAndClone_lookups
  obtain ⟨hread, hwrite⟩ := createAndClone_inside fun _ => 7
  exact neverProtected_iff fourK createAndClone createAndClone_fits (by decide) hget₁ hget₂ _
    hread hwrite

/-- A read of one byte and a write of one byte of a shared page: some interleaving copies from the
page while it is protected. -/
theorem read_write_race :
    RunOk (call fourK) (Fits fourK) init createAndClone ∧
      ¬ NeverProtected fourK (run (call fourK) init createAndClone) (tlsRead 1 0 1)
        (tlsWrite 2 0 1 fun _ => 7) := by
  refine ⟨createAndClone_fits, ?_⟩
  obtain ⟨-, -, hget₁, hget₂, -, -, hs₁, hs₂⟩ := createAndClone_lookups
  obtain ⟨hread, hwrite⟩ := createAndClone_inside fun _ => 7
  obtain ⟨-, hstands⟩ := run_simulates fourK createAndClone createAndClone_fits
  have hI := hstands.inv
  obtain ⟨tt₁, htt₁, -⟩ := (getTls_eq_some_iff hI 1 0).mp hget₁
  obtain ⟨tt₂, htt₂, -⟩ := (getTls_eq_some_iff hI 2 1).mp hget₂
  obtain ⟨hoff₁, hrange₁⟩ := hread 0 tt₁ hget₁ htt₁
  obtain ⟨hoff₂, hrange₂⟩ := hwrite 1 tt₂ hget₂ htt₂
  exact not_neverProtected_of_common hI hstands.unlocked (by decide)
    (hI.access hget₁ htt₁ hoff₁ hrange₁) (hI.access hget₂ htt₂ hoff₂ hrange₂) _
    ⟨0, by decide, Or.inl (by decide), hs₁⟩ ⟨0, by decide, Or.inl (by decide), hs₂⟩

end EC440.Tls
