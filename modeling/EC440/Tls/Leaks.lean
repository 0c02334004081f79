import EC440.Tls.Private

/-!
# Thread-local storage: no page is lost

`copy_page` gives a thread a page of its own and takes back its reference to the page
it shared.  It unmaps nothing, so the page it leaves must still be another thread's.
`write` sees to that: it copies a page only when the page has a second reference
(`triple_unshare`).  So every page between calls has a reference (`Referenced`), and what
is mapped is what the areas hold, page by page (`mapped_iff_held`).
-/

namespace EC440.Tls

open EC440.Lib

/-- Every page has a reference, and the next page is a new one. -/
structure Referenced (s : State) : Prop where
  pos : ∀ p pg, s.pages p = some pg → 1 ≤ pg.refCount
  fresh : ∀ p, s.nextPage ≤ p → s.pages p = none

/-- The page `p` can do with one reference less. -/
def Spare (p : Nat) (s : State) : Prop :=
  Referenced s ∧ ∃ pg, s.pages p = some pg ∧ 2 ≤ pg.refCount

variable {E : Platform} {s s' : State}

/-! ### What a step does to the pages -/

theorem mapPage_pages (p : Nat) : (mapPage E s).pages p =
    if p = s.nextPage then some ⟨E.mmap s.nextPage, 1⟩ else s.pages p := Function.update_apply ..

theorem decRefCount_pages (p q : Nat) : (decRefCount s p).pages q =
    if q = p then (s.pages p).map fun pg => { pg with refCount := pg.refCount - 1 }
    else s.pages q := Function.update_apply ..

/-- Only two kinds of steps change a `struct page`. -/
theorem perform_pages {a : Act} (hmap : a ≠ .mapPage) (hdec : ∀ p, a ≠ .decRefCount p) :
    (perform E a s).2.pages = s.pages ∧ (perform E a s).2.nextPage = s.nextPage := by
  have hmodify : ∀ p f, (modifyMapping s p f).pages = s.pages ∧
      (modifyMapping s p f).nextPage = s.nextPage := by
    intro p f
    unfold modifyMapping
    split
    · exact ⟨rfl, rfl⟩
    · exact ⟨rfl, rfl⟩
  cases a with
  | mapPage => exact absurd rfl hmap
  | decRefCount p => exact absurd rfl (hdec p)
  | mprotect p prot =>
    by_cases hm : (mapping s p).isSome
    · simp only [perform, if_pos hm]
      exact hmodify p _
    · have hfail : perform E (.mprotect p prot) s = ((-1 : Int), s) := if_neg hm
      rw [hfail]
      exact ⟨rfl, rfl⟩
  | copyIn p off len src => exact hmodify p _
  | copyPage q p => exact hmodify q _
  | _ => exact ⟨rfl, rfl⟩

theorem Referenced.congr (h : Referenced s) (hp : s'.pages = s.pages)
    (hn : s'.nextPage = s.nextPage) : Referenced s' := by
  constructor
  · rw [hp]
    exact h.pos
  · rw [hp, hn]
    exact h.fresh

/-- A new page is made with its first reference. -/
theorem Referenced.mapPage (h : Referenced s) : Referenced (mapPage E s) := by
  constructor
  · intro p pg hp
    rw [mapPage_pages] at hp
    split at hp
    · cases hp
      exact le_refl 1
    · exact h.pos p pg hp
  · intro p hp
    have hp' : s.nextPage + 1 ≤ p := hp
    rw [mapPage_pages, if_neg (by omega)]
    exact h.fresh p (by omega)

theorem Spare.mapPage {p : Nat} (h : Spare p s) : Spare p (mapPage E s) := by
  obtain ⟨href, pg, hpg, htwo⟩ := h
  refine ⟨href.mapPage, pg, ?_, htwo⟩
  have hne : p ≠ s.nextPage := by
    rintro rfl
    rw [href.fresh _ (le_refl _)] at hpg
    cases hpg
  rw [mapPage_pages, if_neg hne, hpg]

/-- A reference that can be spared is taken back. -/
theorem Spare.decRefCount {p : Nat} (h : Spare p s) : Referenced (decRefCount s p) := by
  obtain ⟨href, pg, hpg, htwo⟩ := h
  constructor
  · intro q pg' hq
    rw [decRefCount_pages, hpg] at hq
    split at hq
    · cases hq
      show 1 ≤ pg.refCount - 1
      omega
    · exact href.pos q pg' hq
  · intro q hq
    have hne : q ≠ p := by
      rintro rfl
      rw [href.fresh q hq] at hpg
      cases hpg
    rw [decRefCount_pages, if_neg hne]
    exact href.fresh q hq

/-! ### What a program does to the pages -/

section

variable {α : Type} {P : State → Prop} {k : Prog sig α}

/-- The conditions on pages that the steps other than `ref_count--` keep. -/
def Lasting (E : Platform) (P : State → Prop) : Prop :=
  ∀ a s, (∀ p, a ≠ .decRefCount p) → P s → P (perform E a s).2

theorem lasting_referenced : Lasting E Referenced := by
  intro a s hdec h
  by_cases hmap : a = .mapPage
  · subst hmap
    exact h.mapPage
  · obtain ⟨hp, hn⟩ := perform_pages (E := E) (s := s) hmap hdec
    exact h.congr hp hn

theorem lasting_spare (p : Nat) : Lasting E (Spare p) := by
  intro a s hdec h
  by_cases hmap : a = .mapPage
  · subst hmap
    exact h.mapPage
  · obtain ⟨hp, hn⟩ := perform_pages (E := E) (s := s) hmap hdec
    refine ⟨h.1.congr hp hn, ?_⟩
    rw [hp]
    exact h.2

/-- From `P`, the program ends with a reference for every page. -/
abbrev Ends (E : Platform) (P : State → Prop) (p : Prog sig α) : Prop :=
  (machine E).Triple P p fun _ s => Referenced s

theorem ends_act (hP : Lasting E P) {a : Act} {k : Reply a → Prog sig α}
    (hdec : ∀ p, a ≠ .decRefCount p) (hk : ∀ r, Ends E P (k r)) : Ends E P (.act a k) :=
  Machine.Triple.act (fun _ => P) (fun s => hP a s hdec) hk

theorem ends_ret (x : α) : Ends E Referenced (.ret x) := Machine.Triple.ret fun _ h => h

/-- A step that may fail. -/
theorem ends_try (hP : Lasting E P) (href : ∀ s, P s → Referenced s) {a : sig.Act}
    {c : sig.Reply a → Prop} {_ : ∀ r, Decidable (c r)} (hdec : ∀ p, a ≠ .decRefCount p) (e : α)
    (hk : Ends E P k) : Ends E P (.act a fun r => if c r then .ret e else k) := by
  apply ends_act hP hdec
  intro r
  by_cases hr : c r
  · rw [if_pos hr]
    exact Machine.Triple.ret href
  · rw [if_neg hr]
    exact hk

theorem ends_tryMprotect (hP : Lasting E P) (href : ∀ s, P s → Referenced s) (p : Nat)
    (prot : Prot) (e : α) (hk : Ends E P k) : Ends E P (tryMprotect p prot e k) :=
  ends_try hP href (fun _ => Act.noConfusion) e hk

theorem ends_tryLock (hP : Lasting E P) (href : ∀ s, P s → Referenced s) (m : Mutex) (e : α)
    (hk : Ends E P k) : Ends E P (tryLock m e k) :=
  ends_try hP href (fun _ => Act.noConfusion) e hk

theorem ends_tryUnlock (m : Mutex) (e : α) (hk : Ends E Referenced k) :
    Ends E Referenced (tryUnlock m e k) :=
  ends_try lasting_referenced (fun _ h => h) (fun _ => Act.noConfusion) e hk

/-! ### Copying a page -/

/-- **The copy of a page** that another reference is left to. -/
theorem ends_copyPage (h p pageIndex : Nat) {k : Prog sig Int} (hk : Ends E Referenced k) :
    Ends E (Spare p) (copyPage h p pageIndex k) := by
  have hspare := lasting_spare (E := E) p
  have href : ∀ s, Spare p s → Referenced s := fun s hs => hs.1
  refine ends_tryLock hspare href _ _ ?_
  refine ends_act hspare (fun _ => Act.noConfusion) fun copy => ?_
  refine ends_tryMprotect hspare href _ _ _ ?_
  refine ends_tryMprotect hspare href _ _ _ ?_
  refine ends_act hspare (fun _ => Act.noConfusion) fun _ => ?_
  refine ends_tryMprotect hspare href _ _ _ ?_
  refine ends_tryMprotect hspare href _ _ _ ?_
  -- the reference to spare is given up here
  refine Machine.Triple.act (fun _ => Referenced) (fun s hs => hs.decRefCount) fun _ => ?_
  refine ends_act lasting_referenced (fun _ => Act.noConfusion) fun _ => ?_
  exact ends_tryUnlock _ _ hk

/-- A page is copied only when its count leaves a reference to spare. -/
theorem ends_unshare (h i p : Nat) {k : Nat → Prog sig Int} (hk : ∀ q, Ends E Referenced (k q)) :
    Ends E Referenced (unshare h i p k) := by
  refine Machine.Triple.act (fun (r : Int) s => Referenced s ∧ (r > 1 → Spare p s)) ?_ ?_
  · intro s hs
    refine ⟨hs, ?_⟩
    intro (hr : ((s.pages p).map Page.refCount).getD 0 > 1)
    cases hp : s.pages p with
    | none =>
      rw [hp] at hr
      exact absurd hr (by decide)
    | some pg =>
      rw [hp] at hr
      have htwo : pg.refCount > 1 := hr
      exact ⟨hs, pg, hp, by omega⟩
  · intro (r : Int)
    by_cases hr : r > 1
    · simp only [if_pos hr]
      refine (ends_copyPage h p i ?_).pre fun s hs => hs.2 hr
      exact ends_act lasting_referenced (fun _ => Act.noConfusion) hk
    · simp only [if_neg hr]
      exact (hk p).pre fun s hs => hs.1

/-! ### Reading and writing -/

theorem ends_readSegment (p off len : Nat) (buffer : List UInt8)
    {k : List UInt8 → Prog sig (Int × List UInt8)} (hk : ∀ b, Ends E Referenced (k b)) :
    Ends E Referenced (readSegment p off len buffer k) := by
  refine ends_tryMprotect lasting_referenced (fun _ h => h) _ _ _ ?_
  refine ends_act lasting_referenced (fun _ => Act.noConfusion) fun bytes => ?_
  exact ends_tryMprotect lasting_referenced (fun _ h => h) _ _ _ (hk _)

theorem ends_readDone (buffer : List UInt8) : Ends E Referenced (readDone buffer) :=
  ends_tryUnlock _ _ (ends_ret _)

theorem ends_readLoop (pageSize h startPage length : Nat) : ∀ n read pageIndex buffer,
    Ends E Referenced (readLoop pageSize h startPage length n read pageIndex buffer) := by
  intro n
  induction n with
  | zero =>
    intro read pageIndex buffer
    exact ends_readDone buffer
  | succ n ih =>
    intro read pageIndex buffer
    rw [readLoop]
    split
    · refine ends_act lasting_referenced (fun _ => Act.noConfusion) fun currPage => ?_
      split
      · exact ends_readSegment _ _ _ _ fun b => ih _ _ _
      · exact ends_readSegment _ _ _ _ ends_readDone
    · exact ends_readDone buffer

theorem ends_tlsRead (self : Nat) (offset length : UInt32) :
    Ends E Referenced (tlsRead self offset length) := by
  refine ends_act lasting_referenced (fun _ => Act.noConfusion) fun _ => ?_
  refine ends_act lasting_referenced (fun _ => Act.noConfusion) fun tls => ?_
  cases tls with
  | none => exact ends_ret _
  | some h =>
    refine ends_act lasting_referenced (fun _ => Act.noConfusion) fun size => ?_
    dsimp only
    split
    · exact ends_ret _
    · refine ends_act lasting_referenced (fun _ => Act.noConfusion) fun pageSize => ?_
      refine ends_act lasting_referenced (fun _ => Act.noConfusion) fun currPage => ?_
      refine ends_tryLock lasting_referenced (fun _ h => h) _ _ ?_
      split
      · exact ends_readSegment _ _ _ _ fun b => ends_readLoop _ _ _ _ _ _ _ _
      · exact ends_readSegment _ _ _ _ ends_readDone

theorem ends_writeSegment (p off len : Nat) (src : Nat → UInt8) {k : Prog sig Int}
    (hk : Ends E Referenced k) : Ends E Referenced (writeSegment p off len src k) := by
  refine ends_tryMprotect lasting_referenced (fun _ h => h) _ _ _ ?_
  refine ends_act lasting_referenced (fun _ => Act.noConfusion) fun _ => ?_
  exact ends_tryMprotect lasting_referenced (fun _ h => h) _ _ _ hk

theorem ends_writeDone : Ends E Referenced writeDone :=
  ends_tryUnlock _ _ (ends_ret _)

theorem ends_writeLoop (pageSize h startPage length : Nat) (buffer : Nat → UInt8) :
    ∀ n written pageIndex,
      Ends E Referenced (writeLoop pageSize h startPage length buffer n written pageIndex) := by
  intro n
  induction n with
  | zero =>
    intro written pageIndex
    exact ends_writeDone
  | succ n ih =>
    intro written pageIndex
    rw [writeLoop]
    split
    · refine ends_act lasting_referenced (fun _ => Act.noConfusion) fun currPage => ?_
      refine ends_unshare _ _ _ fun q => ?_
      split
      · exact ends_writeSegment _ _ _ _ (ih _ _)
      · exact ends_writeSegment _ _ _ _ ends_writeDone
    · exact ends_writeDone

theorem ends_tlsWrite (self : Nat) (offset length : UInt32) (buffer : Nat → UInt8) :
    Ends E Referenced (tlsWrite self offset length buffer) := by
  refine ends_act lasting_referenced (fun _ => Act.noConfusion) fun tls => ?_
  cases tls with
  | none => exact ends_ret _
  | some h =>
    refine ends_act lasting_referenced (fun _ => Act.noConfusion) fun size => ?_
    dsimp only
    split
    · exact ends_ret _
    · refine ends_act lasting_referenced (fun _ => Act.noConfusion) fun pageSize => ?_
      refine ends_act lasting_referenced (fun _ => Act.noConfusion) fun currPage => ?_
      refine ends_tryLock lasting_referenced (fun _ h => h) _ _ ?_
      refine ends_unshare _ _ _ fun q => ?_
      split
      · exact ends_writeSegment _ _ _ _ (ends_writeLoop _ _ _ _ _ _ _ _)
      · exact ends_writeSegment _ _ _ _ ends_writeDone

end

/-! ### Making an area -/

theorem Referenced.mapPages (n : Nat) : ∀ s, Referenced s → Referenced (mapPages E n s).2 := by
  induction n with
  | zero =>
    intro s h
    exact h
  | succ n ih =>
    intro s h
    exact ih (Tls.mapPage E s) h.mapPage

/-- A shared page has a reference more. -/
theorem Referenced.sharePages (l : List Nat) : ∀ s s', Referenced s → sharePages l s = some s' →
    Referenced s' := by
  induction l with
  | nil =>
    intro s s' h hs
    cases hs
    exact h
  | cons p l ih =>
    intro s s' h hs
    rw [Tls.sharePages] at hs
    cases hp : s.pages p with
    | none =>
      rw [hp] at hs
      cases hs
    | some pg =>
      simp only [hp] at hs
      refine ih _ s' ⟨?_, ?_⟩ hs
      · intro q pg' hq
        simp only [Function.update_apply] at hq
        split at hq
        · cases hq
          have := h.pos p pg hp
          show 1 ≤ pg.refCount + 1
          omega
        · exact h.pos q pg' hq
      · intro q hq
        have hold := h.fresh q hq
        have hne : q ≠ p := by
          rintro rfl
          rw [hold] at hp
          cases hp
        exact (Function.update_of_ne hne _ _).trans hold

theorem Referenced.register (h : Referenced s) (self : Nat) (size : UInt32) (n : Nat)
    (l : List Nat) : Referenced (register s self size n l).2 := by
  rw [Tls.register, appendToArr]
  split
  · exact h.congr rfl rfl
  · exact h.congr rfl rfl

theorem Referenced.createNewTls (h : Referenced s) {self : Nat} {size : UInt32} {isClone : Bool}
    {cloneTid : Nat} {x : Int × State} (hx : createNewTls E s self size isClone cloneTid = some x) :
    Referenced x.2 := by
  unfold Tls.createNewTls at hx
  cases isClone with
  | false =>
    cases hx
    exact (h.mapPages (numPagesFor s.pageSize size)).register _ _ _ _
  | true =>
    simp only [if_true] at hx
    split at hx
    · cases hx
    · cases hx
      exact h
    · split at hx
      · cases hx
      · obtain ⟨s', hs', rfl⟩ := Option.map_eq_some_iff.mp hx
        exact (Referenced.sharePages _ s s' h hs').register _ _ _ _

theorem Referenced.tlsCreate (h : Referenced s) {self : Nat} {size : UInt32} {x : Int × State}
    (hx : tlsCreate E s self size = some x) : Referenced x.2 := by
  unfold Tls.tlsCreate at hx
  split at hx
  · cases hx
    exact h
  · split at hx
    · cases hx
    · cases hx
      exact h
    · refine Referenced.createNewTls ?_ hx
      split
      · exact h.congr rfl rfl
      · exact h

theorem Referenced.tlsClone (h : Referenced s) {self tid : Nat} {x : Int × State}
    (hx : tlsClone E s self tid = some x) : Referenced x.2 := by
  unfold Tls.tlsClone at hx
  split at hx
  · cases hx
  · cases hx
    exact h
  · split at hx
    · cases hx
    · cases hx
      exact h
    · exact h.createNewTls hx

/-! ### Calls and runs -/

theorem Referenced.answer (h : Referenced s) {x : Option (Int × State)}
    (hx : ∀ y, x = some y → Referenced y.2) : Referenced (answer s x).2 := by
  cases x with
  | none => exact h
  | some y => exact hx y rfl

/-- **Every call but `tls_destroy`** leaves a reference for every page. -/
theorem Referenced.call (h : Referenced s) (r : Request) (hr : r.call ≠ .destroy) :
    Referenced (call E s r).2 := by
  obtain ⟨self, c⟩ := r
  cases c with
  | create size => exact h.answer fun y hy => h.tlsCreate hy
  | clone tid => exact h.answer fun y hy => h.tlsClone hy
  | read offset length =>
    simp only [Tls.call]
    split
    · exact h
    · rename_i x s' hx
      exact ends_tlsRead self offset length s h x s' hx
  | write offset length buffer =>
    refine h.answer ?_
    rintro ⟨x, s'⟩ hx
    exact ends_tlsWrite self offset length buffer s h x s' hx
  | destroy => exact absurd rfl hr

theorem referenced_init : Referenced init := by
  constructor
  · intro p pg hp
    cases hp
  · intro p _
    rfl

theorem run_referenced (E : Platform) (rs : List Request)
    (hrun : RunOk (call E) (Fits E) init rs) : Referenced (run (call E) init rs) := by
  refine run_invariant (I := Referenced) ?_ rs init referenced_init hrun
  intro s r h hfits
  refine h.call r ?_
  intro hc
  rw [Fits, hc] at hfits
  exact hfits

/-- A page with a reference is in an area. -/
theorem RegistryInv.exists_holder (hI : RegistryInv E s) (h : Referenced s) {p : Nat} {pg : Page}
    (hp : s.pages p = some pg) :
    ∃ i x tt, s.tidTlsArr.get i = some x ∧ s.pairs x = some tt ∧ p ∈ tt.tls.pages := by
  have hcount : pg.refCount = refs (own s) p := congrArg Page.refCount (hI.counted p pg hp)
  have hpos := h.pos p pg hp
  have hne : refs (own s) p ≠ 0 := by omega
  obtain ⟨i, hi⟩ := exists_mem_of_refs hne
  unfold own at hi
  cases hx : s.tidTlsArr.get i with
  | none =>
    simp only [hx] at hi
    cases hi
  | some x =>
    obtain ⟨tt, ht⟩ := hI.live i x hx
    simp only [hx, pagesOf_eq ht] at hi
    exact ⟨i, x, tt, hx, ht, hi⟩

/-- What is mapped is what the areas hold. -/
theorem RegistryInv.mapped_iff (hI : RegistryInv E s) (h : Referenced s) (a : Nat) :
    (s.mem a).isSome = true ↔ ∃ tid x tt p pg, getTls s tid = some (some x) ∧
      s.pairs x = some tt ∧ p ∈ tt.tls.pages ∧ s.pages p = some pg ∧ pg.address = a := by
  constructor
  · intro ha
    obtain ⟨m, hm⟩ := Option.isSome_iff_exists.mp ha
    obtain ⟨p, pg, rfl, hp⟩ := hI.memory a m hm
    obtain ⟨i, x, tt, -, ht, hmem⟩ := hI.exists_holder h hp
    exact ⟨tt.tid, x, tt, p, pg, (getTls_eq_some_iff hI tt.tid x).mpr ⟨tt, ht, rfl⟩, ht, hmem, hp,
      congrArg Page.address (hI.counted p pg hp)⟩
  · rintro ⟨tid, x, tt, p, pg, -, -, -, hp, rfl⟩
    obtain ⟨b, hb⟩ := hI.mapped p pg hp
    rw [congrArg Page.address (hI.counted p pg hp), hb]
    rfl

/-- **No page is lost**: in every run, an address is that of a mapped page just when a thread has
an area that holds the page. -/
theorem mapped_iff_held (E : Platform) (rs : List Request)
    (hrun : RunOk (call E) (Fits E) init rs) (a : Nat) :
    ((run (call E) init rs).mem a).isSome = true ↔ ∃ tid x tt p pg,
      getTls (run (call E) init rs) tid = some (some x) ∧
      (run (call E) init rs).pairs x = some tt ∧ p ∈ tt.tls.pages ∧
      (run (call E) init rs).pages p = some pg ∧ pg.address = a :=
  (run_simulates E rs hrun).2.inv.mapped_iff (run_referenced E rs hrun) a

/-- After the write of the clone, the page both areas had and the copy are mapped. -/
theorem mapped_iff_held_cloneAndWrite : RunOk (call fourK) (Fits fourK) init cloneAndWrite ∧
    ∀ a, ((run (call fourK) init cloneAndWrite).mem a).isSome = true ↔ ∃ tid x tt p pg,
      getTls (run (call fourK) init cloneAndWrite) tid = some (some x) ∧
      (run (call fourK) init cloneAndWrite).pairs x = some tt ∧ p ∈ tt.tls.pages ∧
      (run (call fourK) init cloneAndWrite).pages p = some pg ∧ pg.address = a :=
  ⟨cloneAndWrite_fits, mapped_iff_held fourK cloneAndWrite cloneAndWrite_fits⟩

end EC440.Tls
