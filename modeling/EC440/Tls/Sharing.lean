import EC440.Tls.Segments

/-!
# Copy on write

A write goes to a page that one area alone holds: `unshare` gives such a page, copying it
first when other areas hold it too.  `Wrote` is what a write of some bytes does to the
whole registry; it composes, so the write of several pages is the write of the bytes of
them all (`Wrote.trans`).
-/

namespace EC440.Tls

open EC440.Lib

/-- The bytes of a page. -/
def pageBytes (s : State) (p : Nat) : Nat → UInt8 := (mapping s p).elim (fun _ => 0) Mapping.bytes

/-- Byte `k` of the area of the pair `h`. -/
def byteAt (E : Platform) (s : State) (h k : Nat) : UInt8 :=
  (slot s h (k / E.getpagesize)).elim 0 fun p => pageBytes s p (k % E.getpagesize)

variable {E : Platform} {s s' : State}

theorem Platform.pos (E : Platform) : 0 < E.getpagesize := by
  have := E.four_k_le
  omega

theorem pageBytes_eq {p : Nat} {pg : Page} {m : Mapping} (hp : s.pages p = some pg)
    (hm : s.mem pg.address = some m) : pageBytes s p = m.bytes := by
  rw [pageBytes, mapping_eq hp hm, Option.elim_some]

theorem RegistryInv.page_lt (h : RegistryInv E s) {p : Nat} {pg : Page}
    (hp : s.pages p = some pg) : p < s.nextPage := by
  by_contra hge
  rw [h.fresh_page p (by omega)] at hp
  cases hp

/-! ### The copy of a page -/

section

variable {h i p : Nat} {pg : Page} {b : Nat → UInt8}

theorem pagesOf_storeSlot (s : State) (h i p x : Nat) :
    pagesOf (storeSlot s h i p) x = if x = h then (pagesOf s h).set i p else pagesOf s x := by
  by_cases hx : x = h
  · subst hx
    rw [if_pos rfl, pagesOf, pagesOf, storeSlot]
    simp only [Function.update_self]
    cases s.pairs x with
    | none => rfl
    | some tt => rfl
  · rw [if_neg hx, pagesOf, pagesOf, storeSlot]
    simp only [Function.update_of_ne hx]

theorem pagesOf_copied (x : Nat) : pagesOf (copied E s h i p pg b) x =
    if x = h then (pagesOf s h).set i s.nextPage else pagesOf s x := by
  rw [← pagesOf_storeSlot]
  rfl

theorem own_copied (hI : RegistryInv E s) {j : Nat} (hj : s.tidTlsArr.get j = some h) :
    own (copied E s h i p pg b) =
      Function.update (own s) ⟨j, index_lt hj⟩ ((own s ⟨j, index_lt hj⟩).set i s.nextPage) := by
  funext a
  have harr : (copied E s h i p pg b).tidTlsArr = s.tidTlsArr := rfl
  by_cases ha : a = ⟨j, index_lt hj⟩
  · subst ha
    rw [Function.update_self, own, harr, own_eq hj]
    simp only [hj, pagesOf_copied, if_true]
  · rw [Function.update_of_ne ha, own, own, harr]
    cases hx : s.tidTlsArr.get a with
    | none => rfl
    | some x =>
      have hxh : x ≠ h := by
        intro hc
        rw [hc] at hx
        exact ha (Fin.ext (hI.slot_inj hx hj))
      simp only [pagesOf_copied, if_neg hxh]

/-- A place of the area of `h` after the copy. -/
theorem getElem?_set_fresh (hI : RegistryInv E s) {x a q : Nat}
    (hq : ((if x = h then (pagesOf s h).set i s.nextPage else pagesOf s x) : List Nat)[a]? = some q) :
    q = s.nextPage ∧ x = h ∧ a = i ∨ q ≠ s.nextPage ∧ (pagesOf s x)[a]? = some q := by
  have hlt : ∀ y, (pagesOf s y)[a]? = some q → q ≠ s.nextPage := by
    intro y hy
    obtain ⟨pg', hpg'⟩ := hI.held y q (List.mem_of_getElem? hy)
    have := hI.page_lt hpg'
    omega
  by_cases hx : x = h
  · rw [if_pos hx, List.getElem?_set] at hq
    split at hq
    · rename_i hia
      split at hq
      · cases hq
        exact Or.inl ⟨rfl, hx, hia.symm⟩
      · cases hq
    · rw [← hx] at hq
      exact Or.inr ⟨hlt x hq, hq⟩
  · rw [if_neg hx] at hq
    exact Or.inr ⟨hlt x hq, hq⟩

theorem slot_pair (hs : slot s h i = some p) : ∃ tt, s.pairs h = some tt := by
  cases ht : s.pairs h with
  | none => rw [slot, ht] at hs; cases hs
  | some tt => exact ⟨tt, rfl⟩

theorem pages_copied (hI : RegistryInv E s) (hp : s.pages p = some pg) (x : Nat) :
    (copied E s h i p pg b).pages x =
      if x = s.nextPage then some ⟨E.mmap s.nextPage, 1⟩
      else if x = p then some ⟨pg.address, pg.refCount - 1⟩ else s.pages x := by
  have hlt := hI.page_lt hp
  simp only [copied, Function.update_apply]
  by_cases hx : x = p
  · rw [if_pos hx, if_neg (by omega), if_pos hx]
  · rw [if_neg hx, if_neg hx]

theorem pairs_copied (x : Nat) : (copied E s h i p pg b).pairs x =
    if x = h then (s.pairs h).map fun tt =>
      { tt with tls := { tt.tls with pages := tt.tls.pages.set i s.nextPage } } else s.pairs x := by
  simp only [copied, storeSlot, Function.update_apply]

/-- What a pair is besides its pages. -/
def key (tt : TidTls) : Nat × Nat × UInt32 × Nat × Nat :=
  (tt.tid, tt.tls.tid, tt.tls.size, tt.tls.numPages, tt.tls.pages.length)

theorem key_copied (x : Nat) : ((copied E s h i p pg b).pairs x).map key = (s.pairs x).map key := by
  rw [pairs_copied]
  by_cases hx : x = h
  · subst hx
    rw [if_pos rfl]
    cases s.pairs x with
    | none => rfl
    | some tt => simp [key]
  · rw [if_neg hx]

/-- Pairs with the same keys are pairs of the same areas. -/
theorem key_eq {s s' : State} (hkey : ∀ x, (s'.pairs x).map key = (s.pairs x).map key) {x : Nat}
    {tt' : TidTls} (ht' : s'.pairs x = some tt') : ∃ tt, s.pairs x = some tt ∧ key tt' = key tt := by
  have hx := hkey x
  rw [ht', Option.map_some] at hx
  cases ht : s.pairs x with
  | none => rw [ht] at hx; cases hx
  | some tt =>
    rw [ht, Option.map_some] at hx
    exact ⟨tt, rfl, Option.some.inj hx⟩

theorem AreaOk.of_key {tt tt' : TidTls} (ha : AreaOk E tt) (hk : key tt' = key tt) :
    AreaOk E tt' := by
  simp only [key, Prod.mk.injEq] at hk
  obtain ⟨h1, h2, h3, h4, h5⟩ := hk
  constructor
  · rw [h2, h1, ha.tid]
  · rw [h3]
    exact ha.size_pos
  · rw [h4, h3, ha.numPages]
  · rw [h5, h4, ha.length]

/-- **`copy_page` keeps the registry in order** when the page it copies is shared. -/
theorem RegistryInv.copied (hI : RegistryInv E s) (hs : slot s h i = some p)
    (hshared : 2 ≤ refs (own s) p) (hm : s.mem (E.mmap p) = some ⟨.none, b⟩) :
    RegistryInv E (copied E s h i p ⟨E.mmap p, refs (own s) p⟩ b) := by
  obtain ⟨tt, ht⟩ := slot_pair hs
  obtain ⟨j, hj⟩ := hI.registered h tt ht
  obtain ⟨hp, -⟩ := hI.slot_page hs
  have hplt := hI.page_lt hp
  rw [slot_eq] at hs
  have hpages := pages_copied (h := h) (i := i) (b := b) hI hp
  have hkey : ∀ x, ((Tls.copied E s h i p ⟨E.mmap p, refs (own s) p⟩ b).pairs x).map key =
      (s.pairs x).map key := key_copied
  have hlive : ∀ x pg, s.pages x = some pg →
      ∃ pg', (Tls.copied E s h i p ⟨E.mmap p, refs (own s) p⟩ b).pages x = some pg' := by
    intro x pg hx
    have := hI.page_lt hx
    rw [hpages, if_neg (by omega)]
    by_cases hxp : x = p
    · exact ⟨_, if_pos hxp⟩
    · exact ⟨pg, by rw [if_neg hxp, hx]⟩
  have hrefs : ∀ x, refs (own (Tls.copied E s h i p ⟨E.mmap p, refs (own s) p⟩ b)) x =
      if x = s.nextPage then refs (own s) s.nextPage + 1
      else if x = p then refs (own s) p - 1 else refs (own s) x := by
    intro x
    rw [own_copied hI hj, refs_update_set]
    · rw [own_eq hj]
      exact hs
    · omega
  constructor
  · intro a x ha
    obtain ⟨tx, hx⟩ := hI.live a x ha
    have hk := hkey x
    rw [hx, Option.map_some] at hk
    obtain ⟨tx', hx', -⟩ := Option.map_eq_some_iff.mp hk
    exact ⟨tx', hx'⟩
  · intro x tx hx
    obtain ⟨tx', hx', -⟩ := key_eq hkey hx
    exact hI.registered x tx' hx'
  · intro a c x y tx ty ha hc hx hy htid
    obtain ⟨tx', hx', hkx⟩ := key_eq hkey hx
    obtain ⟨ty', hy', hky⟩ := key_eq hkey hy
    have htx : tx.tid = tx'.tid := congrArg Prod.fst hkx
    have hty : ty.tid = ty'.tid := congrArg Prod.fst hky
    exact hI.tid_inj a c x y tx' ty' ha hc hx' hy' (by rw [← htx, ← hty, htid])
  · intro x tx hx
    obtain ⟨tx', hx', hkx⟩ := key_eq hkey hx
    exact (hI.area x tx' hx').of_key hkx
  · intro x q hq
    rw [pagesOf_copied] at hq
    obtain ⟨a, hlt, ha⟩ := List.getElem_of_mem hq
    rcases getElem?_set_fresh hI (List.getElem?_eq_some_iff.mpr ⟨hlt, ha⟩) with
      ⟨hq', -, -⟩ | ⟨-, hq'⟩
    · rw [hpages, if_pos hq']
      exact ⟨_, rfl⟩
    · obtain ⟨pg', hpg'⟩ := hI.held x q (List.mem_of_getElem? hq')
      exact hlive q pg' hpg'
  · intro x y a c q hx hy
    rw [pagesOf_copied] at hx hy
    rcases getElem?_set_fresh hI hx with ⟨hq, -, ha⟩ | ⟨hq, hx'⟩
    · rcases getElem?_set_fresh hI hy with ⟨-, -, hc⟩ | ⟨hq', -⟩
      · rw [ha, hc]
      · exact absurd hq hq'
    · rcases getElem?_set_fresh hI hy with ⟨hq', -, -⟩ | ⟨-, hy'⟩
      · exact absurd hq' hq
      · exact hI.same_index x y a c q hx' hy'
  · intro x pg hx
    rw [hpages] at hx
    rw [hrefs]
    by_cases hxn : x = s.nextPage
    · rw [if_pos hxn] at hx ⊢
      cases hx
      rw [hI.refs_eq_zero (hI.fresh_page _ (le_refl _)), hxn, Nat.zero_add, Nat.cast_one]
    · rw [if_neg hxn] at hx ⊢
      by_cases hxp : x = p
      · rw [if_pos hxp] at hx ⊢
        cases hx
        rw [hxp, Nat.cast_sub (by omega), Nat.cast_one]
      · rw [if_neg hxp] at hx ⊢
        exact hI.counted x pg hx
  · intro x pg hx
    rw [hpages] at hx
    simp only [Tls.copied, Function.update_apply]
    by_cases hxn : x = s.nextPage
    · rw [hxn, if_pos rfl]
      exact ⟨_, rfl⟩
    · rw [if_neg hxn] at hx
      rw [if_neg (fun hc => hxn (E.mmap_inj _ _ hc))]
      by_cases hxp : x = p
      · rw [hxp]
        exact ⟨b, hm⟩
      · rw [if_neg hxp] at hx
        exact hI.mapped x pg hx
  · intro a m ha
    simp only [Tls.copied, Function.update_apply] at ha
    by_cases han : a = E.mmap s.nextPage
    · exact ⟨s.nextPage, _, han, by rw [hpages, if_pos rfl]⟩
    · rw [if_neg han] at ha
      obtain ⟨x, pg, hax, hx⟩ := hI.memory a m ha
      obtain ⟨pg', hpg'⟩ := hlive x pg hx
      exact ⟨x, pg', hax, hpg'⟩
  · intro x hx
    rw [← Option.map_eq_none_iff (f := key), hkey, Option.map_eq_none_iff]
    exact hI.fresh_pair x hx
  · intro x hx
    have hx' : s.nextPage + 1 ≤ x := hx
    rw [hpages, if_neg (by omega), if_neg (by omega)]
    exact hI.fresh_page x (by omega)
  · exact hI.page_size
  · intro x tx hx
    obtain ⟨tx', hx', -⟩ := key_eq hkey hx
    exact hI.started x tx' hx'

theorem slot_copied (hs : slot s h i = some p) (x a : Nat) :
    slot (copied E s h i p pg b) x a = if x = h ∧ a = i then some s.nextPage else slot s x a := by
  rw [slot_eq, slot_eq, pagesOf_copied]
  rw [slot_eq] at hs
  by_cases hx : x = h
  · rw [if_pos hx, List.getElem?_set]
    by_cases ha : i = a
    · obtain ⟨hlt, -⟩ := List.getElem?_eq_some_iff.mp hs
      rw [if_pos ha, if_pos (by omega), if_pos ⟨hx, ha.symm⟩]
    · rw [if_neg ha, if_neg (fun hc => ha hc.2.symm), hx]
  · rw [if_neg hx, if_neg (fun hc => hx hc.1)]

/-- The copy has the bytes of the page, and every other page keeps its own. -/
theorem byteAt_copied (hI : RegistryInv E s) (hs : slot s h i = some p)
    (hps : s.pageSize = E.getpagesize) (hm : s.mem (E.mmap p) = some ⟨.none, b⟩) (x k : Nat) :
    byteAt E (copied E s h i p ⟨E.mmap p, refs (own s) p⟩ b) x k = byteAt E s x k := by
  obtain ⟨hp, -⟩ := hI.slot_page hs
  have hpages := pages_copied (h := h) (i := i) (b := b) hI hp
  rw [byteAt, byteAt, slot_copied hs]
  by_cases hc : x = h ∧ k / E.getpagesize = i
  · have hmod := Nat.mod_lt k E.pos
    rw [if_pos hc, hc.1, hc.2, hs, Option.elim_some, Option.elim_some]
    rw [pageBytes_eq (m := ⟨.none, b⟩) hp hm, pageBytes_eq (m := ⟨.none, blit (fun _ => 0) 0 s.pageSize b⟩)
      (by rw [hpages, if_pos rfl]) (Function.update_self ..)]
    simp only [blit]
    rw [if_pos (by omega), Nat.sub_zero]
  · rw [if_neg hc]
    cases hq : slot s x (k / E.getpagesize) with
    | none => rfl
    | some q =>
      obtain ⟨hqp, bq, hqm⟩ := hI.slot_page hq
      have hlt := hI.page_lt hqp
      have hqm' : (copied E s h i p ⟨E.mmap p, refs (own s) p⟩ b).mem (E.mmap q) =
          some ⟨.none, bq⟩ := by
        simp only [copied]
        rw [Function.update_of_ne, hqm]
        intro heq
        have := E.mmap_inj _ _ heq
        omega
      rw [Option.elim_some, Option.elim_some, pageBytes_eq (m := ⟨.none, bq⟩) hqp hqm]
      by_cases hqe : q = p
      · rw [pageBytes_eq (m := ⟨.none, bq⟩) (by rw [hpages, if_neg (by omega), if_pos hqe])
          (by rw [← hqe]; exact hqm')]
      · rw [pageBytes_eq (m := ⟨.none, bq⟩) (by rw [hpages, if_neg (by omega), if_neg hqe, hqp]) hqm']

end

/-! ### New bytes for a page -/

section

variable {h i p : Nat} {b : Nat → UInt8}

theorem RegistryInv.putMapping (hI : RegistryInv E s) {pg : Page} (hp : s.pages p = some pg)
    (b : Nat → UInt8) : RegistryInv E (putMapping s (E.mmap p) ⟨.none, b⟩) where
  live := hI.live
  registered := hI.registered
  tid_inj := hI.tid_inj
  area := hI.area
  held := hI.held
  same_index := hI.same_index
  counted := hI.counted
  mapped := by
    intro x pg' hx
    by_cases hxp : x = p
    · rw [hxp]
      exact ⟨b, putMapping_mem⟩
    · rw [putMapping_mem_of_ne (fun hc => hxp (E.mmap_inj _ _ hc))]
      exact hI.mapped x pg' hx
  memory := by
    intro a m ha
    by_cases hap : a = E.mmap p
    · exact ⟨p, pg, hap, hp⟩
    · rw [putMapping_mem_of_ne hap] at ha
      exact hI.memory a m ha
  fresh_pair := hI.fresh_pair
  fresh_page := hI.fresh_page
  page_size := hI.page_size
  started := hI.started

/-- New bytes for a page that one area alone holds are new bytes of that area. -/
theorem byteAt_putMapping (hI : RegistryInv E s) (hs : slot s h i = some p)
    (hone : refs (own s) p ≤ 1) (x k : Nat) :
    byteAt E (putMapping s (E.mmap p) ⟨.none, b⟩) x k =
      if x = h ∧ k / E.getpagesize = i then b (k % E.getpagesize) else byteAt E s x k := by
  obtain ⟨hp, -⟩ := hI.slot_page hs
  have hslot : ∀ a, slot (putMapping s (E.mmap p) ⟨.none, b⟩) x a = slot s x a := fun _ => rfl
  rw [byteAt, byteAt, hslot]
  by_cases hc : x = h ∧ k / E.getpagesize = i
  · rw [if_pos hc, hc.1, hc.2, hs, Option.elim_some]
    rw [pageBytes_eq (s := putMapping s (E.mmap p) ⟨.none, b⟩) (m := ⟨.none, b⟩) hp putMapping_mem]
  · rw [if_neg hc]
    cases hq : slot s x (k / E.getpagesize) with
    | none => rfl
    | some q =>
      obtain ⟨hqp, bq, hqm⟩ := hI.slot_page hq
      have hqe : q ≠ p := by
        intro hqe
        rw [hqe, slot_eq] at hq
        rw [slot_eq] at hs
        have hi := hI.same_index x h _ _ p hq hs
        by_cases hx : x = h
        · exact hc ⟨hx, hi⟩
        · have := hI.shared hx (List.mem_of_getElem? hq) (List.mem_of_getElem? hs)
          omega
      rw [Option.elim_some, Option.elim_some, pageBytes_eq (m := ⟨.none, bq⟩) hqp hqm]
      rw [pageBytes_eq (s := putMapping s (E.mmap p) ⟨.none, b⟩) (m := ⟨.none, bq⟩) hqp]
      rw [putMapping_mem_of_ne (fun hc' => hqe (E.mmap_inj _ _ hc')), hqm]

end

theorem RegistryInv.setLock (hI : RegistryInv E s) (m : Mutex) (b : Bool) :
    RegistryInv E (setLock s m b) :=
  ⟨hI.live, hI.registered, hI.tid_inj, hI.area, hI.held, hI.same_index, hI.counted, hI.mapped,
    hI.memory, hI.fresh_pair, hI.fresh_page, hI.page_size, hI.started⟩

/-! ### What a write does -/

/-- From `s` to `s'`, the bytes `src 0, …, src (len - 1)` have been written at `lo` to the area of
the pair `h`, whose slots from `top` on have not changed. -/
structure Wrote (E : Platform) (s s' : State) (h lo len : Nat) (src : Nat → UInt8) (top : Nat) :
    Prop where
  inv : RegistryInv E s'
  arr : s'.tidTlsArr = s.tidTlsArr
  key : ∀ x, (s'.pairs x).map key = (s.pairs x).map key
  pairs : ∀ x, x ≠ h → s'.pairs x = s.pairs x
  slots : ∀ a, top ≤ a → slot s' h a = slot s h a
  locked : s'.locked = s.locked
  isFirstTime : s'.isFirstTime = s.isFirstTime
  pageSize : s'.pageSize = s.pageSize
  nextPair : s'.nextPair = s.nextPair
  bytes : ∀ x k, byteAt E s' x k =
    if x = h ∧ lo ≤ k ∧ k < lo + len then src (k - lo) else byteAt E s x k

theorem Wrote.refl (hI : RegistryInv E s) (h lo : Nat) (src : Nat → UInt8) (top : Nat) :
    Wrote E s s h lo 0 src top := by
  refine ⟨hI, rfl, fun _ => rfl, fun _ _ => rfl, fun _ _ => rfl, rfl, rfl, rfl, rfl, ?_⟩
  intro x k
  rw [if_neg]
  omega

theorem Wrote.trans {s'' : State} {h lo len len' top top' : Nat} {src : Nat → UInt8}
    (hw : Wrote E s s' h lo len src top)
    (hw' : Wrote E s' s'' h (lo + len) len' (fun k => src (len + k)) top') (htop : top ≤ top') :
    Wrote E s s'' h lo (len + len') src top' where
  inv := hw'.inv
  arr := hw'.arr.trans hw.arr
  key := fun x => (hw'.key x).trans (hw.key x)
  pairs := fun x hx => (hw'.pairs x hx).trans (hw.pairs x hx)
  slots := fun a ha => (hw'.slots a ha).trans (hw.slots a (le_trans htop ha))
  locked := hw'.locked.trans hw.locked
  isFirstTime := hw'.isFirstTime.trans hw.isFirstTime
  pageSize := hw'.pageSize.trans hw.pageSize
  nextPair := hw'.nextPair.trans hw.nextPair
  bytes := by
    intro x k
    rw [hw'.bytes, hw.bytes]
    by_cases hx : x = h
    · by_cases hk : lo + len ≤ k ∧ k < lo + len + len'
      · rw [if_pos ⟨hx, hk⟩, if_pos ⟨hx, by omega⟩]
        congr 1
        omega
      · rw [if_neg (fun hc => hk hc.2)]
        by_cases hk' : lo ≤ k ∧ k < lo + len
        · rw [if_pos ⟨hx, hk'⟩, if_pos ⟨hx, by omega⟩]
        · rw [if_neg (fun hc => hk' hc.2), if_neg (fun hc => by omega)]
    · rw [if_neg (fun hc => hx hc.1), if_neg (fun hc => hx hc.1), if_neg (fun hc => hx hc.1)]

/-- A write under a lock that was free and is free again. -/
theorem Wrote.unlock {h lo len top : Nat} {src : Nat → UInt8} {m : Mutex} (hl : s.locked m = false)
    (hw : Wrote E (setLock s m true) s' h lo len src top) :
    Wrote E s (setLock s' m false) h lo len src top := by
  refine ⟨hw.inv.setLock m false, hw.arr, hw.key, hw.pairs, hw.slots, ?_, hw.isFirstTime,
    hw.pageSize, hw.nextPair, hw.bytes⟩
  simp only [setLock, hw.locked, Function.update_idem]
  rw [← hl, Function.update_eq_self]

theorem Wrote.mono {h lo len top top' : Nat} {src : Nat → UInt8}
    (hw : Wrote E s s' h lo len src top) (htop : top ≤ top') :
    Wrote E s s' h lo len src top' :=
  { hw with slots := fun a ha => hw.slots a (le_trans htop ha) }

theorem RegistryInv.address_ne (hI : RegistryInv E s) {p : Nat} {pg : Page}
    (hp : s.pages p = some pg) : E.mmap p ≠ E.mmap s.nextPage := by
  intro hc
  have := E.mmap_inj _ _ hc
  have := hI.page_lt hp
  omega

/-- The page `unshare` goes on with is held by one area alone. -/
theorem steps_unshare (hI : RegistryInv E s) (hps : s.pageSize = E.getpagesize)
    (hl : s.locked .copy = false) {h i p : Nat} (hs : slot s h i = some p)
    (k : Nat → Prog sig Int) (lo : Nat) (src : Nat → UInt8) :
    ∃ q s', (machine E).Steps (unshare h i p k) s (k q) s' ∧ slot s' h i = some q ∧
      refs (own s') q ≤ 1 ∧ Wrote E s s' h lo 0 src (i + 1) := by
  obtain ⟨hp, b, hm⟩ := hI.slot_page hs
  have hcount := steps_refCount (E := E) hp fun refCount => if refCount > 1 then
    copyPage h p i (.act (.loadSlot h i) fun (currPage : Nat) => k currPage) else k p
  by_cases hshared : 2 ≤ refs (own s) p
  · have hI' := hI.copied hs hshared hm
    have hq : slot (copied E s h i p ⟨E.mmap p, refs (own s) p⟩ b) h i = some s.nextPage := by
      rw [slot_copied hs, if_pos ⟨rfl, rfl⟩]
    refine ⟨s.nextPage, _, ?_, hq, ?_, ?_⟩
    · refine hcount.trans ?_
      rw [if_pos (show (refs (own s) p : Int) > 1 by omega)]
      refine (steps_copyPage hl hp hm ?_ (hI.address_ne hp) (by rw [hs]; rfl) _).trans ?_
      · exact Nat.ne_of_lt (hI.page_lt hp)
      · exact steps_loadSlot hq k
    · have hrefs := hI'.counted s.nextPage _ (by rw [pages_copied hI hp, if_pos rfl])
      have := congrArg Page.refCount hrefs
      simp only at this
      omega
    · refine ⟨hI', rfl, key_copied, ?_, ?_, rfl, rfl, rfl, rfl, ?_⟩
      · intro x hx
        rw [pairs_copied, if_neg hx]
      · intro a ha
        rw [slot_copied hs, if_neg (by omega)]
      · intro x a
        rw [if_neg (by omega), byteAt_copied hI hs hps hm]
  · refine ⟨p, s, ?_, hs, by omega, ?_⟩
    · refine hcount.trans ?_
      rw [if_neg (show ¬ (refs (own s) p : Int) > 1 by omega)]
      exact .refl _ _
    · exact .refl hI h lo src (i + 1)

/-- **One segment of a write**: the page of slot `i`, unshared first. -/
theorem steps_writePage (hI : RegistryInv E s) (hps : s.pageSize = E.getpagesize)
    (hl : s.locked .copy = false) {h i p off len : Nat} (hs : slot s h i = some p)
    (hlen : off + len ≤ E.getpagesize) (src : Nat → UInt8) (k : Prog sig Int) :
    ∃ s', (machine E).Steps (unshare h i p fun q => writeSegment q off len src k) s k s' ∧
      Wrote E s s' h (i * E.getpagesize + off) len src (i + 1) := by
  obtain ⟨q, s₁, hsteps, hq, hone, hw⟩ := steps_unshare hI hps hl hs
    (fun q => writeSegment q off len src k) (i * E.getpagesize + off) src
  obtain ⟨hqp, b, hqm⟩ := hw.inv.slot_page hq
  refine ⟨_, hsteps.trans (steps_writeSegment hqp hqm hlen src k), ?_⟩
  have hwrite : Wrote E s₁ (putMapping s₁ (E.mmap q) ⟨.none, blit b off len src⟩) h
      (i * E.getpagesize + off + 0) len (fun k => src (0 + k)) (i + 1) := by
    refine ⟨hw.inv.putMapping hqp _, rfl, fun _ => rfl, fun _ _ => rfl, fun _ _ => rfl, rfl, rfl,
      rfl, rfl, ?_⟩
    intro x k
    rw [byteAt_putMapping hw.inv hq hone]
    have hdm := Nat.div_add_mod k E.getpagesize
    rw [Nat.mul_comm] at hdm
    have hmod := Nat.mod_lt k E.pos
    by_cases hc : x = h ∧ k / E.getpagesize = i
    · rw [if_pos hc, blit]
      rw [hc.2] at hdm
      by_cases hk : off ≤ k % E.getpagesize ∧ k % E.getpagesize < off + len
      · rw [if_pos hk, if_pos ⟨hc.1, by omega⟩]
        congr 1
        omega
      · rw [if_neg hk, if_neg (fun hk' => hk (by omega)), hc.1, byteAt, hc.2, hq, Option.elim_some,
          pageBytes_eq hqp hqm]
    · rw [if_neg hc, if_neg]
      rintro ⟨hx, hlo, hhi⟩
      apply hc
      refine ⟨hx, ?_⟩
      rw [Nat.div_eq_iff E.pos]
      omega
  have htrans := hw.trans hwrite (le_refl _)
  rw [Nat.zero_add] at htrans
  exact htrans

end EC440.Tls
