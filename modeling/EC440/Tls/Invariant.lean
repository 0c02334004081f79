import EC440.Lib.Refs
import EC440.Tls.Access

/-!
# The registry between calls

`RegistryInv` is what holds of the registry and of the pages between two calls: every thread
id has one slot at most, every area has the pages its size needs, the reference count
of a page is the number of slots of areas that hold it, areas that share a page hold
it at the same index, and every mapped page is protected.

`createNewTls` keeps it, for a new area and for a clone, as long as a slot of
`tid_tls_arr` is free.
-/

namespace EC440.Tls

open EC440.Lib

/-- The pages of the pair `h`. -/
def pagesOf (s : State) (h : Nat) : List Nat :=
  match s.pairs h with
  | none => []
  | some tt => tt.tls.pages

/-- The pages held through slot `i` of `tid_tls_arr`. -/
def own (s : State) (i : Fin maxThreadCount) : List Nat :=
  match s.tidTlsArr.get i with
  | none => []
  | some h => pagesOf s h

/-- An area as `create_new_tls` makes it. -/
structure AreaOk (E : Platform) (tt : TidTls) : Prop where
  tid : tt.tls.tid = tt.tid
  size_pos : 0 < tt.tls.size.toNat
  numPages : tt.tls.numPages = numPagesFor E.getpagesize tt.tls.size
  length : tt.tls.pages.length = tt.tls.numPages

structure RegistryInv (E : Platform) (s : State) : Prop where
  live : ∀ i h, s.tidTlsArr.get i = some h → ∃ tt, s.pairs h = some tt
  registered : ∀ h tt, s.pairs h = some tt → ∃ i, s.tidTlsArr.get i = some h
  tid_inj : ∀ i j h h' tt tt', s.tidTlsArr.get i = some h → s.tidTlsArr.get j = some h' →
    s.pairs h = some tt → s.pairs h' = some tt' → tt.tid = tt'.tid → i = j
  area : ∀ h tt, s.pairs h = some tt → AreaOk E tt
  held : ∀ h p, p ∈ pagesOf s h → ∃ pg, s.pages p = some pg
  same_index : ∀ h h' (i j p : Nat), (pagesOf s h)[i]? = some p → (pagesOf s h')[j]? = some p → i = j
  counted : ∀ p pg, s.pages p = some pg → pg = ⟨E.mmap p, refs (own s) p⟩
  mapped : ∀ p pg, s.pages p = some pg → ∃ b, s.mem (E.mmap p) = some ⟨.none, b⟩
  memory : ∀ a m, s.mem a = some m → ∃ p pg, a = E.mmap p ∧ s.pages p = some pg
  fresh_pair : ∀ h, s.nextPair ≤ h → s.pairs h = none
  fresh_page : ∀ p, s.nextPage ≤ p → s.pages p = none
  page_size : s.isFirstTime = false → s.pageSize = E.getpagesize
  started : ∀ h tt, s.pairs h = some tt → s.isFirstTime = false

/-- Every slot in use points to a pair. -/
def SlotsLive (s : State) : Prop := ∀ i h, s.tidTlsArr.get i = some h → ∃ tt, s.pairs h = some tt

/-- No mutex is held. -/
def Unlocked (s : State) : Prop := ∀ m, s.locked m = false

variable {E : Platform} {s : State}

theorem inv_init (E : Platform) : RegistryInv E init ∧ Unlocked init := by
  have harr : ∀ i, init.tidTlsArr.get i = none := by
    intro i
    exact Arr.get_fill_default i
  constructor
  · constructor
    · intro i h hi
      rw [harr] at hi
      cases hi
    · intro h tt ht
      cases ht
    · intro i j h h' tt tt' hi
      rw [harr] at hi
      cases hi
    · intro h tt ht
      cases ht
    · intro h p hp
      cases hp
    · intro h h' i j p hp
      cases hp
    · intro p pg hp
      cases hp
    · intro p pg hp
      cases hp
    · intro a m ha
      cases ha
    · intro h _
      rfl
    · intro p _
      rfl
    · intro hf
      cases hf
    · intro h tt ht
      cases ht
  · intro m
    rfl

/-! ### Consequences -/

theorem pagesOf_eq {h : Nat} {tt : TidTls} (ht : s.pairs h = some tt) :
    pagesOf s h = tt.tls.pages := by
  rw [pagesOf, ht]

theorem slot_eq (s : State) (h i : Nat) : slot s h i = (pagesOf s h)[i]? := by
  rw [slot, pagesOf]
  cases s.pairs h with
  | none => rfl
  | some tt => rfl

theorem index_lt {i h : Nat} (hi : s.tidTlsArr.get i = some h) : i < maxThreadCount := by
  by_contra hge
  rw [Arr.get_of_ge _ (by omega)] at hi
  cases hi

theorem own_eq {i h : Nat} (hi : s.tidTlsArr.get i = some h) :
    own s ⟨i, index_lt hi⟩ = pagesOf s h := by
  rw [own]
  simp only [hi]

/-- The pages of an area are distinct. -/
theorem RegistryInv.nodup (h : RegistryInv E s) (x : Nat) : (pagesOf s x).Nodup := by
  rw [List.nodup_iff_injective_getElem]
  intro i j hij
  apply Fin.ext
  refine h.same_index x x i j _ (List.getElem?_eq_getElem i.isLt) ?_
  rw [List.getElem?_eq_getElem j.isLt]
  exact congrArg some hij.symm

/-- Every slot of an area holds a page that is mapped and protected. -/
theorem RegistryInv.slot_page (h : RegistryInv E s) {x i p : Nat} (hp : slot s x i = some p) :
    s.pages p = some ⟨E.mmap p, refs (own s) p⟩ ∧ ∃ b, s.mem (E.mmap p) = some ⟨.none, b⟩ := by
  rw [slot_eq] at hp
  obtain ⟨pg, hpg⟩ := h.held x p (List.mem_of_getElem? hp)
  have hc := h.counted p pg hpg
  subst hc
  exact ⟨hpg, h.mapped p _ hpg⟩

/-- Pairs in different slots are different. -/
theorem RegistryInv.slot_inj (h : RegistryInv E s) {i j x : Nat} (hi : s.tidTlsArr.get i = some x)
    (hj : s.tidTlsArr.get j = some x) : i = j := by
  obtain ⟨tt, ht⟩ := h.live i x hi
  exact h.tid_inj i j x x tt tt hi hj ht ht rfl

/-- Two areas that hold a page make two references. -/
theorem RegistryInv.shared (h : RegistryInv E s) {x y p : Nat} (hxy : x ≠ y) (hx : p ∈ pagesOf s x)
    (hy : p ∈ pagesOf s y) : 2 ≤ refs (own s) p := by
  have hreg : ∀ z, p ∈ pagesOf s z → ∃ i, s.tidTlsArr.get i = some z := by
    intro z hz
    cases ht : s.pairs z with
    | none => rw [pagesOf, ht] at hz; cases hz
    | some tt => exact h.registered z tt ht
  obtain ⟨i, hi⟩ := hreg x hx
  obtain ⟨j, hj⟩ := hreg y hy
  apply two_le_refs (i := ⟨i, index_lt hi⟩) (j := ⟨j, index_lt hj⟩)
  · intro hij
    have hij' : i = j := congrArg Fin.val hij
    subst hij'
    rw [hi] at hj
    exact hxy (Option.some.inj hj)
  · rw [own_eq hi]
    exact hx
  · rw [own_eq hj]
    exact hy

/-! ### The search for a thread -/

theorem scan_spec (hlive : SlotsLive s) (tid : Nat) :
    ∀ is, scan s tid is = some none ∧
        (∀ i ∈ is, ∀ x tt, s.tidTlsArr.get i = some x → s.pairs x = some tt → tt.tid ≠ tid) ∨
      ∃ i x tt, scan s tid is = some (some x) ∧ s.tidTlsArr.get i = some x ∧
        s.pairs x = some tt ∧ tt.tid = tid := by
  intro is
  induction is with
  | nil =>
    refine Or.inl ⟨rfl, ?_⟩
    intro i hi
    cases hi
  | cons i is ih =>
    rw [scan]
    cases hi : s.tidTlsArr.get i with
    | none =>
      rcases ih with ⟨hnone, hall⟩ | hsome
      · refine Or.inl ⟨hnone, ?_⟩
        intro j hj x tt hx
        rcases List.mem_cons.mp hj with rfl | hj
        · rw [hi] at hx
          cases hx
        · exact hall j hj x tt hx
      · exact Or.inr hsome
    | some x =>
      obtain ⟨tt, ht⟩ := hlive i x hi
      simp only [ht]
      by_cases htid : tt.tid = tid
      · rw [if_pos htid]
        exact Or.inr ⟨i, x, tt, rfl, hi, ht, htid⟩
      · rw [if_neg htid]
        rcases ih with ⟨hnone, hall⟩ | hsome
        · refine Or.inl ⟨hnone, ?_⟩
          intro j hj y tt' hy ht'
          rcases List.mem_cons.mp hj with rfl | hj
          · rw [hi] at hy
            cases hy
            rw [ht] at ht'
            cases ht'
            exact htid
          · exact hall j hj y tt' hy ht'
        · exact Or.inr hsome

/-- The search finds the area of `tid`, or there is none. -/
theorem getTls_spec (hlive : SlotsLive s) (tid : Nat) :
    getTls s tid = some none ∧
        (∀ i x tt, s.tidTlsArr.get i = some x → s.pairs x = some tt → tt.tid ≠ tid) ∨
      ∃ i x tt, getTls s tid = some (some x) ∧ s.tidTlsArr.get i = some x ∧
        s.pairs x = some tt ∧ tt.tid = tid := by
  rcases scan_spec hlive tid (List.range maxThreadCount) with ⟨hnone, hall⟩ | hsome
  · refine Or.inl ⟨hnone, ?_⟩
    intro i x tt hx
    exact hall i (List.mem_range.mpr (index_lt hx)) x tt hx
  · exact Or.inr hsome

/-- The search finds exactly the pair of `tid`. -/
theorem getTls_eq_some_iff (h : RegistryInv E s) (tid x : Nat) :
    getTls s tid = some (some x) ↔ ∃ tt, s.pairs x = some tt ∧ tt.tid = tid := by
  constructor
  · intro hg
    rcases getTls_spec h.live tid with ⟨hnone, -⟩ | ⟨i, y, tt, hsome, -, ht, htid⟩
    · rw [hnone] at hg
      cases hg
    · rw [hsome] at hg
      cases hg
      exact ⟨tt, ht, htid⟩
  · rintro ⟨tt, ht, htid⟩
    obtain ⟨i, hi⟩ := h.registered x tt ht
    rcases getTls_spec h.live tid with ⟨-, hall⟩ | ⟨j, y, tt', hsome, hj, ht', htid'⟩
    · exact absurd htid (hall i x tt hi ht)
    · have hij := h.tid_inj i j x y tt tt' hi hj ht ht' (by rw [htid, htid'])
      subst hij
      rw [hi] at hj
      cases hj
      exact hsome

/-! ### Making an area -/

theorem mapPages_spec (E : Platform) (n : Nat) : ∀ s : State,
    (mapPages E n s).1 = List.range' s.nextPage n ∧
      (mapPages E n s).2 = { s with
        pages := (mapPages E n s).2.pages
        mem := (mapPages E n s).2.mem
        nextPage := s.nextPage + n } ∧
      (∀ p, (mapPages E n s).2.pages p =
        if s.nextPage ≤ p ∧ p < s.nextPage + n then some ⟨E.mmap p, 1⟩ else s.pages p) ∧
      (∀ p, s.nextPage ≤ p → p < s.nextPage + n →
        (mapPages E n s).2.mem (E.mmap p) = some ⟨.none, fun _ => 0⟩) ∧
      ∀ a, (∀ p, s.nextPage ≤ p → p < s.nextPage + n → a ≠ E.mmap p) →
        (mapPages E n s).2.mem a = s.mem a := by
  induction n with
  | zero =>
    intro s
    refine ⟨rfl, rfl, ?_, ?_, ?_⟩
    · intro p
      rw [if_neg (by omega)]
      rfl
    · intro p hp hp'
      omega
    · intro a _
      rfl
  | succ n ih =>
    intro s
    obtain ⟨hlist, hrest, hpages, hzero, hmem⟩ := ih (mapPage E s)
    have hnext : (mapPage E s).nextPage = s.nextPage + 1 := rfl
    rw [hnext] at hlist hrest hpages hzero hmem
    have hother : ∀ a, a ≠ E.mmap s.nextPage → (mapPage E s).mem a = s.mem a := by
      intro a ha
      exact Function.update_of_ne ha _ _
    simp only [mapPages]
    refine ⟨?_, ?_, ?_, ?_, ?_⟩
    · rw [hlist, List.range'_succ]
    · rw [hrest]
      simp only [mapPage]
      congr 1
      omega
    · intro p
      rw [hpages p]
      by_cases hp : p = s.nextPage
      · subst hp
        rw [if_neg (by omega), if_pos (by omega)]
        exact Function.update_self _ _ _
      · have hold : (mapPage E s).pages p = s.pages p := Function.update_of_ne hp _ _
        rw [hold]
        by_cases hr : s.nextPage + 1 ≤ p ∧ p < s.nextPage + 1 + n
        · rw [if_pos hr, if_pos (by omega)]
        · rw [if_neg hr, if_neg (by omega)]
    · intro p hp hp'
      by_cases hps : p = s.nextPage
      · subst hps
        rw [hmem]
        · exact Function.update_self _ _ _
        · intro q hq _ heq
          have := E.mmap_inj _ _ heq
          omega
      · exact hzero p (by omega) (by omega)
    · intro a ha
      rw [hmem a (fun p hp hp' => ha p (by omega) (by omega)), hother a (ha _ (le_refl _) (by omega))]

/-- The pages with one more reference for each place of `l` that holds them. -/
def addRefs (l : List Nat) (pages : Nat → Option Page) (p : Nat) : Option Page :=
  (pages p).map fun pg => { pg with refCount := pg.refCount + (l.count p : Nat) }

@[simp] theorem addRefs_nil (pages : Nat → Option Page) : addRefs [] pages = pages := by
  funext p
  simp [addRefs]

theorem sharePages_spec : ∀ (l : List Nat) (s : State), (∀ p ∈ l, ∃ pg, s.pages p = some pg) →
    sharePages l s = some { s with pages := addRefs l s.pages } := by
  intro l
  induction l with
  | nil =>
    intro s _
    rw [sharePages, addRefs_nil]
  | cons q l ih =>
    intro s hl
    obtain ⟨pg, hpg⟩ := hl q (List.mem_cons_self ..)
    rw [sharePages, hpg]
    simp only
    rw [ih]
    · congr 2
      funext p
      simp only [addRefs]
      by_cases hp : p = q
      · subst hp
        simp only [Function.update_self, hpg, Option.map_some, List.count_cons_self]
        congr 2
        push_cast
        omega
      · simp only [Function.update_of_ne hp, List.count_cons_of_ne (Ne.symm hp)]
    · intro p hp
      by_cases hpq : p = q
      · subst hpq
        exact ⟨_, Function.update_self _ _ _⟩
      · obtain ⟨pg', hpg'⟩ := hl p (List.mem_cons_of_mem _ hp)
        exact ⟨pg', by simp only [Function.update_of_ne hpq, hpg']⟩

/-- The state `s'` with the pages `l` of a new area made or shared, and not yet registered. -/
structure Prepared (E : Platform) (s s' : State) (l : List Nat) : Prop where
  arr : s'.tidTlsArr = s.tidTlsArr
  pairs : s'.pairs = s.pairs
  nextPair : s'.nextPair = s.nextPair
  locked : s'.locked = s.locked
  isFirstTime : s'.isFirstTime = false
  pageSize : s'.pageSize = E.getpagesize
  inj : ∀ (i j p : Nat), l[i]? = some p → l[j]? = some p → i = j
  same_index : ∀ h (i j p : Nat), l[i]? = some p → (pagesOf s h)[j]? = some p → i = j
  made : ∀ p ∈ l, ∃ pg, s'.pages p = some pg
  kept : ∀ p pg, s.pages p = some pg →
    (∃ pg', s'.pages p = some pg') ∧ s'.mem (E.mmap p) = s.mem (E.mmap p)
  counted : ∀ p pg, s'.pages p = some pg → pg = ⟨E.mmap p, (refs (own s) p + l.count p : Nat)⟩
  mapped : ∀ p pg, s'.pages p = some pg → ∃ b, s'.mem (E.mmap p) = some ⟨.none, b⟩
  memory : ∀ a m, s'.mem a = some m → ∃ p pg, a = E.mmap p ∧ s'.pages p = some pg
  fresh_page : ∀ p, s'.nextPage ≤ p → s'.pages p = none

/-- A page that exists nowhere is held nowhere. -/
theorem RegistryInv.refs_eq_zero (h : RegistryInv E s) {p : Nat} (hp : s.pages p = none) :
    refs (own s) p = 0 := by
  apply EC440.Lib.refs_eq_zero
  intro i hi
  rw [own] at hi
  cases hx : s.tidTlsArr.get i with
  | none =>
    simp only [hx] at hi
    cases hi
  | some x =>
    simp only [hx] at hi
    obtain ⟨pg, hpg⟩ := h.held x p hi
    rw [hp] at hpg
    cases hpg

/-- The pages of a new area. -/
theorem prepared_mapPages (h : RegistryInv E s) (hfirst : s.isFirstTime = false) (n : Nat) :
    Prepared E s (mapPages E n s).2 (mapPages E n s).1 := by
  obtain ⟨hlist, hrest, hpages, hzero, hmem⟩ := mapPages_spec E n s
  have hmem_l : ∀ p, p ∈ (mapPages E n s).1 ↔ s.nextPage ≤ p ∧ p < s.nextPage + n := by
    intro p
    rw [hlist, List.mem_range'_1]
  have hold : ∀ p pg, s.pages p = some pg → p < s.nextPage := by
    intro p pg hp
    by_contra hge
    rw [h.fresh_page p (by omega)] at hp
    cases hp
  have hnodup : (mapPages E n s).1.Nodup := by
    rw [hlist]
    exact List.nodup_range'
  have hkeep : ∀ p, p < s.nextPage → (mapPages E n s).2.pages p = s.pages p ∧
      (mapPages E n s).2.mem (E.mmap p) = s.mem (E.mmap p) := by
    intro p hp
    refine ⟨by rw [hpages p, if_neg (by omega)], hmem _ ?_⟩
    intro q hq _ heq
    have := E.mmap_inj _ _ heq
    omega
  constructor
  · rw [hrest]
  · rw [hrest]
  · rw [hrest]
  · rw [hrest]
  · rw [hrest]
    exact hfirst
  · rw [hrest]
    exact h.page_size hfirst
  · intro i j p hi hj
    obtain ⟨hilt, hi⟩ := List.getElem?_eq_some_iff.mp hi
    obtain ⟨hjlt, hj⟩ := List.getElem?_eq_some_iff.mp hj
    exact (List.Nodup.getElem_inj_iff hnodup).mp (hi.trans hj.symm)
  · intro x i j p hi hj
    obtain ⟨pg, hpg⟩ := h.held x p (List.mem_of_getElem? hj)
    have hlt := hold p pg hpg
    have hge := (hmem_l p).mp (List.mem_of_getElem? hi)
    omega
  · intro p hp
    rw [hpages p, if_pos ((hmem_l p).mp hp)]
    exact ⟨_, rfl⟩
  · intro p pg hp
    obtain ⟨hpg, hm⟩ := hkeep p (hold p pg hp)
    rw [hpg]
    exact ⟨⟨pg, hp⟩, hm⟩
  · intro p pg hp
    rw [hpages p] at hp
    split at hp
    · rename_i hr
      cases hp
      rw [h.refs_eq_zero (h.fresh_page p hr.1),
        List.count_eq_one_of_mem hnodup ((hmem_l p).mpr hr)]
      rfl
    · rename_i hr
      rw [List.count_eq_zero.mpr (fun hc => hr ((hmem_l p).mp hc)), Nat.add_zero]
      exact h.counted p pg hp
  · intro p pg hp
    by_cases hr : s.nextPage ≤ p ∧ p < s.nextPage + n
    · exact ⟨_, hzero p hr.1 hr.2⟩
    · rw [hpages p, if_neg hr] at hp
      rw [(hkeep p (hold p pg hp)).2]
      exact h.mapped p pg hp
  · intro a m ha
    by_cases hr : ∃ p, s.nextPage ≤ p ∧ p < s.nextPage + n ∧ a = E.mmap p
    · obtain ⟨p, hp, hp', rfl⟩ := hr
      exact ⟨p, _, rfl, by rw [hpages p, if_pos ⟨hp, hp'⟩]⟩
    · rw [hmem a (fun p hp hp' heq => hr ⟨p, hp, hp', heq⟩)] at ha
      obtain ⟨p, pg, rfl, hpg⟩ := h.memory a m ha
      exact ⟨p, pg, rfl, by rw [(hkeep p (hold p pg hpg)).1, hpg]⟩
  · intro p hp
    have hnext : (mapPages E n s).2.nextPage = s.nextPage + n := congrArg State.nextPage hrest
    rw [hpages p, if_neg (by omega)]
    exact h.fresh_page p (by omega)

/-- The pages of a clone of the pair `x`. -/
theorem prepared_sharePages (h : RegistryInv E s) {x : Nat} {tt : TidTls}
    (ht : s.pairs x = some tt) :
    Prepared E s { s with pages := addRefs tt.tls.pages s.pages } tt.tls.pages := by
  have hfirst := h.started x tt ht
  have hl := pagesOf_eq ht
  constructor
  · rfl
  · rfl
  · rfl
  · rfl
  · exact hfirst
  · exact h.page_size hfirst
  · intro i j p hi hj
    rw [← hl] at hi hj
    exact h.same_index x x i j p hi hj
  · intro y i j p hi hj
    rw [← hl] at hi
    exact h.same_index x y i j p hi hj
  · intro p hp
    rw [← hl] at hp
    obtain ⟨pg, hpg⟩ := h.held x p hp
    simp only [addRefs, hpg]
    exact ⟨_, rfl⟩
  · intro p pg hp
    simp only [addRefs, hp]
    exact ⟨⟨_, rfl⟩, trivial⟩
  · intro p pg hp
    simp only [addRefs, Option.map_eq_some_iff] at hp
    obtain ⟨pg', hpg', rfl⟩ := hp
    rw [h.counted p pg' hpg', Nat.cast_add]
  · intro p pg hp
    simp only [addRefs, Option.map_eq_some_iff] at hp
    obtain ⟨pg', hpg', -⟩ := hp
    exact h.mapped p pg' hpg'
  · intro a m ha
    obtain ⟨p, pg, rfl, hpg⟩ := h.memory a m ha
    simp only [addRefs]
    exact ⟨p, _, rfl, by rw [hpg]; rfl⟩
  · intro p hp
    simp only [addRefs, h.fresh_page p hp]
    rfl

/-! ### Registering it -/

theorem freeSlot_spec {i : Nat} (h : freeSlot s = some i) :
    i < maxThreadCount ∧ s.tidTlsArr.get i = none := by
  have hmem := List.mem_of_find?_eq_some h
  have hsome := List.find?_some h
  exact ⟨List.mem_range.mp hmem, Option.isNone_iff_eq_none.mp hsome⟩

/-- Fewer pairs than slots leave a slot free. -/
theorem exists_freeSlot (h : RegistryInv E s) (hn : s.nextPair < maxThreadCount) :
    ∃ i, freeSlot s = some i := by
  by_contra hno
  have hfull : ∀ i : Fin maxThreadCount, ∃ x, s.tidTlsArr.get i = some x := by
    intro i
    have hnone : freeSlot s = none := by
      cases hf : freeSlot s with
      | none => rfl
      | some j => exact absurd ⟨j, hf⟩ hno
    have hi := List.find?_eq_none.mp hnone i (List.mem_range.mpr i.isLt)
    cases hx : s.tidTlsArr.get i with
    | none => rw [hx] at hi; exact absurd rfl hi
    | some x => exact ⟨x, rfl⟩
  choose f hf using hfull
  -- the pairs of the slots are different numbers below `nextPair`
  have hlt : ∀ i, f i < s.nextPair := by
    intro i
    by_contra hge
    obtain ⟨tt, ht⟩ := h.live i (f i) (hf i)
    rw [h.fresh_pair (f i) (by omega)] at ht
    cases ht
  have hinj : Function.Injective fun i => (⟨f i, hlt i⟩ : Fin s.nextPair) := by
    intro i j hij
    have hij' : f i = f j := congrArg Fin.val hij
    apply Fin.ext
    exact h.slot_inj (hf i) (by rw [hf j, hij'])
  have hcard := Fintype.card_le_of_injective _ hinj
  rw [Fintype.card_fin, Fintype.card_fin] at hcard
  omega

/-- The state `s'` with a new pair in slot `i`. -/
def registerAt (s' : State) (i : Nat) (tt : TidTls) : State :=
  { s' with
    pairs := Function.update s'.pairs s'.nextPair (some tt)
    nextPair := s'.nextPair + 1
    tidTlsArr := s'.tidTlsArr.set i (some s'.nextPair) }

theorem register_eq {s' : State} {i : Nat} (hi : freeSlot s' = some i) (self : Nat) (size : UInt32)
    (numPages : Nat) (l : List Nat) :
    register s' self size numPages l =
      (0, registerAt s' i ⟨self, ⟨self, size, numPages, l⟩⟩) := by
  rw [register, appendToArr]
  have hf : freeSlot { s' with
      pairs := Function.update s'.pairs s'.nextPair (some ⟨self, ⟨self, size, numPages, l⟩⟩)
      nextPair := s'.nextPair + 1 } = some i := hi
  rw [hf]
  rfl

theorem freeSlot_congr {s' : State} (h : s'.tidTlsArr = s.tidTlsArr) : freeSlot s' = freeSlot s := by
  rw [freeSlot, freeSlot, h]

section

variable {s' : State} {l : List Nat} {i : Nat} {tt : TidTls}

theorem pairs_registerAt (hp : Prepared E s s' l) (x : Nat) :
    (registerAt s' i tt).pairs x = if x = s.nextPair then some tt else s.pairs x := by
  rw [registerAt]
  simp only [hp.pairs, hp.nextPair, Function.update_apply]

theorem arr_registerAt (hp : Prepared E s s' l) (hi : i < maxThreadCount) (j : Nat) :
    (registerAt s' i tt).tidTlsArr.get j =
      if j = i then some s.nextPair else s.tidTlsArr.get j := by
  rw [registerAt]
  simp only [hp.arr, hp.nextPair, Arr.get_set, hi, and_true]

theorem pagesOf_registerAt (hp : Prepared E s s' l) (hl : tt.tls.pages = l) (x : Nat) :
    pagesOf (registerAt s' i tt) x = if x = s.nextPair then l else pagesOf s x := by
  rw [pagesOf, pairs_registerAt hp, pagesOf]
  by_cases hx : x = s.nextPair
  · simp only [if_pos hx, hl]
  · simp only [if_neg hx]

theorem own_registerAt (h : RegistryInv E s) (hp : Prepared E s s' l) (hi : i < maxThreadCount)
    (hl : tt.tls.pages = l) :
    own (registerAt s' i tt) = Function.update (own s) ⟨i, hi⟩ l := by
  funext j
  rw [own, arr_registerAt hp hi]
  by_cases hj : j = ⟨i, hi⟩
  · subst hj
    simp only [if_pos, Function.update_self, pagesOf_registerAt hp hl]
  · have hji : j.val ≠ i := fun hc => hj (Fin.ext hc)
    rw [if_neg hji, Function.update_of_ne hj, own]
    cases hx : s.tidTlsArr.get j with
    | none => rfl
    | some x =>
      obtain ⟨tt', ht'⟩ := h.live j x hx
      have hne : x ≠ s.nextPair := by
        intro hc
        rw [h.fresh_pair x (by omega)] at ht'
        cases ht'
      simp only [pagesOf_registerAt hp hl, if_neg hne]

/-- **A new area**, made or cloned, keeps the registry in order. -/
theorem RegistryInv.registerAt (h : RegistryInv E s) (hp : Prepared E s s' l)
    (hi : freeSlot s = some i) (hl : tt.tls.pages = l) (harea : AreaOk E tt)
    (hself : ∀ x tt', s.pairs x = some tt' → tt'.tid ≠ tt.tid) :
    RegistryInv E (Tls.registerAt s' i tt) := by
  obtain ⟨hilt, hfree⟩ := freeSlot_spec hi
  have hpairs : ∀ x, (Tls.registerAt s' i tt).pairs x =
      if x = s.nextPair then some tt else s.pairs x := pairs_registerAt hp
  have harr : ∀ j, (Tls.registerAt s' i tt).tidTlsArr.get j =
      if j = i then some s.nextPair else s.tidTlsArr.get j := arr_registerAt hp hilt
  have hpagesOf := pagesOf_registerAt (i := i) hp hl
  have hown := own_registerAt h hp hilt hl
  have hne : ∀ j x, s.tidTlsArr.get j = some x → x ≠ s.nextPair ∧ j ≠ i := by
    intro j x hj
    obtain ⟨tt', ht'⟩ := h.live j x hj
    refine ⟨?_, ?_⟩
    · intro hc
      rw [h.fresh_pair x (by omega)] at ht'
      cases ht'
    · intro hc
      rw [hc, hfree] at hj
      cases hj
  constructor
  · intro j x hj
    rw [harr] at hj
    rw [hpairs]
    by_cases hji : j = i
    · rw [if_pos hji] at hj
      cases hj
      exact ⟨tt, if_pos rfl⟩
    · rw [if_neg hji] at hj
      rw [if_neg (hne j x hj).1]
      exact h.live j x hj
  · intro x tt' hx
    rw [hpairs] at hx
    by_cases hxn : x = s.nextPair
    · exact ⟨i, by rw [harr, if_pos rfl, hxn]⟩
    · rw [if_neg hxn] at hx
      obtain ⟨j, hj⟩ := h.registered x tt' hx
      exact ⟨j, by rw [harr, if_neg (hne j x hj).2, hj]⟩
  · intro a b x y tx ty ha hb hx hy htid
    rw [harr] at ha hb
    rw [hpairs] at hx hy
    by_cases hai : a = i
    · by_cases hbi : b = i
      · rw [hai, hbi]
      · rw [if_neg hbi] at hb
        rw [if_pos hai] at ha
        cases ha
        rw [if_pos rfl] at hx
        cases hx
        rw [if_neg (hne b y hb).1] at hy
        exact absurd htid.symm (hself y ty hy)
    · rw [if_neg hai] at ha
      rw [if_neg (hne a x ha).1] at hx
      by_cases hbi : b = i
      · rw [if_pos hbi] at hb
        cases hb
        rw [if_pos rfl] at hy
        cases hy
        exact absurd htid (hself x tx hx)
      · rw [if_neg hbi] at hb
        rw [if_neg (hne b y hb).1] at hy
        exact h.tid_inj a b x y tx ty ha hb hx hy htid
  · intro x tt' hx
    rw [hpairs] at hx
    by_cases hxn : x = s.nextPair
    · rw [if_pos hxn] at hx
      cases hx
      exact harea
    · rw [if_neg hxn] at hx
      exact h.area x tt' hx
  · intro x p hx
    rw [hpagesOf] at hx
    by_cases hxn : x = s.nextPair
    · rw [if_pos hxn] at hx
      exact hp.made p hx
    · rw [if_neg hxn] at hx
      obtain ⟨pg, hpg⟩ := h.held x p hx
      exact (hp.kept p pg hpg).1
  · intro x y a b p hx hy
    rw [hpagesOf] at hx hy
    by_cases hxn : x = s.nextPair
    · rw [if_pos hxn] at hx
      by_cases hyn : y = s.nextPair
      · rw [if_pos hyn] at hy
        exact hp.inj a b p hx hy
      · rw [if_neg hyn] at hy
        exact hp.same_index y a b p hx hy
    · rw [if_neg hxn] at hx
      by_cases hyn : y = s.nextPair
      · rw [if_pos hyn] at hy
        exact (hp.same_index x b a p hy hx).symm
      · rw [if_neg hyn] at hy
        exact h.same_index x y a b p hx hy
  · intro p pg hpg
    rw [hown, refs_update_of_nil]
    · exact hp.counted p pg hpg
    · rw [own]
      simp only [hfree]
  · exact hp.mapped
  · exact hp.memory
  · intro x hx
    have hx' : s'.nextPair + 1 ≤ x := hx
    rw [hp.nextPair] at hx'
    rw [hpairs, if_neg (by omega)]
    exact h.fresh_pair x (by omega)
  · exact hp.fresh_page
  · intro _
    exact hp.pageSize
  · intro x tt' _
    exact hp.isFirstTime

end

end EC440.Tls
