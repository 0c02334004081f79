import EC440.Tls.Private

/-!
# Programs that share no page

A program of `Access.lean` that works on pages of its own, among the steps of another
program that keeps off these pages.  `Keeps E O h` is what the other may do: it leaves the
protection and the bytes of the pages `O` and the slots of the pair `h` alone.  `Hand` is
what the program knows in return: its slots hold pages of `O`, and the pages it has
unprotected stay so.

One lemma for each step says that it is safe, that it keeps off the pages of the other
program, and what is known after it; `safeAmong_tlsRead` and `safeAmong_tlsWrite` go through
the two programs with them.
-/

namespace EC440.Tls

open EC440.Lib

variable {E : Platform} {s s' u u' : State}

/-- The search reads the array and the thread ids of the pairs. -/
theorem scan_congr (harr : s'.tidTlsArr = s.tidTlsArr)
    (hkey : ∀ x, (s'.pairs x).map key = (s.pairs x).map key) (tid : Nat) :
    ∀ is, scan s' tid is = scan s tid is := by
  intro is
  induction is with
  | nil => rfl
  | cons i is ih =>
    rw [scan, scan, harr]
    cases s.tidTlsArr.get i with
    | none => exact ih
    | some x =>
      have hx := hkey x
      cases h' : s'.pairs x with
      | none =>
        rw [h', Option.map_none, eq_comm, Option.map_eq_none_iff] at hx
        simp only [h', hx]
      | some tt' =>
        obtain ⟨tt, ht, hk⟩ := key_eq hkey h'
        have htid : tt'.tid = tt.tid := congrArg Prod.fst hk
        simp only [h', ht, htid, ih]

/-- A pair that is found is there. -/
theorem scan_pair {tid x : Nat} : ∀ {is : List Nat}, scan s tid is = some (some x) →
    ∃ tt, s.pairs x = some tt := by
  intro is
  induction is with
  | nil =>
    intro hs
    cases hs
  | cons i is ih =>
    intro hs
    rw [scan] at hs
    split at hs
    · exact ih hs
    · split at hs
      · cases hs
      · rename_i tt ht
        split at hs
        · cases hs
          exact ⟨tt, ht⟩
        · exact ih hs

theorem getTls_congr (harr : s'.tidTlsArr = s.tidTlsArr)
    (hkey : ∀ x, (s'.pairs x).map key = (s.pairs x).map key) (tid : Nat) :
    getTls s' tid = getTls s tid :=
  scan_congr harr hkey tid _

/-! ### What one program leaves alone for the other -/

/-- From `u` to `u'`, the pages `O` and the slots of the pair `h` have been left alone. -/
structure Keeps (E : Platform) (O : Nat → Prop) (h : Nat) (u u' : State) : Prop where
  arr : u'.tidTlsArr = u.tidTlsArr
  key : ∀ x, (u'.pairs x).map key = (u.pairs x).map key
  pair : u'.pairs h = u.pairs h
  pageSize : u.pageSize = E.getpagesize → u'.pageSize = E.getpagesize
  nextPage : u.nextPage ≤ u'.nextPage
  address : ∀ p, O p → (u'.pages p).map Page.address = (u.pages p).map Page.address
  mem : ∀ p, O p → u'.mem (E.mmap p) = u.mem (E.mmap p)

variable {O O' : Nat → Prop} {h h' : Nat}

theorem Keeps.refl (u : State) : Keeps E O h u u :=
  ⟨rfl, fun _ => rfl, rfl, id, le_refl _, fun _ _ => rfl, fun _ _ => rfl⟩

theorem Keeps.trans {u'' : State} (hk : Keeps E O h u u') (hk' : Keeps E O h u' u'') :
    Keeps E O h u u'' where
  arr := hk'.arr.trans hk.arr
  key := fun x => (hk'.key x).trans (hk.key x)
  pair := hk'.pair.trans hk.pair
  pageSize := fun hp => hk'.pageSize (hk.pageSize hp)
  nextPage := le_trans hk.nextPage hk'.nextPage
  address := fun p hp => (hk'.address p hp).trans (hk.address p hp)
  mem := fun p hp => (hk'.mem p hp).trans (hk.mem p hp)

/-- A step that changes at most the locks. -/
theorem keeps_setLock (m : Mutex) (b : Bool) : Keeps E O h u (setLock u m b) :=
  ⟨rfl, fun _ => rfl, rfl, id, le_refl _, fun _ _ => rfl, fun _ _ => rfl⟩

theorem keeps_putMapping {p : Nat} (hp : ¬ O p) (m : Mapping) :
    Keeps E O h u (putMapping u (E.mmap p) m) := by
  refine ⟨rfl, fun _ => rfl, rfl, id, le_refl _, fun _ _ => rfl, ?_⟩
  intro q hq
  apply putMapping_mem_of_ne
  intro hc
  rw [E.mmap_inj _ _ hc] at hq
  exact hp hq

theorem keeps_mapPage (hn : ¬ O u.nextPage) : Keeps E O h u (mapPage E u) := by
  refine ⟨rfl, fun _ => rfl, rfl, id, Nat.le_succ _, ?_, ?_⟩
  · intro p hp
    have hne : p ≠ u.nextPage := fun hc => hn (hc ▸ hp)
    simp only [mapPage, Function.update_of_ne hne]
  · intro p hp
    have hne : E.mmap p ≠ E.mmap u.nextPage := fun hc => hn (E.mmap_inj _ _ hc ▸ hp)
    simp only [mapPage, Function.update_of_ne hne]

theorem address_decRefCount (p q : Nat) :
    ((decRefCount u p).pages q).map Page.address = (u.pages q).map Page.address := by
  simp only [decRefCount, Function.update_apply]
  split
  · rename_i hq
    rw [hq, Option.map_map]
    rfl
  · rfl

theorem keeps_decRefCount (p : Nat) : Keeps E O h u (decRefCount u p) :=
  ⟨rfl, fun _ => rfl, rfl, id, le_refl _, fun q _ => address_decRefCount p q, fun _ _ => rfl⟩

theorem key_storeSlot (i p x : Nat) :
    ((storeSlot u h i p).pairs x).map key = (u.pairs x).map key := by
  simp only [storeSlot, Function.update_apply]
  split
  · rename_i hx
    rw [hx, Option.map_map]
    cases u.pairs h with
    | none => rfl
    | some tt => simp [key]
  · rfl

theorem keeps_storeSlot (hne : h ≠ h') (i p : Nat) : Keeps E O h' u (storeSlot u h i p) := by
  refine ⟨rfl, key_storeSlot i p, ?_, id, le_refl _, fun _ _ => rfl, fun _ _ => rfl⟩
  simp only [storeSlot, Function.update_of_ne (Ne.symm hne)]

/-! ### What a program knows -/

/-- The page is mapped where it says. -/
def Live (E : Platform) (u : State) (p : Nat) : Prop :=
  (u.pages p).map Page.address = some (E.mmap p) ∧ ∃ m, u.mem (E.mmap p) = some m

/-- The page is mapped and accessible. -/
def Opened (E : Platform) (u : State) (p : Nat) : Prop :=
  (u.pages p).map Page.address = some (E.mmap p) ∧ ∃ b, u.mem (E.mmap p) = some ⟨.readWrite, b⟩

/-- What thread `t` with the area of the pair `h` knows between its steps: the slots `I` hold pages
of `O`, the pages `L` are mapped and the pages `X` accessible.  A program that maps pages knows in
addition that fresh pages are its own. -/
structure Hand (E : Platform) (t : Nat) (O : Nat → Prop) (h : Nat) (I : Nat → Prop) (maps : Prop)
    (L X : List Nat) (u : State) : Prop where
  get : getTls u t = some (some h)
  pageSize : u.pageSize = E.getpagesize
  slots : ∀ i, I i → ∃ p, slot u h i = some p ∧ O p ∧ Live E u p
  fresh : maps → ∀ p, u.nextPage ≤ p → O p
  live : ∀ p ∈ L, O p ∧ Live E u p
  opened : ∀ p ∈ X, O p ∧ Opened E u p

variable {t : Nat} {I : Nat → Prop} {maps : Prop} {L X : List Nat}

theorem Live.keeps (hk : Keeps E O h u u') {p : Nat} (hp : O p) (hl : Live E u p) : Live E u' p := by
  rw [Live, hk.address p hp, hk.mem p hp]
  exact hl

theorem Opened.keeps (hk : Keeps E O h u u') {p : Nat} (hp : O p) (hl : Opened E u p) :
    Opened E u' p := by
  rw [Opened, hk.address p hp, hk.mem p hp]
  exact hl

theorem slot_congr (hp : u'.pairs h = u.pairs h) (i : Nat) : slot u' h i = slot u h i := by
  rw [slot, slot, hp]

/-- The steps of the other program take nothing away. -/
theorem Hand.keeps (hH : Hand E t O h I maps L X u) (hk : Keeps E O h u u') :
    Hand E t O h I maps L X u' where
  get := by rw [getTls_congr hk.arr hk.key, hH.get]
  pageSize := hk.pageSize hH.pageSize
  slots := by
    intro i hi
    obtain ⟨p, hp, hO, hl⟩ := hH.slots i hi
    exact ⟨p, by rw [slot_congr hk.pair, hp], hO, hl.keeps hk hO⟩
  fresh := fun hm p hp => hH.fresh hm p (le_trans hk.nextPage hp)
  live := fun p hp => ⟨(hH.live p hp).1, (hH.live p hp).2.keeps hk (hH.live p hp).1⟩
  opened := fun p hp => ⟨(hH.opened p hp).1, (hH.opened p hp).2.keeps hk (hH.opened p hp).1⟩

/-- A step of the program's own on a page of its own. -/
theorem Hand.putMapping {p : Nat} {m : Mapping} {X' : List Nat} (hH : Hand E t O h I maps L X u)
    (hX : ∀ q ∈ X', q = p ∧ O p ∧ (u.pages p).map Page.address = some (E.mmap p) ∧
      m.prot = .readWrite ∨ q ≠ p ∧ q ∈ X) :
    Hand E t O h I maps L X' (putMapping u (E.mmap p) m) := by
  have hlive : ∀ q, Live E u q → Live E (Tls.putMapping u (E.mmap p) m) q := by
    intro q hq
    refine ⟨hq.1, ?_⟩
    by_cases hqp : q = p
    · exact ⟨m, by rw [hqp, putMapping_mem]⟩
    · rw [putMapping_mem_of_ne (fun hc => hqp (E.mmap_inj _ _ hc))]
      exact hq.2
  refine ⟨hH.get, hH.pageSize, ?_, hH.fresh, fun q hq => ⟨(hH.live q hq).1, hlive q (hH.live q hq).2⟩,
    ?_⟩
  · intro i hi
    obtain ⟨q, hq, hO, hl⟩ := hH.slots i hi
    exact ⟨q, hq, hO, hlive q hl⟩
  · intro q hq
    rcases hX q hq with ⟨rfl, hO, ha, hprot⟩ | ⟨hne, hq'⟩
    · refine ⟨hO, ha, m.bytes, ?_⟩
      rw [putMapping_mem]
      cases m
      simp only at hprot
      rw [hprot]
    · obtain ⟨hO, ha, b, hb⟩ := hH.opened q hq'
      exact ⟨hO, ha, b, by rw [putMapping_mem_of_ne (fun hc => hne (E.mmap_inj _ _ hc)), hb]⟩

theorem Live.page {p : Nat} (hl : Live E u p) :
    ∃ pg m, u.pages p = some pg ∧ pg.address = E.mmap p ∧ u.mem pg.address = some m := by
  obtain ⟨ha, m, hm⟩ := hl
  obtain ⟨pg, hpg, haddr⟩ := Option.map_eq_some_iff.mp ha
  exact ⟨pg, m, hpg, haddr, by rw [haddr, hm]⟩

theorem Opened.accessible {p : Nat} (ho : Opened E u p) : accessible u p = true := by
  obtain ⟨ha, b, hb⟩ := ho
  obtain ⟨pg, hpg, haddr⟩ := Option.map_eq_some_iff.mp ha
  rw [accessible_eq hpg (by rw [haddr, hb])]
  rfl

/-! ### The steps of a program -/

/-- The program is safe among the steps of another that keeps off the pages `O`, and it keeps off
the pages `O'` itself. -/
def Undisturbed {α : Type} (E : Platform) (O : Nat → Prop) (h : Nat) (O' : Nat → Prop) (h' : Nat)
    (k : Prog sig α) (u : State) : Prop :=
  (machine E).SafeAmong (Keeps E O h) (Keeps E O' h') k u

section

variable {α : Type} {k : Prog sig α}

theorem undisturbed_ret (x : α) (u : State) : Undisturbed E O h O' h' (.ret x) u := trivial

/-- A step of a program. -/
theorem undisturbed_act {a : Act} {k : Reply a → Prog sig α}
    (hstep : ∀ u, Hand E t O h I maps L X u → safe E a u = true ∧
      Keeps E O' h' u (perform E a u).2 ∧
        Undisturbed E O h O' h' (k (perform E a u).1) (perform E a u).2) :
    ∀ u, Hand E t O h I maps L X u → Undisturbed E O h O' h' (.act a k) u := by
  intro u hH
  apply Machine.safeAmong_act (P := Hand E t O h I maps L X)
  · intro v v' hv hk
    exact hv.keeps hk
  · intro v hv _
    exact hstep v hv
  · exact hH

theorem undisturbed_tryLock {m : Mutex} {e : α}
    (hk : ∀ u, Hand E t O h I maps L X u → Undisturbed E O h O' h' k u) :
    ∀ u, Hand E t O h I maps L X u → Undisturbed E O h O' h' (tryLock m e k) u := by
  apply undisturbed_act
  intro u hH
  refine ⟨rfl, keeps_setLock m true, ?_⟩
  exact hk _ (hH.keeps (keeps_setLock m true))

theorem undisturbed_tryUnlock {m : Mutex} {e : α}
    (hk : ∀ u, Hand E t O h I maps L X u → Undisturbed E O h O' h' k u) :
    ∀ u, Hand E t O h I maps L X u → Undisturbed E O h O' h' (tryUnlock m e k) u := by
  apply undisturbed_act
  intro u hH
  refine ⟨rfl, keeps_setLock m false, ?_⟩
  exact hk _ (hH.keeps (keeps_setLock m false))

theorem undisturbed_loadSlot {i : Nat} {k : Nat → Prog sig α} (hi : I i)
    (hk : ∀ p u, Hand E t O h I maps (p :: L) X u → Undisturbed E O h O' h' (k p) u) :
    ∀ u, Hand E t O h I maps L X u → Undisturbed E O h O' h' (.act (.loadSlot h i) k) u := by
  apply undisturbed_act
  intro u hH
  obtain ⟨p, hp, hO, hl⟩ := hH.slots i hi
  refine ⟨by simp only [safe, hp, Option.isSome_some], .refl u, ?_⟩
  simp only [perform, hp, Option.getD_some]
  apply hk
  refine { hH with live := ?_ }
  intro q hq
  rcases List.mem_cons.mp hq with rfl | hq
  · exact ⟨hO, hl⟩
  · exact hH.live q hq

theorem undisturbed_refCount {p : Nat} {k : Int → Prog sig α} (hp : p ∈ L)
    (hk : ∀ n u, Hand E t O h I maps L X u → Undisturbed E O h O' h' (k n) u) :
    ∀ u, Hand E t O h I maps L X u → Undisturbed E O h O' h' (.act (.refCount p) k) u := by
  apply undisturbed_act
  intro u hH
  obtain ⟨pg, m, hpg, -, -⟩ := (hH.live p hp).2.page
  refine ⟨by simp only [safe, hpg, Option.isSome_some], .refl u, ?_⟩
  exact hk _ u hH

theorem undisturbed_decRefCount {p : Nat} {k : Unit → Prog sig α} (hp : p ∈ L)
    (hk : ∀ u, Hand E t O h I maps L X u → Undisturbed E O h O' h' (k ()) u) :
    ∀ u, Hand E t O h I maps L X u → Undisturbed E O h O' h' (.act (.decRefCount p) k) u := by
  apply undisturbed_act
  intro u hH
  obtain ⟨pg, m, hpg, -, -⟩ := (hH.live p hp).2.page
  refine ⟨by simp only [safe, hpg, Option.isSome_some], keeps_decRefCount p, ?_⟩
  exact hk _ (hH.keeps (keeps_decRefCount p))

variable (hdisj : ∀ p, O p → ¬ O' p)
include hdisj

theorem undisturbed_unprotect {p : Nat} {e : α} (hp : p ∈ L)
    (hk : ∀ u, Hand E t O h I maps L (p :: X) u → Undisturbed E O h O' h' k u) :
    ∀ u, Hand E t O h I maps L X u →
      Undisturbed E O h O' h' (tryMprotect p .readWrite e k) u := by
  apply undisturbed_act
  intro u hH
  obtain ⟨hO, hl⟩ := hH.live p hp
  obtain ⟨pg, m, hpg, haddr, hm⟩ := hl.page
  have hperform : perform E (.mprotect p .readWrite) u =
      ((0 : Int), putMapping u pg.address ⟨.readWrite, m.bytes⟩) := perform_mprotect (E := E) hpg hm _
  rw [hperform, haddr]
  refine ⟨by simp only [safe, hpg, Option.isSome_some], keeps_putMapping (hdisj p hO) _, ?_⟩
  apply hk
  apply hH.putMapping
  intro q hq
  rcases List.mem_cons.mp hq with rfl | hq
  · exact Or.inl ⟨rfl, hO, hl.1, rfl⟩
  · by_cases hqp : q = p
    · exact Or.inl ⟨hqp, hO, hl.1, rfl⟩
    · exact Or.inr ⟨hqp, hq⟩

theorem undisturbed_protect {p : Nat} {e : α} (X' : List Nat) (hp : p ∈ L)
    (hX : ∀ q ∈ X', q ≠ p ∧ q ∈ X)
    (hk : ∀ u, Hand E t O h I maps L X' u → Undisturbed E O h O' h' k u) :
    ∀ u, Hand E t O h I maps L X u → Undisturbed E O h O' h' (tryMprotect p .none e k) u := by
  apply undisturbed_act
  intro u hH
  obtain ⟨hO, hl⟩ := hH.live p hp
  obtain ⟨pg, m, hpg, haddr, hm⟩ := hl.page
  have hperform : perform E (.mprotect p .none) u =
      ((0 : Int), putMapping u pg.address ⟨.none, m.bytes⟩) := perform_mprotect (E := E) hpg hm _
  rw [hperform, haddr]
  refine ⟨by simp only [safe, hpg, Option.isSome_some], keeps_putMapping (hdisj p hO) _, ?_⟩
  apply hk
  apply hH.putMapping
  intro q hq
  exact Or.inr (hX q hq)

theorem undisturbed_copyIn {p off len : Nat} {src : Nat → UInt8} {k : Unit → Prog sig α}
    (hp : p ∈ X) (hlen : off + len ≤ E.getpagesize)
    (hk : ∀ u, Hand E t O h I maps L X u → Undisturbed E O h O' h' (k ()) u) :
    ∀ u, Hand E t O h I maps L X u →
      Undisturbed E O h O' h' (.act (.copyIn p off len src) k) u := by
  apply undisturbed_act
  intro u hH
  obtain ⟨hO, ho⟩ := hH.opened p hp
  obtain ⟨ha, b, hb⟩ := ho
  obtain ⟨pg, hpg, haddr⟩ := Option.map_eq_some_iff.mp ha
  refine ⟨?_, ?_⟩
  · simp only [safe, (hH.opened p hp).2.accessible, hlen, decide_true, Bool.and_self, Bool.or_true]
  · simp only [perform, modifyMapping_eq hpg (by rw [haddr, hb] : u.mem pg.address = _), haddr]
    refine ⟨keeps_putMapping (hdisj p hO) _, hk _ (hH.putMapping ?_)⟩
    intro q hq
    by_cases hqp : q = p
    · exact Or.inl ⟨hqp, hO, ha, rfl⟩
    · exact Or.inr ⟨hqp, hq⟩

theorem undisturbed_copyPage {p q : Nat} {k : Unit → Prog sig α} (hp : p ∈ X) (hq : q ∈ X)
    (hk : ∀ u, Hand E t O h I maps L X u → Undisturbed E O h O' h' (k ()) u) :
    ∀ u, Hand E t O h I maps L X u → Undisturbed E O h O' h' (.act (.copyPage q p) k) u := by
  apply undisturbed_act
  intro u hH
  obtain ⟨hO, ha, b, hb⟩ := hH.opened q hq
  obtain ⟨pg, hpg, haddr⟩ := Option.map_eq_some_iff.mp ha
  refine ⟨?_, ?_⟩
  · simp only [safe, (hH.opened p hp).2.accessible, (hH.opened q hq).2.accessible, Bool.and_self]
  · simp only [perform, modifyMapping_eq hpg (by rw [haddr, hb] : u.mem pg.address = _), haddr]
    refine ⟨keeps_putMapping (hdisj q hO) _, hk _ (hH.putMapping ?_)⟩
    intro r hr
    by_cases hrq : r = q
    · exact Or.inl ⟨hrq, hO, ha, rfl⟩
    · exact Or.inr ⟨hrq, hr⟩

theorem undisturbed_mapPage {k : Nat → Prog sig α} (hmaps : maps)
    (hk : ∀ q u, Hand E t O h I maps (q :: L) [] u → Undisturbed E O h O' h' (k q) u) :
    ∀ u, Hand E t O h I maps L [] u → Undisturbed E O h O' h' (.act .mapPage k) u := by
  apply undisturbed_act
  intro u hH
  have hO := hH.fresh hmaps u.nextPage (le_refl _)
  have hlive : ∀ r, Live E u r ∨ r = u.nextPage → Live E (mapPage E u) r := by
    intro r hr
    by_cases hrn : r = u.nextPage
    · subst hrn
      simp only [Live, mapPage, Function.update_self, Option.map_some]
      exact ⟨trivial, _, rfl⟩
    · have hne : E.mmap r ≠ E.mmap u.nextPage := fun hc => hrn (E.mmap_inj _ _ hc)
      simp only [Live, mapPage, Function.update_of_ne hrn, Function.update_of_ne hne]
      rcases hr with hr | hr
      · exact hr
      · exact absurd hr hrn
  refine ⟨rfl, keeps_mapPage (hdisj _ hO), hk _ _ ?_⟩
  refine ⟨hH.get, hH.pageSize, ?_, ?_, ?_, fun p hp => by cases hp⟩
  · intro i hi
    obtain ⟨p, hp, hOp, hl⟩ := hH.slots i hi
    exact ⟨p, hp, hOp, hlive p (Or.inl hl)⟩
  · intro hm p hp
    exact hH.fresh hm p (le_trans (Nat.le_succ _) hp)
  · intro p hp
    rcases List.mem_cons.mp hp with rfl | hp
    · exact ⟨hO, hlive _ (Or.inr rfl)⟩
    · exact ⟨(hH.live p hp).1, hlive p (Or.inl (hH.live p hp).2)⟩

omit hdisj in
theorem undisturbed_copyOut {p off len : Nat} {k : List UInt8 → Prog sig α}
    (hp : p ∈ X) (hlen : off + len ≤ E.getpagesize)
    (hk : ∀ bytes u, Hand E t O h I maps L X u → Undisturbed E O h O' h' (k bytes) u) :
    ∀ u, Hand E t O h I maps L X u → Undisturbed E O h O' h' (.act (.copyOut p off len) k) u := by
  apply undisturbed_act
  intro u hH
  refine ⟨?_, .refl u, hk _ u hH⟩
  simp only [safe, (hH.opened p hp).2.accessible, hlen, decide_true, Bool.and_self, Bool.or_true]

omit hdisj in
theorem undisturbed_storeSlot {i q : Nat} {k : Unit → Prog sig α} (hne : h ≠ h') (hi : I i)
    (hq : q ∈ L) (hk : ∀ u, Hand E t O h I maps L X u → Undisturbed E O h O' h' (k ()) u) :
    ∀ u, Hand E t O h I maps L X u →
      Undisturbed E O h O' h' (.act (.storeSlot h i q) k) u := by
  apply undisturbed_act
  intro u hH
  obtain ⟨p, hp, -, -⟩ := hH.slots i hi
  refine ⟨by simp only [safe, hp, Option.isSome_some], keeps_storeSlot hne i q, hk _ ?_⟩
  refine ⟨?_, hH.pageSize, ?_, hH.fresh, hH.live, hH.opened⟩
  · have hget : getTls (storeSlot u h i q) t = getTls u t := by
      apply getTls_congr
      · rfl
      · exact key_storeSlot i q
    exact hget.trans hH.get
  · intro j hj
    have hslot : slot (storeSlot u h i q) h j = ((pagesOf u h).set i q)[j]? := by
      rw [slot_eq, pagesOf_storeSlot, if_pos rfl]
    obtain ⟨p', hp', hO, hl⟩ := hH.slots j hj
    by_cases hij : i = j
    · subst hij
      rw [slot_eq] at hp
      obtain ⟨hlt, -⟩ := List.getElem?_eq_some_iff.mp hp
      refine ⟨q, ?_, (hH.live q hq).1, (hH.live q hq).2⟩
      show slot (storeSlot u h i q) h i = some q
      rw [hslot, List.getElem?_set_self hlt]
    · refine ⟨p', ?_, hO, hl⟩
      show slot (storeSlot u h i q) h j = some p'
      rw [hslot, List.getElem?_set_ne hij, ← slot_eq, hp']

/-! ### Reading -/

theorem undisturbed_readSegment {p off len : Nat} {buffer : List UInt8}
    {k : List UInt8 → Prog sig (Int × List UInt8)} (hp : p ∈ L) (hlen : off + len ≤ E.getpagesize)
    (hk : ∀ bytes u, Hand E t O h I maps L [] u → Undisturbed E O h O' h' (k bytes) u) :
    ∀ u, Hand E t O h I maps L [] u →
      Undisturbed E O h O' h' (readSegment p off len buffer k) u := by
  apply undisturbed_unprotect hdisj hp
  apply undisturbed_copyOut (List.mem_cons_self ..) hlen
  intro bytes
  apply undisturbed_protect hdisj [] hp
  · intro q hq
    cases hq
  · exact hk _

omit hdisj in
theorem undisturbed_readDone (buffer : List UInt8) :
    ∀ u, Hand E t O h I maps L X u → Undisturbed E O h O' h' (readDone buffer) u := by
  apply undisturbed_tryUnlock
  intro u _
  trivial

theorem undisturbed_readLoop (startPage offset length : Nat)
    (hI : ∀ i, startPage ≤ i → i * E.getpagesize < offset + length → I i) :
    ∀ (fuel read pageIndex : Nat) (buffer : List UInt8) (L : List Nat),
      (startPage + pageIndex) * E.getpagesize = offset + read → ∀ u, Hand E t O h I maps L [] u →
      Undisturbed E O h O' h'
        (readLoop E.getpagesize h startPage length fuel read pageIndex buffer) u := by
  intro fuel
  induction fuel with
  | zero =>
    intro read pageIndex buffer L _
    exact undisturbed_readDone buffer
  | succ fuel ih =>
    intro read pageIndex buffer L hpos
    have hps := E.pos
    rw [readLoop]
    by_cases hread : read < length
    · rw [if_pos hread]
      apply undisturbed_loadSlot (hI _ (by omega) (by omega))
      intro p
      by_cases hmore : length - read > E.getpagesize
      · rw [if_pos hmore]
        apply undisturbed_readSegment hdisj (List.mem_cons_self ..) (by omega)
        intro bytes
        apply ih
        rw [← Nat.add_assoc, Nat.succ_mul]
        omega
      · rw [if_neg hmore]
        apply undisturbed_readSegment hdisj (List.mem_cons_self ..) (by omega)
        exact undisturbed_readDone
    · rw [if_neg hread]
      exact undisturbed_readDone buffer

omit hdisj in
/-- The start of both programs. -/
theorem undisturbed_access {offset length : UInt32} {e : Prog sig α} {k : Nat → Nat → Prog sig α}
    (he : ∀ u, Undisturbed E O h O' h' e u)
    (hk : ∀ u, Hand E t O h I maps L X u → Undisturbed E O h O' h' (k h E.getpagesize) u) :
    ∀ u, Hand E t O h I maps L X u → Undisturbed E O h O' h'
      (.act (.getTls t) fun (tls : Option Nat) =>
        match tls with
        | none => e
        | some h => .act (.tlsSize h) fun (size : UInt32) =>
          if offset + length > size then e
          else .act .pageSize fun (pageSize : Nat) => k h pageSize) u := by
  apply undisturbed_act
  intro u hH
  refine ⟨by simp only [safe, hH.get, Option.isSome_some], .refl u, ?_⟩
  simp only [perform, hH.get, Option.getD_some]
  refine undisturbed_act ?_ u hH
  intro v hV
  obtain ⟨tt, ht⟩ := scan_pair hV.get
  refine ⟨by simp only [safe, ht, Option.isSome_some], .refl v, ?_⟩
  simp only [perform, ht]
  split
  · exact he v
  · refine undisturbed_act ?_ v hV
    intro w hW
    refine ⟨rfl, .refl w, ?_⟩
    simp only [perform, hW.pageSize]
    exact hk w hW

/-- **A read among the steps of a program that keeps off its pages.** -/
theorem undisturbed_tlsRead {offset length : UInt32}
    (hI : ∀ i, offset.toNat / E.getpagesize ≤ i → (i = offset.toNat / E.getpagesize ∨
      i * E.getpagesize < offset.toNat + length.toNat) → I i) :
    ∀ u, Hand E t O h I maps [] [] u →
      Undisturbed E O h O' h' (tlsRead t offset length) u := by
  have hdm := Nat.div_add_mod offset.toNat E.getpagesize
  have hmod := Nat.mod_lt offset.toNat E.pos
  rw [Nat.mul_comm] at hdm
  apply undisturbed_act
  intro u hH
  have hsame : { u with pageSize := E.getpagesize } = u := by
    rw [← hH.pageSize]
  simp only [perform, hsame]
  refine ⟨rfl, .refl u, ?_⟩
  refine undisturbed_access (undisturbed_ret _) ?_ u hH
  apply undisturbed_loadSlot (hI _ (le_refl _) (Or.inl rfl))
  intro p
  apply undisturbed_tryLock
  by_cases hmore : length.toNat > E.getpagesize - offset.toNat % E.getpagesize
  · rw [if_pos hmore]
    apply undisturbed_readSegment hdisj (List.mem_cons_self ..) (by omega)
    intro bytes
    apply undisturbed_readLoop hdisj _ offset.toNat
    · intro i hi hlt
      exact hI i hi (Or.inr hlt)
    · rw [Nat.succ_mul]
      omega
  · rw [if_neg hmore]
    apply undisturbed_readSegment hdisj (List.mem_cons_self ..) (by omega)
    exact undisturbed_readDone

/-! ### Writing -/

theorem undisturbed_copyPage_call {p i : Nat} {k : Prog sig Int} (hne : h ≠ h') (hmaps : maps)
    (hi : I i) (hp : p ∈ L)
    (hk : ∀ L' u, Hand E t O h I maps L' [] u → Undisturbed E O h O' h' k u) :
    ∀ u, Hand E t O h I maps L [] u → Undisturbed E O h O' h' (copyPage h p i k) u := by
  apply undisturbed_tryLock
  apply undisturbed_mapPage hdisj hmaps
  intro copy
  have hcopy : copy ∈ copy :: L := List.mem_cons_self ..
  have hp' : p ∈ copy :: L := List.mem_cons_of_mem _ hp
  apply undisturbed_unprotect hdisj hp'
  apply undisturbed_unprotect hdisj hcopy
  apply undisturbed_copyPage hdisj (List.mem_cons_of_mem _ (List.mem_cons_self ..))
    (List.mem_cons_self ..)
  apply undisturbed_protect hdisj [] hp' (fun q hq => by cases hq)
  apply undisturbed_protect hdisj [] hcopy (fun q hq => by cases hq)
  apply undisturbed_decRefCount hp'
  apply undisturbed_storeSlot hne hi hcopy
  apply undisturbed_tryUnlock
  exact hk _

theorem undisturbed_unshare {p i : Nat} {k : Nat → Prog sig Int} (hne : h ≠ h') (hmaps : maps)
    (hi : I i) (hp : p ∈ L)
    (hk : ∀ q L', q ∈ L' → ∀ u, Hand E t O h I maps L' [] u → Undisturbed E O h O' h' (k q) u) :
    ∀ u, Hand E t O h I maps L [] u → Undisturbed E O h O' h' (unshare h i p k) u := by
  apply undisturbed_refCount hp
  intro n
  by_cases hn : n > 1
  · rw [if_pos hn]
    apply undisturbed_copyPage_call hdisj hne hmaps hi hp
    intro L'
    apply undisturbed_loadSlot hi
    intro q
    exact hk q _ (List.mem_cons_self ..)
  · rw [if_neg hn]
    exact hk p L hp

theorem undisturbed_writeSegment {p off len : Nat} {src : Nat → UInt8} {k : Prog sig Int}
    (hp : p ∈ L) (hlen : off + len ≤ E.getpagesize)
    (hk : ∀ u, Hand E t O h I maps L [] u → Undisturbed E O h O' h' k u) :
    ∀ u, Hand E t O h I maps L [] u →
      Undisturbed E O h O' h' (writeSegment p off len src k) u := by
  apply undisturbed_unprotect hdisj hp
  apply undisturbed_copyIn hdisj (List.mem_cons_self ..) hlen
  exact undisturbed_protect hdisj [] hp (fun q hq => by cases hq) hk

omit hdisj in
theorem undisturbed_writeDone :
    ∀ u, Hand E t O h I maps L X u → Undisturbed E O h O' h' writeDone u := by
  apply undisturbed_tryUnlock
  intro u _
  trivial

theorem undisturbed_writeLoop (startPage offset length : Nat) {buffer : Nat → UInt8}
    (hne : h ≠ h') (hmaps : maps) (hI : ∀ i, startPage ≤ i → i * E.getpagesize < offset + length → I i) :
    ∀ (fuel written pageIndex : Nat) (L : List Nat),
      (startPage + pageIndex) * E.getpagesize = offset + written →
      ∀ u, Hand E t O h I maps L [] u → Undisturbed E O h O' h'
        (writeLoop E.getpagesize h startPage length buffer fuel written pageIndex) u := by
  intro fuel
  induction fuel with
  | zero =>
    intro written pageIndex L _
    exact undisturbed_writeDone
  | succ fuel ih =>
    intro written pageIndex L hpos
    have hps := E.pos
    rw [writeLoop]
    by_cases hwritten : written < length
    · rw [if_pos hwritten]
      have hi := hI (startPage + pageIndex) (by omega) (by omega)
      apply undisturbed_loadSlot hi
      intro p
      apply undisturbed_unshare hdisj hne hmaps hi (List.mem_cons_self ..)
      intro q L' hq
      by_cases hmore : length - written > E.getpagesize
      · rw [if_pos hmore]
        apply undisturbed_writeSegment hdisj hq (by omega)
        apply ih
        rw [← Nat.add_assoc, Nat.succ_mul]
        omega
      · rw [if_neg hmore]
        apply undisturbed_writeSegment hdisj hq (by omega)
        exact undisturbed_writeDone
    · rw [if_neg hwritten]
      exact undisturbed_writeDone

/-- **A write among the steps of a program that keeps off its pages.** -/
theorem undisturbed_tlsWrite {offset length : UInt32} {buffer : Nat → UInt8} (hne : h ≠ h')
    (hmaps : maps)
    (hI : ∀ i, offset.toNat / E.getpagesize ≤ i → (i = offset.toNat / E.getpagesize ∨
      i * E.getpagesize < offset.toNat + length.toNat) → I i) :
    ∀ u, Hand E t O h I maps [] [] u →
      Undisturbed E O h O' h' (tlsWrite t offset length buffer) u := by
  have hdm := Nat.div_add_mod offset.toNat E.getpagesize
  have hmod := Nat.mod_lt offset.toNat E.pos
  rw [Nat.mul_comm] at hdm
  apply undisturbed_access (undisturbed_ret _)
  have hi := hI _ (le_refl _) (Or.inl rfl)
  apply undisturbed_loadSlot hi
  intro p
  apply undisturbed_tryLock
  apply undisturbed_unshare hdisj hne hmaps hi (List.mem_cons_self ..)
  intro q L' hq
  by_cases hmore : length.toNat > E.getpagesize - offset.toNat % E.getpagesize
  · rw [if_pos hmore]
    apply undisturbed_writeSegment hdisj hq (by omega)
    apply undisturbed_writeLoop hdisj _ offset.toNat _ hne hmaps
    · intro i hi' hlt
      exact hI i hi' (Or.inr hlt)
    · rw [Nat.succ_mul]
      omega
  · rw [if_neg hmore]
    apply undisturbed_writeSegment hdisj hq (by omega)
    exact undisturbed_writeDone

end

end EC440.Tls
