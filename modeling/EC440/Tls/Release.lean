import EC440.Tls.Destroy

/-!
# The pages that `tls_destroy` releases

The loop of `tls_destroy` unmaps a page with one reference and takes one reference away from any other
(`releasePages_spec`).  When the reference counts are right, these are the pages no other area holds and the
pages that some other area holds (`destroy_releases_unshared`).
-/

namespace EC440.Tls

open EC440.Lib

variable {E : Platform} {s s' : State} {h p : Nat}

/-- The counts of a state are right: each page of an area in `tid_tls_arr` is mapped, at an address of its own,
and has as many references as there are slots of such areas that hold it.  An area holds a page once. -/
structure Counted (s : State) : Prop where
  live : ∀ i h, s.tidTlsArr.get i = some h → ∃ tt, s.pairs h = some tt
  once : ∀ i j h, s.tidTlsArr.get i = some h → s.tidTlsArr.get j = some h → i = j
  distinct : ∀ i h, s.tidTlsArr.get i = some h → (pagesOf s h).Nodup
  counted : ∀ i h p, s.tidTlsArr.get i = some h → p ∈ pagesOf s h →
    ∃ pg m, s.pages p = some pg ∧ pg.refCount = refs (own s) p ∧ s.mem pg.address = some m
  addresses : ∀ p q pg qg, s.pages p = some pg → s.pages q = some qg → pg.address = qg.address → p = q

/-- Another area than that of `h` holds the page `p`. -/
def HeldElsewhere (s : State) (h p : Nat) : Prop :=
  ∃ i h', s.tidTlsArr.get i = some h' ∧ h' ≠ h ∧ p ∈ pagesOf s h'

/-- The references to `p` from the other areas. -/
def remaining (s : State) (h p : Nat) : Nat :=
  refs (fun i : Fin maxThreadCount => if s.tidTlsArr.get i = some h then [] else own s i) p

/-- The area of `h` is released: its pages are unmapped where no other area holds them, the others of its pages
are counted as before without it, and all other areas keep their pages and the contents of these. -/
structure Released (s s' : State) (h : Nat) : Prop where
  unmapped : ∀ p ∈ pagesOf s h, ∀ pg, s.pages p = some pg →
    (s'.mem pg.address = none ↔ ¬ HeldElsewhere s h p)
  counted : ∀ p ∈ pagesOf s h, HeldElsewhere s h p →
    ∃ pg, s'.pages p = some pg ∧ pg.refCount = remaining s h p
  others : ∀ i h', s.tidTlsArr.get i = some h' → h' ≠ h → ∀ p ∈ pagesOf s h', ∃ pg pg' m,
    s.pages p = some pg ∧ s'.pages p = some pg' ∧ pg'.address = pg.address ∧
      s.mem pg.address = some m ∧ s'.mem pg'.address = some m

/-! ### The loop -/

/-- A page after the loop has come to it. -/
def Page.released (pg : Page) : Option Page :=
  if pg.refCount < 2 then none else some { pg with refCount := pg.refCount - 1 }

/-- The loop unmaps the address `a`. -/
def Unmaps (l : List Nat) (s : State) (a : Nat) : Prop :=
  ∃ p ∈ l, ∃ pg, s.pages p = some pg ∧ pg.refCount < 2 ∧ pg.address = a

theorem releasePages_spec : ∀ (l : List Nat) (s : State), l.Nodup →
    (∀ p ∈ l, ∃ pg, s.pages p = some pg) →
    ∃ s', releasePages l s = some s' ∧
      (∀ p, p ∉ l → s'.pages p = s.pages p) ∧
      (∀ p ∈ l, s'.pages p = (s.pages p).bind Page.released) ∧
      ∀ a, (Unmaps l s a → s'.mem a = none) ∧ (¬ Unmaps l s a → s'.mem a = s.mem a) := by
  intro l
  induction l with
  | nil =>
    intro s _ _
    refine ⟨s, rfl, fun _ _ => rfl, fun p hp => absurd hp List.not_mem_nil, fun a => ⟨?_, fun _ => rfl⟩⟩
    rintro ⟨p, hp, -⟩
    exact absurd hp List.not_mem_nil
  | cons q l ih =>
    intro s hnodup hheld
    obtain ⟨hq, hnodup⟩ := List.nodup_cons.mp hnodup
    obtain ⟨qg, hqg⟩ := hheld q List.mem_cons_self
    have hne : ∀ p ∈ l, p ≠ q := by
      rintro p hp rfl
      exact hq hp
    -- the state after the first round: the page `q` is released, and unmapped if it was the last reference
    let s₁ : State := if qg.refCount < 2 then
        { s with mem := Function.update s.mem qg.address none, pages := Function.update s.pages q none }
      else { s with pages := Function.update s.pages q (some { qg with refCount := qg.refCount - 1 }) }
    have hround : releasePages (q :: l) s = releasePages l s₁ := by
      rw [releasePages, hqg]
      simp only [s₁]
      split <;> rfl
    have hpages : s₁.pages = Function.update s.pages q qg.released := by
      simp only [s₁, Page.released]
      split <;> rfl
    have hmem : ∀ a, s₁.mem a = if qg.refCount < 2 ∧ qg.address = a then none else s.mem a := by
      intro a
      simp only [s₁]
      split
      · next hlast =>
        simp only [Function.update_apply, hlast, true_and, eq_comm]
      · next hlast => simp only [hlast, false_and, if_false]
    have hother : ∀ p, p ≠ q → s₁.pages p = s.pages p := fun p hp => by
      rw [hpages, Function.update_of_ne hp]
    have hself : s₁.pages q = qg.released := by rw [hpages, Function.update_self]
    obtain ⟨s', hs', hkept, hreleased, hunmapped⟩ := ih s₁ hnodup fun p hp => by
      rw [hother p (hne p hp)]
      exact hheld p (List.mem_cons_of_mem q hp)
    have hunmaps : ∀ a, Unmaps (q :: l) s a ↔ (qg.refCount < 2 ∧ qg.address = a) ∨ Unmaps l s₁ a := by
      intro a
      constructor
      · rintro ⟨p, hp, pg, hpg, hlast, ha⟩
        rcases List.mem_cons.mp hp with rfl | hp
        · obtain rfl := Option.some.inj (hqg.symm.trans hpg)
          exact .inl ⟨hlast, ha⟩
        · exact .inr ⟨p, hp, pg, by rw [hother p (hne p hp), hpg], hlast, ha⟩
      · rintro (⟨hlast, ha⟩ | ⟨p, hp, pg, hpg, hlast, ha⟩)
        · exact ⟨q, List.mem_cons_self, qg, hqg, hlast, ha⟩
        · rw [hother p (hne p hp)] at hpg
          exact ⟨p, List.mem_cons_of_mem q hp, pg, hpg, hlast, ha⟩
    refine ⟨s', hround.trans hs', ?_, ?_, ?_⟩
    · intro p hp
      obtain ⟨hpq, hpl⟩ := not_or.mp (mt List.mem_cons.mpr hp)
      rw [hkept p hpl, hother p hpq]
    · intro p hp
      rcases List.mem_cons.mp hp with rfl | hp
      · rw [hkept p hq, hself, hqg, Option.bind_some]
      · rw [hreleased p hp, hother p (hne p hp)]
    · intro a
      rw [hunmaps a]
      constructor
      · rintro (hlast | hrest)
        · by_cases hrest : Unmaps l s₁ a
          · exact (hunmapped a).1 hrest
          · rw [(hunmapped a).2 hrest, hmem, if_pos hlast]
        · exact (hunmapped a).1 hrest
      · intro hnot
        obtain ⟨hlast, hrest⟩ := not_or.mp hnot
        rw [(hunmapped a).2 hrest, hmem, if_neg hlast]

/-! ### Counts -/

theorem mem_own {i : Nat} (hi : s.tidTlsArr.get i = some h) (hp : p ∈ pagesOf s h) :
    p ∈ own s ⟨i, index_lt hi⟩ := by
  rw [own_eq hi]
  exact hp

/-- The references to a page of the area of `h`: one from there, and the remaining ones. -/
theorem Counted.refs_eq (hc : Counted s) {i : Nat} (hi : s.tidTlsArr.get i = some h)
    (hp : p ∈ pagesOf s h) : refs (own s) p = remaining s h p + 1 := by
  have hupdate : (fun j : Fin maxThreadCount => if s.tidTlsArr.get j = some h then [] else own s j) =
      Function.update (own s) ⟨i, index_lt hi⟩ [] := by
    funext j
    by_cases hj : j = ⟨i, index_lt hi⟩
    · subst hj
      rw [if_pos hi, Function.update_self]
    · rw [Function.update_of_ne hj, if_neg]
      intro hj'
      exact hj (Fin.ext (hc.once j i h hj' hi))
  have hcount := refs_update (own s) ⟨i, index_lt hi⟩ [] p
  rw [own_eq hi, List.count_eq_one_of_mem (hc.distinct i h hi) hp, List.count_nil, ← hupdate] at hcount
  rw [remaining]
  omega

/-- No references remain just when no other area holds the page. -/
theorem remaining_pos_iff (s : State) (h p : Nat) : 0 < remaining s h p ↔ HeldElsewhere s h p := by
  constructor
  · intro hpos
    by_contra hnone
    have hzero : remaining s h p = 0 := by
      apply refs_eq_zero
      intro i hmem
      by_cases hi : s.tidTlsArr.get i = some h
      · rw [if_pos hi] at hmem
        cases hmem
      · rw [if_neg hi, own] at hmem
        cases hx : s.tidTlsArr.get i with
        | none =>
          simp only [hx] at hmem
          cases hmem
        | some h' =>
          simp only [hx] at hmem
          exact hnone ⟨i, h', hx, fun heq => hi (by rw [hx, heq]), hmem⟩
    omega
  · rintro ⟨i, h', hi, hne, hp⟩
    refine one_le_refs (i := ⟨i, index_lt hi⟩) ?_
    rw [if_neg (by rw [hi]; simpa using hne)]
    exact mem_own hi hp

/-! ### Releasing an area -/

/-- **Exactly the unshared pages are released**: whenever the counts are right, `tls_destroy` by a thread with
an area goes through its loop, and releases the pages of the area that no other area holds. -/
theorem destroy_releases_unshared (s : State) (hc : Counted s) (t h : Nat) (tt : TidTls)
    (hfind : lastPair s t (List.range maxThreadCount) none = some (some h)) (ht : s.pairs h = some tt) :
    ∃ s' d, releasePages tt.tls.pages s = some s' ∧ tlsDestroy s t = some d ∧ d.result = 0 ∧
      d.state.pages = s'.pages ∧ d.state.mem = s'.mem ∧ Released s s' h := by
  obtain ⟨i, hi⟩ : ∃ i, s.tidTlsArr.get i = some h := by
    rcases lastPair_spec s t h _ _ hfind with hnone | ⟨i, -, hi, -, -⟩
    · cases hnone
    · exact ⟨i, hi⟩
  have hl := pagesOf_eq ht
  obtain ⟨s', hs', hkept, hreleased, hunmapped⟩ := releasePages_spec tt.tls.pages s
    (hl ▸ hc.distinct i h hi) fun p hp => by
      obtain ⟨pg, -, hpg, -⟩ := hc.counted i h p hi (hl ▸ hp)
      exact ⟨pg, hpg⟩
  rw [← hl] at hkept hreleased hunmapped
  -- a page of the area is released for good when no other area holds it
  have hlast : ∀ p ∈ pagesOf s h, ∀ pg, s.pages p = some pg → (pg.refCount < 2 ↔ ¬ HeldElsewhere s h p) := by
    intro p hp pg hpg
    obtain ⟨pg', -, hpg', hcount, -⟩ := hc.counted i h p hi hp
    obtain rfl := Option.some.inj (hpg.symm.trans hpg')
    have hrefs := hc.refs_eq hi hp
    rw [← remaining_pos_iff, hcount]
    omega
  refine ⟨s', ⟨0, List.range maxThreadCount ++ [maxThreadCount],
    { s' with
      pairs := Function.update s'.pairs h none
      tidTlsArr := s'.tidTlsArr.set maxThreadCount none }⟩, hs', ?_, rfl, rfl, rfl, ?_, ?_, ?_⟩
  · simp only [tlsDestroy, hfind, ht, hs', Option.map_some]
  · intro p hp pg hpg
    obtain ⟨pg', m, hpg', -, hm⟩ := hc.counted i h p hi hp
    obtain rfl := Option.some.inj (hpg.symm.trans hpg')
    rw [← hlast p hp pg hpg]
    constructor
    · intro hnone
      by_contra hmore
      rw [(hunmapped pg.address).2, hm] at hnone
      · cases hnone
      · rintro ⟨q, hq, qg, hqg, hfew, ha⟩
        obtain rfl := hc.addresses q p qg pg hqg hpg ha
        obtain rfl := Option.some.inj (hpg.symm.trans hqg)
        exact hmore hfew
    · intro hfew
      exact (hunmapped pg.address).1 ⟨p, hp, pg, hpg, hfew, rfl⟩
  · intro p hp helse
    obtain ⟨pg, -, hpg, hcount, -⟩ := hc.counted i h p hi hp
    have hmore : ¬ pg.refCount < 2 := fun hfew => (hlast p hp pg hpg).mp hfew helse
    have hrefs := hc.refs_eq hi hp
    refine ⟨{ pg with refCount := pg.refCount - 1 }, ?_, ?_⟩
    · rw [hreleased p hp, hpg, Option.bind_some, Page.released, if_neg hmore]
    · show pg.refCount - 1 = _
      omega
  · intro j h' hj hne p hp
    obtain ⟨pg, m, hpg, hcount, hm⟩ := hc.counted j h' p hj hp
    have hmem : s'.mem pg.address = some m := by
      rw [(hunmapped pg.address).2, hm]
      rintro ⟨q, hq, qg, hqg, hfew, ha⟩
      obtain rfl := hc.addresses q p qg pg hqg hpg ha
      exact (hlast q hq qg hqg).mp hfew ⟨j, h', hj, hne, hp⟩
    by_cases hown : p ∈ pagesOf s h
    · have hmore : ¬ pg.refCount < 2 := fun hfew => (hlast p hown pg hpg).mp hfew ⟨j, h', hj, hne, hp⟩
      refine ⟨pg, { pg with refCount := pg.refCount - 1 }, m, hpg, ?_, rfl, hm, hmem⟩
      rw [hreleased p hown, hpg, Option.bind_some, Page.released, if_neg hmore]
    · exact ⟨pg, pg, m, hpg, by rw [hkept p hown, hpg], rfl, hm, hmem⟩

/-- The counts are right between calls. -/
theorem RegistryInv.countedPages (hI : RegistryInv E s) : Counted s := by
  refine ⟨hI.live, fun i j h hi hj => hI.slot_inj hi hj, fun i h _ => hI.nodup h, ?_, ?_⟩
  · intro i h p hi hp
    obtain ⟨pg, hpg⟩ := hI.held h p hp
    have hpg' := hI.counted p pg hpg
    obtain ⟨b, hb⟩ := hI.mapped p pg hpg
    exact ⟨pg, ⟨.none, b⟩, hpg, by rw [hpg'], by rw [hpg', hb]⟩
  · intro p q pg qg hp hq ha
    rw [hI.counted p pg hp, hI.counted q qg hq] at ha
    exact E.mmap_inj p q ha

/-- One of two threads that share a page destroys its area. -/
theorem destroy_releases_unshared_clone : ∃ s' d,
    tlsDestroy (run (call fourK) init createAndClone) 1 = some d ∧ d.result = 0 ∧
      d.state.mem = s'.mem ∧ Released (run (call fourK) init createAndClone) s' 0 := by
  have hfind : lastPair (run (call fourK) init createAndClone) 1 (List.range maxThreadCount) none =
      some (some 0) := by decide +kernel
  obtain ⟨-, -, -, -, hsize, -⟩ := createAndClone_lookups
  obtain ⟨tt, ht, -⟩ := Option.map_eq_some_iff.mp hsize
  obtain ⟨-, hstands⟩ := run_simulates fourK createAndClone createAndClone_fits
  obtain ⟨s', d, -, hd, hret, -, hmem, hreleased⟩ :=
    destroy_releases_unshared _ hstands.inv.countedPages 1 0 tt hfind ht
  exact ⟨s', d, hd, hret, hmem, hreleased⟩

end EC440.Tls
