import EC440.Tls.Private

/-!
# `tls_destroy`

The search of `tls_destroy` does not stop at the pair it finds, so that its index is
`MAX_THREAD_COUNT` when the slot is cleared: the store falls behind the array, and the slot
goes on pointing to the freed pair.
-/

namespace EC440.Tls

open EC440.Lib

variable {E : Platform} {s s' : State}

/-- What unregistering thread `t` means: only slots of the array are touched, no slot refers to the
freed area of `t`, and every other slot is as it was. -/
structure Unregistered (s : State) (t : Nat) (d : Destroyed) : Prop where
  in_bounds : ∀ i ∈ d.touched, i < maxThreadCount
  cleared : ∀ i h tt, s.tidTlsArr.get i = some h → s.pairs h = some tt → tt.tid = t →
    d.state.tidTlsArr.get i = none
  others : ∀ i, (∀ h tt, s.tidTlsArr.get i = some h → s.pairs h = some tt → tt.tid ≠ t) →
    d.state.tidTlsArr.get i = s.tidTlsArr.get i

theorem lastPair_spec (s : State) (t h : Nat) : ∀ (is : List Nat) (acc : Option Nat),
    lastPair s t is acc = some (some h) → acc = some h ∨
      ∃ i tt, s.tidTlsArr.get i = some h ∧ s.pairs h = some tt ∧ tt.tid = t := by
  intro is
  induction is with
  | nil =>
    intro acc hl
    rw [lastPair] at hl
    exact Or.inl (Option.some.inj hl)
  | cons i is ih =>
    intro acc hl
    rw [lastPair] at hl
    cases hi : s.tidTlsArr.get i with
    | none =>
      simp only [hi] at hl
      exact ih acc hl
    | some x =>
      simp only [hi] at hl
      cases hx : s.pairs x with
      | none =>
        simp only [hx] at hl
        cases hl
      | some tt =>
        simp only [hx] at hl
        rcases ih _ hl with hacc | hfound
        · by_cases htid : tt.tid = t
          · rw [if_pos htid] at hacc
            cases hacc
            exact Or.inr ⟨i, tt, hi, hx, htid⟩
          · rw [if_neg htid] at hacc
            exact Or.inl hacc
        · exact Or.inr hfound

theorem releasePages_registry : ∀ (l : List Nat) (s s' : State), releasePages l s = some s' →
    s'.tidTlsArr = s.tidTlsArr ∧ s'.pairs = s.pairs := by
  intro l
  induction l with
  | nil =>
    intro s s' h
    rw [releasePages] at h
    cases h
    exact ⟨rfl, rfl⟩
  | cons p l ih =>
    intro s s' h
    rw [releasePages] at h
    cases hp : s.pages p with
    | none =>
      simp only [hp] at h
      cases h
    | some pg =>
      simp only [hp] at h
      split at h
      · have hrest := ih _ _ h
        exact hrest
      · have hrest := ih _ _ h
        exact hrest

/-- What a `tls_destroy` that returns `0` does to the array. -/
theorem tlsDestroy_spec {t : Nat} {d : Destroyed} (hd : tlsDestroy s t = some d)
    (hr : d.result = 0) : ∃ i h tt, s.tidTlsArr.get i = some h ∧ s.pairs h = some tt ∧ tt.tid = t ∧
      d.touched = List.range maxThreadCount ++ [maxThreadCount] ∧
      d.state.tidTlsArr = s.tidTlsArr ∧ d.state.pairs h = none := by
  rw [tlsDestroy] at hd
  cases hl : lastPair s t (List.range maxThreadCount) none with
  | none =>
    simp only [hl] at hd
    cases hd
  | some found =>
    cases found with
    | none =>
      simp only [hl] at hd
      cases hd
      cases hr
    | some h =>
      rcases lastPair_spec s t h _ _ hl with hnone | ⟨i, tt, hi, ht, htid⟩
      · cases hnone
      · simp only [hl, ht, Option.map_eq_some_iff] at hd
        obtain ⟨s', hs', rfl⟩ := hd
        obtain ⟨harr, -⟩ := releasePages_registry _ _ _ hs'
        refine ⟨i, h, tt, hi, ht, htid, rfl, ?_, Function.update_self ..⟩
        -- the store at `MAX_THREAD_COUNT` changes no slot
        apply Arr.ext_get
        intro j hj
        rw [Arr.get_set_ne _ (by omega), harr]

/-- **`tls_destroy` never unregisters its caller**: it stores behind the array, and a slot keeps
pointing to the freed pair. -/
theorem tlsDestroy_never_unregisters {t : Nat} {d : Destroyed} (hd : tlsDestroy s t = some d)
    (hr : d.result = 0) :
    ¬ Unregistered s t d ∧ maxThreadCount ∈ d.touched ∧
      ∃ i h, d.state.tidTlsArr.get i = some h ∧ d.state.pairs h = none := by
  obtain ⟨i, h, tt, hi, ht, htid, htouched, harr, hfreed⟩ := tlsDestroy_spec hd hr
  have hmem : maxThreadCount ∈ d.touched := by
    rw [htouched]
    exact List.mem_append_right _ (List.mem_singleton.mpr rfl)
  refine ⟨?_, hmem, i, h, by rw [harr, hi], hfreed⟩
  intro hu
  exact absurd (hu.in_bounds _ hmem) (lt_irrefl _)

/-- A thread makes an area and destroys it. -/
theorem tlsDestroy_after_create : ∃ d,
    tlsDestroy (run (call fourK) init [⟨1, .create 100⟩]) 1 = some d ∧ d.result = 0 := by
  have h : (tlsDestroy (run (call fourK) init [⟨1, .create 100⟩]) 1).map Destroyed.result =
      some 0 := by decide +kernel
  obtain ⟨d, hd, hr⟩ := Option.map_eq_some_iff.mp h
  exact ⟨d, hd, hr⟩

theorem tlsDestroy_never_unregisters_after_create : ∃ d,
    tlsDestroy (run (call fourK) init [⟨1, .create 100⟩]) 1 = some d ∧ d.result = 0 ∧
      ¬ Unregistered (run (call fourK) init [⟨1, .create 100⟩]) 1 d := by
  obtain ⟨d, hd, hr⟩ := tlsDestroy_after_create
  exact ⟨d, hd, hr, (tlsDestroy_never_unregisters hd hr).1⟩

/-- Not every `tls_destroy` that returns `0` unregisters its caller. -/
theorem tlsDestroy_stores_behind_array :
    ¬ ∀ (E : Platform) (rs : List Request) (t : Nat) (d : Destroyed),
      tlsDestroy (run (call E) init rs) t = some d → d.result = 0 →
        Unregistered (run (call E) init rs) t d := by
  intro h
  obtain ⟨d, hd, hr⟩ := tlsDestroy_after_create
  obtain ⟨-, -, -, -, -, -, htouched, -, -⟩ := tlsDestroy_spec hd hr
  have hlt := (h fourK _ 1 d hd hr).in_bounds maxThreadCount
    (by rw [htouched]; exact List.mem_append_right _ (List.mem_singleton.mpr rfl))
  exact absurd hlt (lt_irrefl _)

end EC440.Tls
