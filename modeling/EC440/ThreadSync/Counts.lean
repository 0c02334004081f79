import EC440.ThreadSync.Invariant

/-!
# Counting acquisitions and arrivals

A mutex is locked exactly when it has been acquired once more than released
(`MutexCounts`).  At a barrier for `n` threads, the number of threads that have entered is the
length of its queue, and is the number of arrivals modulo `n` (`BarrierCounts`).

Objects are told apart by their `mutex_info` and `barrier_info`: nothing has happened yet at one
that is not allocated.
-/

namespace EC440.ThreadSync

open EC440.Lib

variable {s s' : State} {l L ws : List Nat} {c x i j n : Nat} {cl : Call} {es tr : List Event}

def Event.isAcquisition (i : Nat) : Event → Bool
  | .acquired _ j => j == i
  | .handed _ j => j == i
  | _ => false

def Event.isRelease (i : Nat) : Event → Bool
  | .unlocked _ j => j == i
  | _ => false

def Event.isArrival (i : Nat) : Event → Bool
  | .arrived _ j => j == i
  | _ => false

/-- How often the mutex `i` was acquired, at once or by hand-off. -/
def acquisitions (i : Nat) (tr : List Event) : Nat := tr.countP (Event.isAcquisition i)

/-- How often the mutex `i` was unlocked with success. -/
def releases (i : Nat) (tr : List Event) : Nat := tr.countP (Event.isRelease i)

/-- How many calls have arrived at the barrier `i`. -/
def arrivals (i : Nat) (tr : List Event) : Nat := tr.countP (Event.isArrival i)

@[simp] theorem acquisitions_append (i : Nat) (tr es : List Event) :
    acquisitions i (tr ++ es) = acquisitions i tr + acquisitions i es := List.countP_append

@[simp] theorem releases_append (i : Nat) (tr es : List Event) :
    releases i (tr ++ es) = releases i tr + releases i es := List.countP_append

@[simp] theorem arrivals_append (i : Nat) (tr es : List Event) :
    arrivals i (tr ++ es) = arrivals i tr + arrivals i es := List.countP_append

theorem not_mem_of_arrivals_eq_zero {t i : Nat} {es : List Event} (h : arrivals i es = 0) : .arrived t i ∉ es := by
  intro hmem
  have hnone := List.countP_eq_zero.mp h _ hmem
  simp [Event.isArrival] at hnone

/-- What a dispatch adds to the trace. -/
def wakeEvents (s : State) (x : Nat) : List Event := .dispatched x :: returns x (s.env x).point

theorem Switch.exists_resume (h : Switch s L s') :
    ∃ x, s' = s.resume x ∧ s'.trace = s.trace ++ wakeEvents s x ∧ s.live x = true ∧
      s.status x = .ready ∧ Resting s x := by
  obtain ⟨hL, hp, hx⟩ := h
  rename_i l c x A B
  have hmem : x ∈ l ++ [c] := by
    rw [← hL, hx.split]
    simp
  exact ⟨x, rfl, rfl, (hp.live x).mpr hmem, hx.ready, hp.rest x hmem⟩

theorem counts_wakeEvents (s : State) (x i : Nat) :
    acquisitions i (wakeEvents s x) = 0 ∧ releases i (wakeEvents s x) = 0 ∧
      arrivals i (wakeEvents s x) = 0 := by
  rw [wakeEvents]
  cases (s.env x).point <;> simp [returns, acquisitions, releases, arrivals, Event.isAcquisition,
    Event.isRelease, Event.isArrival]

/-! ### Mutexes -/

structure MutexCounts (s : State) : Prop where
  bound : ∀ i m, s.mutexInfos i = some m → i < s.nextMutex
  fresh : ∀ i, s.nextMutex ≤ i → acquisitions i s.trace = 0 ∧ releases i s.trace = 0
  count : ∀ i m, s.mutexInfos i = some m →
    acquisitions i s.trace = releases i s.trace + if m.locked then 1 else 0

namespace MutexCounts

/-- Events that are about no mutex. -/
theorem append (h : MutexCounts s) (hes : ∀ i, acquisitions i es = 0 ∧ releases i es = 0)
    (hinfos : s'.mutexInfos = s.mutexInfos) (hnext : s'.nextMutex = s.nextMutex)
    (htrace : s'.trace = s.trace ++ es) : MutexCounts s' := by
  refine ⟨?_, ?_, ?_⟩
  · rw [hinfos, hnext]
    exact h.bound
  · intro i hi
    rw [hnext] at hi
    have hf := h.fresh i hi
    have he := hes i
    rw [htrace, acquisitions_append, releases_append]
    omega
  · intro i m hm
    rw [hinfos] at hm
    have hc := h.count i m hm
    have he := hes i
    rw [htrace, acquisitions_append, releases_append]
    omega

/-- A step of the mutex `i`. -/
theorem set (h : MutexCounts s) {m m' : MutexInfo} (hm : s.mutexInfos i = some m)
    (hother : ∀ j, j ≠ i → acquisitions j es = 0 ∧ releases j es = 0)
    (hcount : (acquisitions i es + if m.locked then 1 else 0) =
      releases i es + if m'.locked then 1 else 0)
    (hinfos : s'.mutexInfos = Function.update s.mutexInfos i (some m'))
    (hnext : s'.nextMutex = s.nextMutex) (htrace : s'.trace = s.trace ++ es) : MutexCounts s' := by
  have hi := h.bound i m hm
  refine ⟨?_, ?_, ?_⟩
  · intro j m₁ hj
    rw [hinfos, Function.update_apply] at hj
    rw [hnext]
    split at hj
    · next hji => exact hji ▸ hi
    · exact h.bound j m₁ hj
  · intro j hj
    rw [hnext] at hj
    have hf := h.fresh j hj
    have he := hother j (by omega)
    rw [htrace, acquisitions_append, releases_append]
    omega
  · intro j m₁ hj
    rw [hinfos, Function.update_apply] at hj
    rw [htrace, acquisitions_append, releases_append]
    split at hj
    · next hji =>
      subst hji
      cases hj
      have hc := h.count j m hm
      omega
    · next hji =>
      have hc := h.count j m₁ hj
      have he := hother j hji
      omega

theorem newMutex (h : MutexCounts s) (o : Nat) : MutexCounts (s.newMutex o) := by
  refine ⟨?_, ?_, ?_⟩
  · intro j m hj
    simp only [State.newMutex, State.setMutex, Function.update_apply] at hj ⊢
    split at hj
    · omega
    · exact Nat.lt_succ_of_lt (h.bound j m hj)
  · intro j hj
    exact h.fresh j (Nat.le_of_succ_le hj)
  · intro j m hj
    simp only [State.newMutex, State.setMutex, Function.update_apply] at hj ⊢
    split at hj
    · next hji =>
      cases hj
      have hf := h.fresh j (by omega)
      simp [hf.1, hf.2]
    · exact h.count j m hj

theorem freeMutex (h : MutexCounts s) (i : Nat) : MutexCounts (s.setMutex i none) := by
  refine ⟨?_, h.fresh, ?_⟩
  · intro j m hj
    simp only [State.setMutex, Function.update_apply] at hj ⊢
    split at hj
    · cases hj
    · exact h.bound j m hj
  · intro j m hj
    simp only [State.setMutex, Function.update_apply] at hj ⊢
    split at hj
    · cases hj
    · exact h.count j m hj

end MutexCounts

theorem Switch.mutexCounts (hs : Switch s L s') (h : MutexCounts s) : MutexCounts s' := by
  obtain ⟨x, rfl, htrace, -⟩ := hs.exists_resume
  refine h.append ?_ rfl rfl htrace
  intro i
  exact ⟨(counts_wakeEvents s x i).1, (counts_wakeEvents s x i).2.1⟩

theorem Effect.mutexCounts (h : Effect s l c cl s') (hc : MutexCounts s) : MutexCounts s' := by
  have hnil : ∀ i, acquisitions i [] = 0 ∧ releases i [] = 0 := fun i => ⟨rfl, rfl⟩
  have hsame : ∀ {s' : State}, s'.mutexInfos = s.mutexInfos → s'.nextMutex = s.nextMutex →
      s'.trace = s.trace → MutexCounts s' := fun hinfos hnext htrace =>
    hc.append hnil hinfos hnext (by rw [htrace, List.append_nil])
  cases h with
  | same => exact hc
  | undefined => exact hsame rfl rfl rfl
  | createFirst => exact hsame rfl rfl rfl
  | create => exact hsame rfl rfl rfl
  | exit _ h => exact h.mutexCounts (hsame rfl rfl rfl)
  | ended _ htrace hmutex => exact hsame hmutex.1 hmutex.2 htrace
  | alarm h => exact h.mutexCounts (hsame rfl rfl rfl)
  | mutexInit o => exact hc.newMutex o
  | mutexDestroy o i => exact hc.freeMutex i
  | lockFree _ hm hfree =>
    refine hc.set hm ?_ ?_ rfl rfl rfl
    · intro j hj
      simp [acquisitions, releases, Event.isAcquisition, Event.isRelease, hj.symm]
    · simp [acquisitions, releases, Event.isAcquisition, Event.isRelease, hfree]
  | lockBusy _ hm _ h =>
    refine h.mutexCounts (hc.set hm ?_ ?_ rfl rfl rfl)
    · intro j hj
      exact ⟨rfl, rfl⟩
    · rfl
  | unlockLast _ hm hlocked =>
    refine hc.set hm ?_ ?_ rfl rfl rfl
    · intro j hj
      simp [acquisitions, releases, Event.isAcquisition, Event.isRelease, hj.symm]
    · simp [acquisitions, releases, Event.isAcquisition, Event.isRelease, hlocked]
  | unlockNext _ hm hlocked =>
    refine hc.set hm ?_ ?_ rfl rfl rfl
    · intro j hj
      simp [acquisitions, releases, Event.isAcquisition, Event.isRelease, hj.symm]
    · simp [acquisitions, releases, Event.isAcquisition, Event.isRelease]
  | barrierInit => exact hc.append (fun _ => ⟨rfl, rfl⟩) rfl rfl rfl
  | barrierDestroy => exact hsame rfl rfl rfl
  | waitBlocks _ _ _ h =>
    exact h.mutexCounts (hc.append (fun _ => ⟨rfl, rfl⟩) rfl rfl rfl)
  | waitLast => exact hc.append (fun _ => ⟨rfl, rfl⟩) rfl rfl rfl
  | waitOver => exact hc.append (fun _ => ⟨rfl, rfl⟩) rfl rfl rfl

/-! ### Barriers -/

/-- The barrier `i` was made for `n` threads, and `n` fits the `int` it is kept in. -/
def Made (i n : Nat) (tr : List Event) : Prop := .barrierMade i n ∈ tr ∧ 1 ≤ n ∧ n < 2 ^ 31

structure BarrierCounts (s : State) : Prop where
  bound : ∀ i b, s.barrierInfos i = some b → i < s.nextBarrier
  fresh : ∀ i, s.nextBarrier ≤ i → arrivals i s.trace = 0 ∧ ∀ n, .barrierMade i n ∉ s.trace
  made : ∀ i b, s.barrierInfos i = some b → ∃ n, .barrierMade i n ∈ s.trace
  unique : ∀ i n n', .barrierMade i n ∈ s.trace → .barrierMade i n' ∈ s.trace → n = n'
  range : ∀ i b (n : Nat), s.barrierInfos i = some b → .barrierMade i n ∈ s.trace →
    1 ≤ n ∧ n < 2 ^ 32 ∧ b.count = Int.bmod n (2 ^ 32)
  entered : ∀ i b n, s.barrierInfos i = some b → Made i n s.trace →
    b.count = n ∧ b.numThreadsEntered = b.waiters.length ∧ b.waiters.length = arrivals i s.trace % n

/-- No barrier is made. -/
def NoneMade (es : List Event) : Prop := ∀ i n, .barrierMade i n ∉ es

theorem made_append (hes : NoneMade es) : Made i n (tr ++ es) ↔ Made i n tr := by
  simp only [Made, List.mem_append, hes i n, or_false]

theorem noneMade_wakeEvents (s : State) (x : Nat) : NoneMade (wakeEvents s x) := by
  intro i n
  rw [wakeEvents]
  cases (s.env x).point <;> simp [returns]

namespace BarrierCounts

/-- Events that are about no barrier. -/
theorem append (h : BarrierCounts s) (hmade : NoneMade es) (hes : ∀ i, arrivals i es = 0)
    (hinfos : s'.barrierInfos = s.barrierInfos) (hnext : s'.nextBarrier = s.nextBarrier)
    (htrace : s'.trace = s.trace ++ es) : BarrierCounts s' := by
  have hmem : ∀ i n, .barrierMade i n ∈ s'.trace ↔ .barrierMade i n ∈ s.trace := by
    intro i n
    rw [htrace, List.mem_append, or_iff_left (hmade i n)]
  refine ⟨?_, ?_, ?_, ?_, ?_, ?_⟩
  · rw [hinfos, hnext]
    exact h.bound
  · intro i hi
    rw [hnext] at hi
    obtain ⟨harr, hnone⟩ := h.fresh i hi
    refine ⟨by rw [htrace, arrivals_append, harr, hes i], ?_⟩
    intro n hn
    exact hnone n ((hmem i n).mp hn)
  · intro i b hb
    rw [hinfos] at hb
    obtain ⟨n, hn⟩ := h.made i b hb
    exact ⟨n, (hmem i n).mpr hn⟩
  · intro i n n' hn hn'
    exact h.unique i n n' ((hmem i n).mp hn) ((hmem i n').mp hn')
  · intro i b n hb hn
    rw [hinfos] at hb
    exact h.range i b n hb ((hmem i n).mp hn)
  · intro i b n hb hn
    rw [hinfos] at hb
    rw [htrace, made_append hmade] at hn
    rw [htrace, arrivals_append, hes i, Nat.add_zero]
    exact h.entered i b n hb hn

/-- An arrival at the barrier `i`. -/
theorem arrive (h : BarrierCounts s) {b b' : BarrierInfo} (hb : s.barrierInfos i = some b)
    (hmade : NoneMade es) (hes : ∀ j, arrivals j es = if j = i then 1 else 0)
    (hb' : ∀ n, Made i n s.trace → b.count = n ∧ b.numThreadsEntered = b.waiters.length ∧
      b.waiters.length = arrivals i s.trace % n → b'.count = n ∧
        b'.numThreadsEntered = b'.waiters.length ∧ b'.waiters.length = (arrivals i s.trace + 1) % n)
    (hinfos : s'.barrierInfos = Function.update s.barrierInfos i (some b'))
    (hnext : s'.nextBarrier = s.nextBarrier) (htrace : s'.trace = s.trace ++ es)
    (hcount : b'.count = b.count) : BarrierCounts s' := by
  have hi := h.bound i b hb
  have hmem : ∀ i n, .barrierMade i n ∈ s'.trace ↔ .barrierMade i n ∈ s.trace := by
    intro i n
    rw [htrace, List.mem_append, or_iff_left (hmade i n)]
  refine ⟨?_, ?_, ?_, ?_, ?_, ?_⟩
  · intro j b₁ hj
    rw [hinfos, Function.update_apply] at hj
    rw [hnext]
    split at hj
    · next hji => exact hji ▸ hi
    · exact h.bound j b₁ hj
  · intro j hj
    rw [hnext] at hj
    obtain ⟨harr, hnone⟩ := h.fresh j hj
    refine ⟨?_, ?_⟩
    · rw [htrace, arrivals_append, harr, hes j, if_neg (by omega)]
    · intro n hn
      exact hnone n ((hmem j n).mp hn)
  · intro j b₁ hj
    rw [hinfos, Function.update_apply] at hj
    have hmade' : ∃ n, .barrierMade j n ∈ s.trace := by
      split at hj
      · next hji => exact hji ▸ h.made i b hb
      · exact h.made j b₁ hj
    obtain ⟨n, hn⟩ := hmade'
    exact ⟨n, (hmem j n).mpr hn⟩
  · intro j n n' hn hn'
    exact h.unique j n n' ((hmem j n).mp hn) ((hmem j n').mp hn')
  · intro j b₁ n hj hn
    rw [hinfos, Function.update_apply] at hj
    split at hj
    · next hji =>
      subst hji
      cases hj
      rw [hcount]
      exact h.range j b n hb ((hmem j n).mp hn)
    · exact h.range j b₁ n hj ((hmem j n).mp hn)
  · intro j b₁ n hj hn
    rw [hinfos, Function.update_apply] at hj
    rw [htrace, made_append hmade] at hn
    rw [htrace, arrivals_append, hes j]
    split at hj
    · next hji =>
      subst hji
      cases hj
      rw [if_pos rfl]
      exact hb' n hn (h.entered j b n hb hn)
    · next hji =>
      rw [if_neg hji]
      exact h.entered j b₁ n hj hn

theorem newBarrier (h : BarrierCounts s) (o : Nat) {count : Nat} (hpos : 1 ≤ count)
    (hlt : count < 2 ^ 32) : BarrierCounts (s.newBarrier o count) := by
  have hmem : ∀ j n, .barrierMade j n ∈ (s.newBarrier o count).trace ↔
      .barrierMade j n ∈ s.trace ∨ j = s.nextBarrier ∧ n = count := by
    intro j n
    simp [State.newBarrier, State.log, State.setBarrier]
  have harr : ∀ j, arrivals j (s.newBarrier o count).trace = arrivals j s.trace := by
    intro j
    simp [State.newBarrier, State.log, State.setBarrier, arrivals, Event.isArrival]
  obtain ⟨hnone, hmade⟩ := h.fresh s.nextBarrier (Nat.le_refl _)
  refine ⟨?_, ?_, ?_, ?_, ?_, ?_⟩
  · intro j b hj
    simp only [State.newBarrier, State.log, State.setBarrier, Function.update_apply] at hj ⊢
    split at hj
    · omega
    · exact Nat.lt_succ_of_lt (h.bound j b hj)
  · intro j hj
    have hj' : s.nextBarrier < j := hj
    obtain ⟨hf, hm⟩ := h.fresh j (by omega)
    refine ⟨by rw [harr, hf], ?_⟩
    intro n hn
    rcases (hmem j n).mp hn with hn | ⟨rfl, -⟩
    · exact hm n hn
    · omega
  · intro j b hj
    simp only [State.newBarrier, State.log, State.setBarrier, Function.update_apply] at hj
    split at hj
    · next hji => exact ⟨count, (hmem j count).mpr (.inr ⟨hji, rfl⟩)⟩
    · obtain ⟨n, hn⟩ := h.made j b hj
      exact ⟨n, (hmem j n).mpr (.inl hn)⟩
  · intro j n n' hn hn'
    rcases (hmem j n).mp hn with hn | ⟨rfl, rfl⟩
    · rcases (hmem j n').mp hn' with hn' | ⟨rfl, -⟩
      · exact h.unique j n n' hn hn'
      · exact absurd hn (hmade n)
    · rcases (hmem _ n').mp hn' with hn' | ⟨-, rfl⟩
      · exact absurd hn' (hmade n')
      · rfl
  · intro j b n hj hn
    simp only [State.newBarrier, State.log, State.setBarrier, Function.update_apply] at hj
    split at hj
    · next hji =>
      subst hji
      cases hj
      rcases (hmem _ n).mp hn with hn | ⟨-, rfl⟩
      · exact absurd hn (hmade n)
      · exact ⟨hpos, hlt, by simp only⟩
    · next hji =>
      refine h.range j b n hj ?_
      rcases (hmem j n).mp hn with hn | ⟨rfl, -⟩
      · exact hn
      · exact absurd rfl hji
  · intro j b n hj hn
    simp only [State.newBarrier, State.log, State.setBarrier, Function.update_apply] at hj
    split at hj
    · next hji =>
      subst hji
      cases hj
      obtain ⟨hn, hpos, hlt⟩ := hn
      have hcount : n = count := by
        rcases (hmem _ n).mp hn with hn | ⟨-, rfl⟩
        · exact absurd hn (hmade n)
        · rfl
      subst hcount
      refine ⟨?_, rfl, ?_⟩
      · simp only [Int.bmod]
        omega
      · rw [harr, hnone]
        simp
    · next hji =>
      rw [harr]
      refine h.entered j b n hj ⟨?_, hn.2⟩
      rcases (hmem j n).mp hn.1 with hn | ⟨rfl, -⟩
      · exact hn
      · exact absurd rfl hji

theorem freeBarrier (h : BarrierCounts s) (i : Nat) : BarrierCounts (s.setBarrier i none) := by
  refine ⟨?_, h.fresh, ?_, h.unique, ?_, ?_⟩
  · intro j b hj
    simp only [State.setBarrier, Function.update_apply] at hj ⊢
    split at hj
    · cases hj
    · exact h.bound j b hj
  · intro j b hj
    simp only [State.setBarrier, Function.update_apply] at hj
    split at hj
    · cases hj
    · exact h.made j b hj
  · intro j b n hj hn
    simp only [State.setBarrier, Function.update_apply] at hj
    split at hj
    · cases hj
    · exact h.range j b n hj hn
  · intro j b n hj hn
    simp only [State.setBarrier, Function.update_apply] at hj
    split at hj
    · cases hj
    · exact h.entered j b n hj hn

end BarrierCounts

theorem Switch.barrierCounts (hs : Switch s L s') (h : BarrierCounts s) : BarrierCounts s' := by
  obtain ⟨x, rfl, htrace, -⟩ := hs.exists_resume
  exact h.append (noneMade_wakeEvents s x) (fun i => (counts_wakeEvents s x i).2.2) rfl rfl htrace

theorem succ_mod_of_lt {a : Nat} (h : a % n + 1 < n) : (a + 1) % n = a % n + 1 := by
  rw [Nat.add_mod, Nat.mod_eq_of_lt (show 1 < n by omega), Nat.mod_eq_of_lt h]

theorem succ_eq_mul {a : Nat} (h : a % n + 1 = n) : a + 1 = n * (a / n + 1) := by
  have hdiv := Nat.div_add_mod a n
  rw [Nat.mul_add, Nat.mul_one]
  omega

theorem arrivals_one (c i j : Nat) (es : List Event) (hes : arrivals j es = 0) :
    arrivals j (.arrived c i :: es) = if j = i then 1 else 0 := by
  rw [arrivals] at hes ⊢
  rw [List.countP_cons, hes]
  by_cases hji : j = i
  · simp [Event.isArrival, hji]
  · simp [Event.isArrival, hji, Ne.symm hji]

theorem Effect.barrierCounts (h : Effect s l c cl s') (hc : BarrierCounts s) : BarrierCounts s' := by
  have hnone : NoneMade [] := fun i n hmem => by cases hmem
  have hsame : ∀ {s' : State}, s'.barrierInfos = s.barrierInfos → s'.nextBarrier = s.nextBarrier →
      s'.trace = s.trace → BarrierCounts s' := fun hinfos hnext htrace =>
    hc.append hnone (fun _ => rfl) hinfos hnext (by rw [htrace, List.append_nil])
  cases h with
  | same => exact hc
  | undefined => exact hsame rfl rfl rfl
  | createFirst => exact hsame rfl rfl rfl
  | create => exact hsame rfl rfl rfl
  | exit _ h => exact h.barrierCounts (hsame rfl rfl rfl)
  | ended _ htrace _ hbarrier => exact hsame hbarrier.1 hbarrier.2 htrace
  | alarm h => exact h.barrierCounts (hsame rfl rfl rfl)
  | mutexInit o => exact hsame rfl rfl rfl
  | mutexDestroy o i => exact hsame rfl rfl rfl
  | lockFree => exact hc.append (by simp [NoneMade]) (fun _ => rfl) rfl rfl rfl
  | lockBusy _ _ _ h =>
    exact h.barrierCounts (hc.append (by simp [NoneMade]) (fun _ => rfl) rfl rfl rfl)
  | unlockLast => exact hc.append (by simp [NoneMade]) (fun _ => rfl) rfl rfl rfl
  | unlockNext => exact hc.append (by simp [NoneMade]) (fun _ => rfl) rfl rfl rfl
  | @barrierInit o count hcount =>
    refine hc.newBarrier o ?_ count.toNat_lt
    exact Nat.one_le_iff_ne_zero.mpr fun h0 => hcount (UInt32.toNat_inj.mp h0)
  | barrierDestroy o i => exact hc.freeBarrier i
  | @waitBlocks _ i _ _ _ hb hlt h =>
    refine h.barrierCounts (hc.arrive hb ?_ (fun j => arrivals_one c i j [] rfl) ?_ rfl rfl rfl rfl)
    · simp [NoneMade]
    · rintro n - ⟨hcount, hentered, hlen⟩
      refine ⟨hcount, ?_, ?_⟩
      · simp only [List.length_cons, hentered]
        omega
      · rw [List.length_cons, succ_mod_of_lt (by omega), hlen]
  | @waitLast _ i _ _ hb hlast =>
    refine hc.arrive hb ?_ (fun j => arrivals_one c i j [.waitReturned c i _] rfl) ?_ rfl rfl rfl rfl
    · simp [NoneMade]
    · rintro n - ⟨hcount, hentered, hlen⟩
      refine ⟨hcount, rfl, ?_⟩
      rw [succ_eq_mul (n := n) (by omega), Nat.mul_mod_right]
      rfl
  | @waitOver _ i _ _ hb hover =>
    refine hc.arrive hb ?_ (fun j => arrivals_one c i j [.waitReturned c i _] rfl) ?_ rfl rfl rfl rfl
    · simp [NoneMade]
    · rintro n hmade ⟨hcount, hentered, hlen⟩
      have hlt := Nat.mod_lt (arrivals i s.trace) (show 0 < n from hmade.2.1)
      omega

/-! ### Runs -/

structure Counted (s : State) : Prop where
  mutex : MutexCounts s
  barrier : BarrierCounts s

theorem counted_start : Counted State.start := by
  refine ⟨⟨?_, ?_, ?_⟩, ⟨?_, ?_, ?_, ?_, ?_, ?_⟩⟩
  · intro i m hm
    cases hm
  · intro i _
    exact ⟨rfl, rfl⟩
  · intro i m hm
    cases hm
  · intro i b hb
    cases hb
  · intro i _
    exact ⟨rfl, fun n hn => by cases hn⟩
  · intro i b hb
    cases hb
  · intro i n n' hn
    cases hn
  · intro i b n hb
    cases hb
  · intro i b n hb
    cases hb

theorem Effect.counted (h : Effect s l c cl s') (hc : Counted s) : Counted s' :=
  ⟨h.mutexCounts hc.mutex, h.barrierCounts hc.barrier⟩

end EC440.ThreadSync
