import EC440.ThreadSync.Invariant

/-!
# The waiters

A thread is `TS_BLOCKED` just when it is in the list of waiters of one object, once.  `Queued` says
that whoever is in a list is blocked, and where; `Waits` is the converse: whoever is blocked is in the
list of an object.  It is lost when an object is destroyed or initialised again while threads
wait for it (`Undisturbed` excludes this).
-/

namespace EC440.ThreadSync

open EC440.Lib

variable {s s' : State} {l L ws : List Nat} {c x y i o : Nat} {cl : Call}

/-- A `pthread_mutex_t` or a `pthread_barrier_t`. -/
inductive Obj
  | mutex (o : Nat)
  | barrier (o : Nat)
deriving DecidableEq, Repr

/-- The threads that wait for an object. -/
def State.waiters (s : State) : Obj → List Nat
  | .mutex o => ((s.mutexObj o).bind s.mutexInfos).elim [] MutexInfo.waiters
  | .barrier o => ((s.barrierObj o).bind s.barrierInfos).elim [] BarrierInfo.waiters

/-- No object is destroyed or initialised again while threads wait for it. -/
def Undisturbed (s : State) : Call → Prop
  | .mutexInit o => s.waiters (.mutex o) = []
  | .mutexDestroy o => s.waiters (.mutex o) = []
  | .barrierInit o _ => s.waiters (.barrier o) = []
  | .barrierDestroy o => s.waiters (.barrier o) = []
  | _ => True

instance (s : State) : (cl : Call) → Decidable (Undisturbed s cl)
  | .mutexInit _ => inferInstanceAs (Decidable (_ = _))
  | .mutexDestroy _ => inferInstanceAs (Decidable (_ = _))
  | .barrierInit _ _ => inferInstanceAs (Decidable (_ = _))
  | .barrierDestroy _ => inferInstanceAs (Decidable (_ = _))
  | .create => inferInstanceAs (Decidable True)
  | .exit => inferInstanceAs (Decidable True)
  | .alarm => inferInstanceAs (Decidable True)
  | .lock _ => inferInstanceAs (Decidable True)
  | .unlock _ => inferInstanceAs (Decidable True)
  | .wait _ => inferInstanceAs (Decidable True)

/-! ### The objects -/

/-- Every object has its own `mutex_info` or `barrier_info`. -/
structure OwnInfo (obj : Nat → Option Nat) (n : Nat) : Prop where
  lt : ∀ o i, obj o = some i → i < n
  inj : ∀ o o' i, obj o = some i → obj o' = some i → o = o'

theorem OwnInfo.update {obj : Nat → Option Nat} {n : Nat} (h : OwnInfo obj n) (o : Nat) :
    OwnInfo (Function.update obj o (some n)) (n + 1) := by
  refine ⟨?_, ?_⟩
  · intro o' i hi
    rw [Function.update_apply] at hi
    split at hi
    · cases hi
      exact Nat.lt_succ_self n
    · exact Nat.lt_succ_of_lt (h.lt o' i hi)
  · intro o₁ o₂ i h₁ h₂
    rw [Function.update_apply] at h₁ h₂
    split at h₁ <;> split at h₂
    · rename_i e₁ e₂
      rw [e₁, e₂]
    · cases h₁
      exact absurd (h.lt o₂ n h₂) (Nat.lt_irrefl n)
    · cases h₂
      exact absurd (h.lt o₁ n h₁) (Nat.lt_irrefl n)
    · exact h.inj o₁ o₂ i h₁ h₂

structure Waits (s : State) : Prop where
  mutex : OwnInfo s.mutexObj s.nextMutex
  barrier : OwnInfo s.barrierObj s.nextBarrier
  free : ∀ i m, s.mutexInfos i = some m → m.locked = false → m.waiters = []
  waits : ∀ x, s.live x = true → s.status x = .blocked → ∃ q, x ∈ s.waiters q

theorem waiters_setMutex (h : OwnInfo s.mutexObj s.nextMutex) (ho : s.mutexObj o = some i)
    (m : Option MutexInfo) (q : Obj) :
    (s.setMutex i m).waiters q = if q = .mutex o then m.elim [] MutexInfo.waiters else s.waiters q := by
  cases q with
  | barrier o' => rfl
  | mutex o' =>
    by_cases hoo : o' = o
    · subst hoo
      simp [State.waiters, State.setMutex, ho]
    · rw [if_neg (by simpa using hoo)]
      cases ho' : s.mutexObj o' with
      | none => simp [State.waiters, State.setMutex, ho']
      | some j =>
        have hji : j ≠ i := by
          rintro rfl
          exact hoo (h.inj o' o j ho' ho)
        simp [State.waiters, State.setMutex, ho', Function.update_of_ne hji]

theorem waiters_setBarrier (h : OwnInfo s.barrierObj s.nextBarrier) (ho : s.barrierObj o = some i)
    (b : Option BarrierInfo) (q : Obj) :
    (s.setBarrier i b).waiters q =
      if q = .barrier o then b.elim [] BarrierInfo.waiters else s.waiters q := by
  cases q with
  | mutex o' => rfl
  | barrier o' =>
    by_cases hoo : o' = o
    · subst hoo
      simp [State.waiters, State.setBarrier, ho]
    · rw [if_neg (by simpa using hoo)]
      cases ho' : s.barrierObj o' with
      | none => simp [State.waiters, State.setBarrier, ho']
      | some j =>
        have hji : j ≠ i := by
          rintro rfl
          exact hoo (h.inj o' o j ho' ho)
        simp [State.waiters, State.setBarrier, ho', Function.update_of_ne hji]

theorem waiters_of_mutex {m : MutexInfo} (ho : s.mutexObj o = some i) (hm : s.mutexInfos i = some m) :
    s.waiters (.mutex o) = m.waiters := by
  simp [State.waiters, ho, hm]

theorem waiters_of_barrier {b : BarrierInfo} (ho : s.barrierObj o = some i)
    (hb : s.barrierInfos i = some b) : s.waiters (.barrier o) = b.waiters := by
  simp [State.waiters, ho, hb]

namespace Waits

/-- Nobody else is blocked, and the objects are the same. -/
theorem frame (h : Waits s) (hmo : s'.mutexObj = s.mutexObj) (hmi : s'.mutexInfos = s.mutexInfos)
    (hmn : s'.nextMutex = s.nextMutex) (hbo : s'.barrierObj = s.barrierObj)
    (hbi : s'.barrierInfos = s.barrierInfos) (hbn : s'.nextBarrier = s.nextBarrier)
    (hx : ∀ x, s'.live x = true → s'.status x = .blocked → s.live x = true ∧ s.status x = .blocked) :
    Waits s' := by
  refine ⟨by rw [hmo, hmn]; exact h.mutex, by rw [hbo, hbn]; exact h.barrier,
    by rw [hmi]; exact h.free, ?_⟩
  intro x hlive hb
  obtain ⟨q, hq⟩ := h.waits x (hx x hlive hb).1 (hx x hlive hb).2
  refine ⟨q, ?_⟩
  cases q with
  | mutex o => simpa only [State.waiters, hmo, hmi] using hq
  | barrier o => simpa only [State.waiters, hbo, hbi] using hq

/-- The `mutex_info` of an object changes: who is still blocked is in a list. -/
theorem setMutex (h : Waits s) (ho : s.mutexObj o = some i) (m : Option MutexInfo)
    (hfree : ∀ m', m = some m' → m'.locked = false → m'.waiters = [])
    (hx : ∀ x, s.live x = true → s.status x = .blocked → x ∈ s.waiters (.mutex o) →
      x ∈ m.elim [] MutexInfo.waiters) : Waits (s.setMutex i m) := by
  refine ⟨h.mutex, h.barrier, ?_, ?_⟩
  · intro j m' hj
    simp only [State.setMutex, Function.update_apply] at hj
    split at hj
    · exact hfree m' hj
    · exact h.free j m' hj
  · intro x hlive hb
    obtain ⟨q, hq⟩ := h.waits x hlive hb
    refine ⟨q, ?_⟩
    rw [waiters_setMutex h.mutex ho]
    split
    · rename_i heq
      subst heq
      exact hx x hlive hb hq
    · exact hq

theorem setBarrier (h : Waits s) (ho : s.barrierObj o = some i) (b : Option BarrierInfo)
    (hx : ∀ x, s.live x = true → s.status x = .blocked → x ∈ s.waiters (.barrier o) →
      x ∈ b.elim [] BarrierInfo.waiters) : Waits (s.setBarrier i b) := by
  refine ⟨h.mutex, h.barrier, h.free, ?_⟩
  intro x hlive hb
  obtain ⟨q, hq⟩ := h.waits x hlive hb
  refine ⟨q, ?_⟩
  rw [waiters_setBarrier h.barrier ho]
  split
  · rename_i heq
    subst heq
    exact hx x hlive hb hq
  · exact hq

theorem log (h : Waits s) (es : List Event) : Waits (s.log es) :=
  h.frame rfl rfl rfl rfl rfl rfl fun _ hlive hb => ⟨hlive, hb⟩

theorem wake (h : Waits s) (ws : List Nat) : Waits (s.wake ws) := by
  refine h.frame rfl rfl rfl rfl rfl rfl fun x hlive hb => ⟨hlive, ?_⟩
  simp only [State.wake] at hb
  split at hb
  · cases hb
  · exact hb

theorem switch (h : Waits s) (hs : Switch s L s') : Waits s' := by
  obtain ⟨-, -, hx⟩ := hs
  refine h.frame rfl rfl rfl rfl rfl rfl fun y hlive hb => ⟨hlive, ?_⟩
  simp only [State.resume, State.setStatus, Function.update_apply] at hb
  split at hb
  · cases hb
  · exact hb

/-- The thread that is blocked is put in the list. -/
theorem waitLock (h : Waits s) {m : MutexInfo} (ho : s.mutexObj o = some i)
    (hm : s.mutexInfos i = some m) (hlocked : m.locked = true) : Waits (s.waitLock c i m) := by
  let m' : MutexInfo := { m with waiters := c :: m.waiters }
  have hq : ∀ q, (s.waitLock c i m).waiters q = if q = .mutex o then c :: m.waiters else s.waiters q :=
    waiters_setMutex (s := s.suspend c .blocked (.inLock i)) h.mutex ho (some m')
  refine ⟨h.mutex, h.barrier, ?_, ?_⟩
  · intro j m' hj hfree
    simp only [State.waitLock, State.log, State.setMutex, Function.update_apply] at hj
    split at hj
    · cases hj
      rw [hlocked] at hfree
      cases hfree
    · exact h.free j m' hj hfree
  · intro x hlive hb
    by_cases hxc : x = c
    · exact ⟨.mutex o, by rw [hq, if_pos rfl, hxc]; exact List.mem_cons_self⟩
    · have hb' : s.status x = .blocked := by
        simpa only [State.waitLock, State.log, State.setMutex, State.suspend, State.setStatus,
          State.setEnv, Function.update_of_ne hxc] using hb
      obtain ⟨q, hxq⟩ := h.waits x hlive hb'
      refine ⟨q, ?_⟩
      rw [hq]
      split
      · rename_i heq
        rw [heq, waiters_of_mutex ho hm] at hxq
        exact List.mem_cons_of_mem c hxq
      · exact hxq

theorem waitBarrier (h : Waits s) {b : BarrierInfo} (ho : s.barrierObj o = some i)
    (hb : s.barrierInfos i = some b) : Waits (s.waitBarrier c i b) := by
  let b' : BarrierInfo :=
    { b with numThreadsEntered := b.numThreadsEntered + 1, waiters := c :: b.waiters }
  have hq : ∀ q, (s.waitBarrier c i b).waiters q =
      if q = .barrier o then c :: b.waiters else s.waiters q :=
    waiters_setBarrier (s := s.suspend c .blocked (.inWait i)) h.barrier ho (some b')
  refine ⟨h.mutex, h.barrier, h.free, ?_⟩
  intro x hlive hblocked
  by_cases hxc : x = c
  · exact ⟨.barrier o, by rw [hq, if_pos rfl, hxc]; exact List.mem_cons_self⟩
  · have hblocked' : s.status x = .blocked := by
      simpa only [State.waitBarrier, State.log, State.setBarrier, State.suspend, State.setStatus,
        State.setEnv, Function.update_of_ne hxc] using hblocked
    obtain ⟨q, hxq⟩ := h.waits x hlive hblocked'
    refine ⟨q, ?_⟩
    rw [hq]
    split
    · rename_i heq
      rw [heq, waiters_of_barrier ho hb] at hxq
      exact List.mem_cons_of_mem c hxq
    · exact hxq

theorem newMutex (h : Waits s) (hnone : s.waiters (.mutex o) = []) : Waits (s.newMutex o) := by
  refine ⟨h.mutex.update o, h.barrier, ?_, ?_⟩
  · intro j m' hj hfree
    simp only [State.newMutex, State.setMutex, Function.update_apply] at hj
    split at hj
    · cases hj
      rfl
    · exact h.free j m' hj hfree
  · intro x hlive hb
    obtain ⟨q, hxq⟩ := h.waits x hlive hb
    refine ⟨q, ?_⟩
    cases q with
    | barrier o' => exact hxq
    | mutex o' =>
      have hoo : o' ≠ o := by
        rintro rfl
        rw [hnone] at hxq
        cases hxq
      cases ho' : s.mutexObj o' with
      | none => simp [State.waiters, ho'] at hxq
      | some j =>
        have hj : j ≠ s.nextMutex := Nat.ne_of_lt (h.mutex.lt o' j ho')
        simpa [State.waiters, State.newMutex, State.setMutex, Function.update_of_ne hoo, ho',
          Function.update_of_ne hj] using hxq

theorem newBarrier (h : Waits s) (hnone : s.waiters (.barrier o) = []) (count : Nat) :
    Waits (s.newBarrier o count) := by
  refine ⟨h.mutex, h.barrier.update o, h.free, ?_⟩
  intro x hlive hb
  obtain ⟨q, hxq⟩ := h.waits x hlive hb
  refine ⟨q, ?_⟩
  cases q with
  | mutex o' => exact hxq
  | barrier o' =>
    have hoo : o' ≠ o := by
      rintro rfl
      rw [hnone] at hxq
      cases hxq
    cases ho' : s.barrierObj o' with
    | none => simp [State.waiters, ho'] at hxq
    | some j =>
      have hj : j ≠ s.nextBarrier := Nat.ne_of_lt (h.barrier.lt o' j ho')
      simpa [State.waiters, State.newBarrier, State.log, State.setBarrier, Function.update_of_ne hoo,
        ho', Function.update_of_ne hj] using hxq

theorem spawned (h : Waits s) (next prev : Nat → Option Nat) (head : Option Nat) :
    Waits (s.spawned next prev head) := by
  refine h.frame rfl rfl rfl rfl rfl rfl fun x hlive hb => ?_
  simp only [State.spawned, State.setStatus, State.setEnv, Function.update_apply] at hlive hb
  by_cases hx : x = s.nextTcb
  · rw [if_pos hx] at hb
    cases hb
  · rw [if_neg hx] at hlive hb
    exact ⟨hlive, hb⟩

end Waits

/-! ### Calls -/

/-- Every call but `destroy` keeps the waiters. -/
theorem Effect.waits (h : Effect s l c cl s') (hw : Waits s) (hu : Undisturbed s cl)
    (hm : ∀ o, cl ≠ .mutexDestroy o) (hb : ∀ o, cl ≠ .barrierDestroy o)
    (hlife : s'.life = .active) : Waits s' := by
  have hsuspend : ∀ p, Waits (s.suspend c .ready p) := by
    refine fun p => hw.frame rfl rfl rfl rfl rfl rfl fun x hlive hblocked => ⟨hlive, ?_⟩
    simp only [State.suspend, State.setStatus, State.setEnv, Function.update_apply] at hblocked
    split at hblocked
    · cases hblocked
    · exact hblocked
  cases h with
  | same => exact hw
  | undefined => cases hlife
  | createFirst hfirst next prev head _ =>
    have hinit : Waits s.initialised := by
      refine hw.frame rfl rfl rfl rfl rfl rfl fun x hlive hblocked => ?_
      simp only [State.initialised, schedulerInit, State.setStatus, State.setPrev, State.setNext,
        State.setEnv, Function.update_apply] at hlive hblocked
      by_cases hx : x = s.nextTcb
      · rw [if_pos hx] at hblocked
        cases hblocked
      · rw [if_neg hx] at hlive hblocked
        exact ⟨hlive, hblocked⟩
    exact hinit.spawned next prev head
  | create next prev head _ => exact hw.spawned next prev head
  | @exit _ p n _ _ h =>
    refine Waits.switch (s := s.unlinked c p n) ?_ h
    refine hw.frame rfl rfl rfl rfl rfl rfl fun x hlive hblocked => ?_
    simp only [State.unlinked, State.setNext, State.setStatus, State.setEnv,
      Function.update_apply] at hlive hblocked
    by_cases hx : x = c
    · rw [if_pos hx] at hlive
      cases hlive
    · rw [if_neg hx] at hlive hblocked
      exact ⟨hlive, hblocked⟩
  | ended hover => rw [hover] at hlife; cases hlife
  | alarm h => exact (hsuspend _).switch h
  | mutexInit o => exact hw.newMutex hu
  | mutexDestroy o i => exact absurd rfl (hm o)
  | @lockFree o i m ho hmi hfree =>
    refine (hw.setMutex ho _ ?_ ?_).log _
    · rintro m' ⟨⟩ hfree'
      cases hfree'
    · intro x _ _ hx
      rwa [waiters_of_mutex ho hmi] at hx
  | lockBusy ho hmi hlocked h => exact (hw.waitLock ho hmi hlocked).switch h
  | @unlockLast o i m ho hmi hlocked hnone =>
    refine (hw.setMutex ho _ ?_ ?_).log _
    · rintro m' ⟨⟩ _
      exact hnone
    · intro x _ _ hx
      rwa [waiters_of_mutex ho hmi] at hx
  | @unlockNext o i x m ws ho hmi hlocked hnext =>
    refine (((hw.wake [x]).setMutex ho _ ?_ ?_)).log _
    · rintro m' ⟨⟩ hfree
      exact absurd (hlocked.symm.trans hfree) (by decide)
    · intro y _ hblocked hy
      have hyx : y ≠ x := by
        rintro rfl
        simp [State.wake] at hblocked
      have hmem : y ∈ m.waiters := (waiters_of_mutex ho hmi) ▸ hy
      rw [hnext] at hmem
      exact (List.mem_cons.mp hmem).resolve_left hyx
  | barrierInit o hcount => exact hw.newBarrier hu _
  | barrierDestroy o i => exact absurd rfl (hb o)
  | waitBlocks ho hbi hlt h => exact (hw.waitBarrier ho hbi).switch h
  | @waitLast o i b ho hbi hlast =>
    refine ((hw.wake b.waiters).setBarrier ho _ ?_).log _
    intro y _ hblocked hy
    have hmem : y ∈ b.waiters := (waiters_of_barrier ho hbi) ▸ hy
    simp [State.wake, hmem] at hblocked
  | @waitOver o i b ho hbi hover =>
    refine (hw.setBarrier ho _ ?_).log _
    intro x _ _ hx
    rwa [waiters_of_barrier ho hbi] at hx

theorem Waits.mutexDestroy {r : Option Int} (h : Waits s) (hu : Undisturbed s (.mutexDestroy o))
    (hd : pthreadMutexDestroy s o = some (r, s')) : Waits s' := by
  unfold pthreadMutexDestroy at hd
  cases ho : s.mutexObj o with
  | none =>
    simp only [ho, Option.some.injEq, Prod.mk.injEq] at hd
    rw [← hd.2]
    exact h
  | some i =>
    simp only [ho, Option.bind_eq_bind, Option.bind_eq_some_iff, Option.some.injEq, Prod.mk.injEq] at hd
    obtain ⟨m, hm, -, rfl⟩ := hd
    refine h.setMutex ho none (by rintro m' ⟨⟩) ?_
    intro x _ _ hx
    rw [hu] at hx
    cases hx

theorem Waits.barrierDestroy {r : Option Int} (h : Waits s) (hu : Undisturbed s (.barrierDestroy o))
    (hd : pthreadBarrierDestroy s o = some (r, s')) : Waits s' := by
  unfold pthreadBarrierDestroy at hd
  cases ho : s.barrierObj o with
  | none =>
    simp only [ho, Option.some.injEq, Prod.mk.injEq] at hd
    rw [← hd.2]
    exact h
  | some i =>
    simp only [ho, Option.bind_eq_bind, Option.bind_eq_some_iff, Option.some.injEq, Prod.mk.injEq] at hd
    obtain ⟨b, hb, -, rfl⟩ := hd
    refine h.setBarrier ho none ?_
    intro x _ _ hx
    rw [hu] at hx
    cases hx

theorem call_of_body (hlife : s.life = .active) (h : (call s cl).2.life = .active) :
    ∃ r, body s cl = some (r, (call s cl).2) := by
  unfold call at h ⊢
  rw [if_pos hlife] at h ⊢
  cases hbody : body s cl with
  | none => rw [hbody] at h; cases h
  | some r => exact ⟨r.1, rfl⟩

theorem Waits.call (h : Waits s) (hlife : s.life = .active) (hst : Stage s l c) (hq : Queued s)
    (hf : FindsReady s cl) (hu : Undisturbed s cl) (hlife' : (ThreadSync.call s cl).2.life = .active) :
    Waits (ThreadSync.call s cl).2 := by
  obtain ⟨r, hbody⟩ := call_of_body hlife hlife'
  by_cases hm : ∃ o, cl = .mutexDestroy o
  · obtain ⟨o, rfl⟩ := hm
    exact h.mutexDestroy hu hbody
  · by_cases hb : ∃ o, cl = .barrierDestroy o
    · obtain ⟨o, rfl⟩ := hb
      exact h.barrierDestroy hu hbody
    · exact (call_effect hst hq hf hlife).waits h hu (fun o ho => hm ⟨o, ho⟩)
        (fun o ho => hb ⟨o, ho⟩) hlife'

/-! ### Runs -/

/-- Nobody is lost and nobody is there twice. -/
structure WaitersOk (s : State) : Prop where
  blocked : ∀ x, s.live x = true → (s.status x = .blocked ↔
    ∃ q, (s.waiters q).count x = 1 ∧ ∀ q', x ∈ s.waiters q' → q' = q)
  live : ∀ q, ∀ x ∈ s.waiters q, s.live x = true
  free : ∀ o i m, s.mutexObj o = some i → s.mutexInfos i = some m → m.locked = false → m.waiters = []
  running : ∃ c, s.curr = some c ∧ ∀ x, s.live x = true ∧ s.status x = .running ↔ x = c

/-- At most `MAX_THREADS + 1` threads, a ready thread for every call that blocks, and no object
destroyed or initialised again under its waiters. -/
def Orderly (s : State) (cl : Call) : Prop := Ok s cl ∧ Undisturbed s cl

instance : Decidable (Orderly s cl) := inferInstanceAs (Decidable (_ ∧ _))

/-- A thread in a list is in a queue. -/
theorem exists_inQueue {q : Obj} (hx : x ∈ s.waiters q) :
    ∃ i, (∃ o, q = .mutex o ∧ s.mutexObj o = some i ∧ InQueue s x (.inLock i)) ∨
      ∃ o, q = .barrier o ∧ s.barrierObj o = some i ∧ InQueue s x (.inWait i) := by
  cases q with
  | mutex o =>
    cases ho : s.mutexObj o with
    | none => simp [State.waiters, ho] at hx
    | some i =>
      cases hm : s.mutexInfos i with
      | none => simp [State.waiters, ho, hm] at hx
      | some m =>
        rw [waiters_of_mutex ho hm] at hx
        exact ⟨i, .inl ⟨o, rfl, ho, .mutex hm hx⟩⟩
  | barrier o =>
    cases ho : s.barrierObj o with
    | none => simp [State.waiters, ho] at hx
    | some i =>
      cases hb : s.barrierInfos i with
      | none => simp [State.waiters, ho, hb] at hx
      | some b =>
        rw [waiters_of_barrier ho hb] at hx
        exact ⟨i, .inr ⟨o, rfl, ho, .barrier hb hx⟩⟩

/-- A thread is in one list only. -/
theorem Waits.unique (h : Waits s) (hq : Queued s) {q q' : Obj} (hx : x ∈ s.waiters q)
    (hx' : x ∈ s.waiters q') : q' = q := by
  have henv : ∀ {p p' : Point}, InQueue s x p → InQueue s x p' → p = p' := by
    intro p p' hp hp'
    have heq := (hq.waits x p hp).2.2.symm.trans (hq.waits x p' hp').2.2
    exact congrArg Context.point heq
  obtain ⟨i, ⟨o, rfl, ho, hi⟩ | ⟨o, rfl, ho, hi⟩⟩ := exists_inQueue hx <;>
    obtain ⟨i', ⟨o', rfl, ho', hi'⟩ | ⟨o', rfl, ho', hi'⟩⟩ := exists_inQueue hx'
  · obtain rfl : i = i' := Point.inLock.inj (henv hi hi')
    rw [h.mutex.inj o' o i ho' ho]
  · cases henv hi hi'
  · cases henv hi hi'
  · obtain rfl : i = i' := Point.inWait.inj (henv hi hi')
    rw [h.barrier.inj o' o i ho' ho]

theorem Queued.waiters (hq : Queued s) {q : Obj} (hx : x ∈ s.waiters q) :
    s.live x = true ∧ s.status x = .blocked ∧ (s.waiters q).Nodup := by
  obtain ⟨i, ⟨o, rfl, ho, hi⟩ | ⟨o, rfl, ho, hi⟩⟩ := exists_inQueue hx
  · obtain ⟨hlive, hb, -⟩ := hq.waits x _ hi
    cases hi with
    | mutex hm => exact ⟨hlive, hb, by rw [waiters_of_mutex ho hm]; exact (hq.mutex i _ hm).2⟩
  · obtain ⟨hlive, hb, -⟩ := hq.waits x _ hi
    cases hi with
    | barrier hb' => exact ⟨hlive, hb, by rw [waiters_of_barrier ho hb']; exact (hq.barrier i _ hb').2⟩

theorem Waits.waitersOk (h : Waits s) (hq : Queued s) (hs : Sched s l c) : WaitersOk s := by
  refine ⟨?_, fun q x hx => (hq.waiters hx).1, fun o i m _ hm => h.free i m hm, c, hs.curr, ?_⟩
  · intro x hlive
    constructor
    · intro hb
      obtain ⟨q, hx⟩ := h.waits x hlive hb
      exact ⟨q, List.count_eq_one_of_mem (hq.waiters hx).2.2 hx, fun q' hx' => h.unique hq hx hx'⟩
    · rintro ⟨q, hcount, -⟩
      exact (hq.waiters (q := q) (List.count_pos_iff.mp (by rw [hcount]; decide))).2.1
  · intro x
    constructor
    · rintro ⟨hlive, hrun⟩
      by_contra hxc
      have hmem : x ∈ l := by simpa [hxc] using (hs.live x).mp hlive
      rcases (hs.rest x hmem).status with hst | hst
      · rw [hrun] at hst
        cases hst
      · rw [hrun] at hst
        cases hst
    · rintro rfl
      exact ⟨hs.live_curr, hs.running⟩

theorem waits_start : Waits State.start := by
  refine ⟨⟨?_, ?_⟩, ⟨?_, ?_⟩, ?_, ?_⟩
  · intro o i h; cases h
  · intro o o' i h; cases h
  · intro o i h; cases h
  · intro o o' i h; cases h
  · intro i m h; cases h
  · intro x h; cases h

/-- **No waiter is lost and none is there twice**, in every state after the first `pthread_create`. -/
theorem run_waitersOk (cs : List Call) (hrun : RunOk call Orderly State.start cs)
    (hlife : (run call State.start cs).life = .active)
    (hfirst : (run call State.start cs).isFirstCall = false) :
    WaitersOk (run call State.start cs) := by
  have hinv : (Good (run call State.start cs) ∧ Few (run call State.start cs)) ∧
      ((run call State.start cs).life = .active → Waits (run call State.start cs)) := by
    refine run_invariant (I := fun s => (Good s ∧ Few s) ∧ (s.life = .active → Waits s)) ?_ cs _
      ⟨⟨good_start, fun _ => by decide⟩, fun _ => waits_start⟩ hrun
    rintro s cl ⟨⟨hg, hfew⟩, hw⟩ ⟨hok, hu⟩
    have hf := hok.findsReady hg hfew
    refine ⟨⟨hg.call hf, hok.few hg hfew⟩, fun hlife' => ?_⟩
    by_cases hlife : s.life = .active
    · obtain ⟨l, c, hst⟩ := hg.stage hlife
      exact (hw hlife).call hlife hst (hg.queued hlife) hf hu hlife'
    · rw [call_of_dead hlife] at hlife'
      exact absurd hlife' hlife
  obtain ⟨⟨hg, -⟩, hw⟩ := hinv
  obtain ⟨l, c, hst⟩ := hg.stage hlife
  cases hst with
  | idle hidle => rw [hfirst] at hidle; cases hidle
  | sched hs => exact (hw hlife).waitersOk (hg.queued hlife) hs

/-- Two threads wait for a mutex that main holds; the one that is woken hands it on and waits with main
at a barrier. -/
def changeQueues : List Call :=
  [.create, .create, .mutexInit 0, .barrierInit 0 3, .lock 0, .alarm, .lock 0, .lock 0, .unlock 0,
    .wait 0, .unlock 0, .wait 0]

theorem run_waitersOk_changeQueues : WaitersOk (run call State.start changeQueues) :=
  run_waitersOk changeQueues (by decide +kernel) (by decide +kernel) (by decide +kernel)

end EC440.ThreadSync
