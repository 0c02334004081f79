import EC440.ThreadSync.Invariant

/-!
# The order in which waiters get a mutex

`pthread_mutex_lock` puts a thread that has to wait at the front of `waiters`, and
`pthread_mutex_unlock` takes from the front.  So the thread that came last is served first
(`overtaken`), unless nobody else waits (`run_servedInOrder`).

Nothing is assumed about the runs here, so `Effect` is of no use.  `QueueStep` says of every call
what it does to the mutexes.
-/

namespace EC440.ThreadSync

open EC440.Lib

variable {s s' : State} {c x i o : Nat} {cl : Call} {cs : List Call} {p : Point}

/-! ### Who waits and who is served -/

/-- The mutex `i`, for a call through the object `o` that finds it locked. -/
def busy (s : State) (o i : Nat) : Option MutexInfo :=
  if s.life = .active ∧ s.mutexObj o = some i then
    (s.mutexInfos i).filter fun m => m.init && m.locked
  else none

/-- The thread that the call puts in the queue of the mutex `i`. -/
def blockedOn (i : Nat) (s : State) : Call → Option Nat
  | .lock o => (busy s o i).bind fun _ => s.deref s.curr
  | _ => none

/-- The thread that the call takes from the queue of the mutex `i` and hands the mutex to. -/
def handedTo (i : Nat) (s : State) : Call → Option Nat
  | .unlock o => (busy s o i).bind fun m => m.waiters.head?
  | _ => none

/-- The threads that blocked on the mutex `i`, in order. -/
def blockings (i : Nat) (s : State) (cs : List Call) : List Nat := yields call (blockedOn i) s cs

/-- The threads that the mutex `i` was handed to, in order. -/
def handovers (i : Nat) (s : State) (cs : List Call) : List Nat := yields call (handedTo i) s cs

/-- The mutex has been handed to those who came first, in the order in which they came: the `k`-th
thread it is handed to is the `k`-th that blocked on it. -/
def ServedInOrder (i : Nat) (cs : List Call) : Prop :=
  handovers i State.start cs <+: blockings i State.start cs

/-- A mutex that is unlocked has one waiter at most. -/
def AtMostOneWaits (s : State) : Call → Prop
  | .unlock o => ∀ i m, busy s o i = some m → m.waiters.length ≤ 1
  | _ => True

/-- The queue of the mutex `i`, the latest first. -/
def waitersOf (s : State) (i : Nat) : List Nat := (s.mutexInfos i).elim [] MutexInfo.waiters

/-! ### What the calls do to the mutexes -/

structure SameMutexes (s s' : State) : Prop where
  infos : s'.mutexInfos = s.mutexInfos
  next : s'.nextMutex = s.nextMutex

theorem SameMutexes.trans {s'' : State} (h : SameMutexes s s') (h' : SameMutexes s' s'') :
    SameMutexes s s'' :=
  ⟨h'.infos.trans h.infos, h'.next.trans h.next⟩

theorem sameMutexes_continueAt (h : continueAt s p = some s') : SameMutexes s s' := by
  cases p with
  | init => cases h
  | start | user | inLock i | inWait i | inExit =>
    cases h
    exact ⟨rfl, rfl⟩

theorem sameMutexes_dispatch (h : dispatch s x = some s') : SameMutexes s s' := by
  have hrest := sameMutexes_continueAt h
  exact ⟨hrest.infos, hrest.next⟩

theorem sameMutexes_pickNext (h : pickNext s p = some s') : SameMutexes s s' := by
  simp only [pickNext, Option.bind_eq_bind, Option.bind_eq_some_iff] at h
  obtain ⟨c, -, found, -, h⟩ := h
  cases found with
  | thread x => exact sameMutexes_dispatch h
  | nobody c' =>
    have hrest := sameMutexes_continueAt h
    exact ⟨hrest.infos, hrest.next⟩

theorem sameMutexes_pauseCurr (h : pauseCurr s p = some s') : SameMutexes s s' := by
  simp only [pauseCurr, Option.bind_eq_bind, Option.bind_eq_some_iff] at h
  obtain ⟨c, -, h⟩ := h
  have hrest := sameMutexes_pickNext h
  split at hrest
  · exact ⟨hrest.infos, hrest.next⟩
  · exact hrest

theorem sameMutexes_unlinkCurr (h : unlinkCurr s c = some s') : SameMutexes s s' := by
  simp only [unlinkCurr, Option.bind_eq_bind, Option.bind_eq_some_iff, Option.some.injEq] at h
  obtain ⟨p, -, n, -, p', -, n', -, rfl⟩ := h
  exact ⟨rfl, rfl⟩

theorem sameMutexes_schedule (h : schedule s p = some s') : SameMutexes s s' := by
  simp only [schedule, Option.bind_eq_bind, Option.bind_eq_some_iff] at h
  obtain ⟨c, -, h⟩ := h
  have hsaved : SameMutexes s (s.setEnv c ⟨s.exec, p⟩) := ⟨rfl, rfl⟩
  apply hsaved.trans
  split at h
  · obtain ⟨s₁, hs₁, h⟩ := Option.bind_eq_some_iff.mp h
    exact (sameMutexes_unlinkCurr hs₁).trans (sameMutexes_pauseCurr h)
  · exact sameMutexes_pauseCurr h
  · exact sameMutexes_pickNext h
  · exact sameMutexes_continueAt h

theorem sameMutexes_wakeAll : ∀ (ws : List Nat) (s s' : State),
    wakeAll s ws = some s' → SameMutexes s s' := by
  intro ws
  induction ws with
  | nil =>
    intro s s' h
    cases h
    exact ⟨rfl, rfl⟩
  | cons x ws ih =>
    intro s s' h
    simp only [wakeAll, Option.bind_eq_bind, Option.bind_eq_some_iff] at h
    obtain ⟨y, -, h⟩ := h
    have hrest := ih _ _ h
    exact ⟨hrest.infos, hrest.next⟩

theorem sameMutexes_linkNew {y : Nat} (h : linkNew s y = some s') : SameMutexes s s' := by
  simp only [linkNew, Option.bind_eq_bind, Option.bind_eq_some_iff] at h
  obtain ⟨c, -, h⟩ := h
  by_cases hone : s.numCurrThreads = 1
  · rw [if_pos hone] at h
    cases h
    exact ⟨rfl, rfl⟩
  · rw [if_neg hone, Option.bind_eq_some_iff] at h
    obtain ⟨x, -, h⟩ := h
    cases h
    exact ⟨rfl, rfl⟩

theorem sameMutexes_create {r : Option Int} (h : pthreadCreate s = some (r, s')) :
    SameMutexes s s' := by
  simp only [pthreadCreate, createThread, Option.bind_eq_bind, Option.bind_eq_some_iff] at h
  obtain ⟨s₁, hs₁, h⟩ := h
  cases h
  have hlink := sameMutexes_linkNew hs₁
  by_cases hfirst : s.isFirstCall = true
  · rw [if_pos hfirst] at hlink
    exact ⟨hlink.infos, hlink.next⟩
  · rw [if_neg hfirst] at hlink
    exact ⟨hlink.infos, hlink.next⟩

theorem sameMutexes_exit {r : Option Int} (h : pthreadExit s = some (r, s')) :
    SameMutexes s s' := by
  simp only [pthreadExit, Option.bind_eq_bind, Option.bind_eq_some_iff] at h
  obtain ⟨c, -, h⟩ := h
  split at h
  · obtain ⟨s₁, hs₁, h⟩ := Option.bind_eq_some_iff.mp h
    cases h
    have hrest := sameMutexes_schedule hs₁
    exact ⟨hrest.infos, hrest.next⟩
  · cases h
    exact ⟨rfl, rfl⟩

theorem sameMutexes_alarm {r : Option Int} (h : alarm s = some (r, s')) : SameMutexes s s' := by
  rw [alarm] at h
  split at h
  · cases h
    exact ⟨rfl, rfl⟩
  · obtain ⟨s₁, hs₁, h⟩ := Option.map_eq_some_iff.mp h
    cases h
    exact sameMutexes_schedule hs₁

theorem sameMutexes_barrierInit {count : UInt32} {r : Option Int}
    (h : pthreadBarrierInit s o count = some (r, s')) : SameMutexes s s' := by
  rw [pthreadBarrierInit] at h
  split at h
  · cases h
    exact ⟨rfl, rfl⟩
  · cases h
    exact ⟨rfl, rfl⟩

theorem sameMutexes_barrierDestroy {r : Option Int}
    (h : pthreadBarrierDestroy s o = some (r, s')) : SameMutexes s s' := by
  rw [pthreadBarrierDestroy] at h
  split at h
  · cases h
    exact ⟨rfl, rfl⟩
  · simp only [Option.bind_eq_bind, Option.bind_eq_some_iff] at h
    obtain ⟨b, -, h⟩ := h
    cases h
    exact ⟨rfl, rfl⟩

theorem sameMutexes_wait {r : Option Int} (h : pthreadBarrierWait s o = some (r, s')) :
    SameMutexes s s' := by
  rw [pthreadBarrierWait] at h
  split at h
  · cases h
    exact ⟨rfl, rfl⟩
  · simp only [Option.bind_eq_bind, Option.bind_eq_some_iff] at h
    obtain ⟨b, -, h⟩ := h
    split at h
    · split at h
      · simp only [Option.bind_eq_some_iff] at h
        obtain ⟨c, -, s₁, hs₁, h⟩ := h
        cases h
        have hrest := sameMutexes_schedule hs₁
        exact ⟨hrest.infos, hrest.next⟩
      · split at h
        · simp only [Option.bind_eq_some_iff] at h
          obtain ⟨s₁, hs₁, h⟩ := h
          cases h
          have hrest := sameMutexes_wakeAll _ _ _ hs₁
          exact ⟨hrest.infos, hrest.next⟩
        · cases h
          exact ⟨rfl, rfl⟩
    · cases h
      exact ⟨rfl, rfl⟩

/-- What a call does to the mutexes, as long as the process goes on. -/
inductive QueueStep (s : State) : Call → State → Prop
  | ended {cl : Call} {s' : State} (hlife : s'.life ≠ .active) : QueueStep s cl s'
  | same {cl : Call} {s' : State} (hsame : SameMutexes s s')
      (hnone : ∀ i, blockedOn i s cl = none ∧ handedTo i s cl = none) : QueueStep s cl s'
  | made {o : Nat} {s' : State} (hnext : s'.nextMutex = s.nextMutex + 1)
      (hinfos : s'.mutexInfos = Function.update s.mutexInfos s.nextMutex (some ⟨true, false, []⟩)) :
      QueueStep s (.mutexInit o) s'
  | freed {o i : Nat} {s' : State} (hnext : s'.nextMutex = s.nextMutex)
      (hinfos : s'.mutexInfos = Function.update s.mutexInfos i none) :
        QueueStep s (.mutexDestroy o) s'
  | kept {cl : Call} {i : Nat} {m : MutexInfo} {s' : State} (b : Bool)
      (hm : s.mutexInfos i = some m)
      (hnext : s'.nextMutex = s.nextMutex)
      (hinfos : s'.mutexInfos = Function.update s.mutexInfos i (some { m with locked := b }))
      (hnone : ∀ i, blockedOn i s cl = none ∧ handedTo i s cl = none) : QueueStep s cl s'
  | blocked {o i c : Nat} {m : MutexInfo} {s' : State} (hm : s.mutexInfos i = some m)
      (hnext : s'.nextMutex = s.nextMutex)
      (hinfos : s'.mutexInfos = Function.update s.mutexInfos i
        (some { m with waiters := c :: m.waiters }))
      (hc : ∀ j, blockedOn j s (.lock o) = if j = i then some c else none) :
        QueueStep s (.lock o) s'
  | handed {o i x : Nat} {m : MutexInfo} {ws : List Nat} {s' : State} (hm : s.mutexInfos i = some m)
      (hw : m.waiters = x :: ws) (hnext : s'.nextMutex = s.nextMutex)
      (hinfos : s'.mutexInfos = Function.update s.mutexInfos i (some { m with waiters := ws }))
      (hx : ∀ j, handedTo j s (.unlock o) = if j = i then some x else none) :
        QueueStep s (.unlock o) s'

theorem busy_of_none (ho : s.mutexObj o = none) (j : Nat) : busy s o j = none := by
  rw [busy, if_neg (by simp [ho])]

/-- A mutex that is found and not locked is not busy. -/
theorem busy_of_not {m : MutexInfo} (ho : s.mutexObj o = some i) (hm : s.mutexInfos i = some m)
    (hnot : ¬ (m.init = true ∧ m.locked = true)) (j : Nat) : busy s o j = none := by
  rw [busy]
  split
  · rename_i h
    obtain rfl : i = j := Option.some.inj (ho.symm.trans h.2)
    rw [hm, Option.filter_some, if_neg (by simpa using hnot)]
  · rfl

theorem busy_of_locked {m : MutexInfo} (hlife : s.life = .active) (ho : s.mutexObj o = some i)
    (hm : s.mutexInfos i = some m) (hinit : m.init = true) (hlocked : m.locked = true) (j : Nat) :
    busy s o j = if j = i then some m else none := by
  rw [busy]
  by_cases hj : j = i
  · subst hj
    rw [if_pos ⟨hlife, ho⟩, if_pos rfl, hm, Option.filter_some, if_pos (by simp [hinit, hlocked])]
  · rw [if_neg hj, if_neg]
    rintro ⟨-, h⟩
    exact hj (Option.some.inj (h.symm.trans ho))

theorem lock_queueStep {r : Option Int} (hlife : s.life = .active)
    (h : pthreadMutexLock s o = some (r, s')) :
    QueueStep s (.lock o) s' := by
  have hnone : (∀ j, busy s o j = none) →
      ∀ j, blockedOn j s (.lock o) = none ∧ handedTo j s (.lock o) = none := by
    intro hb j
    rw [blockedOn, hb j]
    exact ⟨rfl, rfl⟩
  rw [pthreadMutexLock] at h
  cases ho : s.mutexObj o with
  | none =>
    simp only [ho] at h
    cases h
    exact .same ⟨rfl, rfl⟩ (hnone (busy_of_none ho))
  | some i =>
    simp only [ho, Option.bind_eq_bind, Option.bind_eq_some_iff] at h
    obtain ⟨m, hm, h⟩ := h
    by_cases hinit : m.init = true
    · rw [if_pos hinit] at h
      by_cases hlocked : m.locked = true
      · rw [if_pos hlocked, Option.bind_eq_some_iff] at h
        obtain ⟨c, hc, h⟩ := h
        obtain ⟨s₁, hs₁, h⟩ := Option.bind_eq_some_iff.mp h
        cases h
        have hrest := sameMutexes_schedule hs₁
        refine .blocked hm hrest.next hrest.infos ?_
        intro j
        rw [blockedOn, busy_of_locked hlife ho hm hinit hlocked]
        by_cases hj : j = i
        · rw [if_pos hj, if_pos hj, Option.bind_some]
          exact hc
        · rw [if_neg hj, if_neg hj, Option.bind_none]
      · rw [if_neg hlocked] at h
        cases h
        exact .kept true hm rfl rfl (hnone (busy_of_not ho hm fun hc => hlocked hc.2))
    · rw [if_neg hinit] at h
      cases h
      exact .same ⟨rfl, rfl⟩ (hnone (busy_of_not ho hm fun hc => hinit hc.1))

theorem unlock_queueStep {r : Option Int} (hlife : s.life = .active)
    (h : pthreadMutexUnlock s o = some (r, s')) :
    QueueStep s (.unlock o) s' := by
  have hnone : (∀ j, busy s o j = none) →
      ∀ j, blockedOn j s (.unlock o) = none ∧ handedTo j s (.unlock o) = none := by
    intro hb j
    rw [handedTo, hb j]
    exact ⟨rfl, rfl⟩
  rw [pthreadMutexUnlock] at h
  cases ho : s.mutexObj o with
  | none =>
    simp only [ho] at h
    cases h
    exact .same ⟨rfl, rfl⟩ (hnone (busy_of_none ho))
  | some i =>
    simp only [ho, Option.bind_eq_bind, Option.bind_eq_some_iff] at h
    obtain ⟨m, hm, h⟩ := h
    by_cases hinit : m.init = true
    · rw [if_pos hinit] at h
      by_cases hlocked : m.locked = true
      · rw [if_pos hlocked] at h
        have hbusy := busy_of_locked hlife ho hm hinit hlocked
        cases hw : m.waiters with
        | nil =>
          simp only [hw] at h
          cases h
          refine .kept false hm rfl ?_ ?_
          · rw [hw]
            rfl
          · intro j
            rw [handedTo, hbusy]
            split
            · rw [Option.bind_some, hw]
              exact ⟨rfl, rfl⟩
            · exact ⟨rfl, rfl⟩
        | cons x ws =>
          simp only [hw, Option.bind_eq_some_iff] at h
          obtain ⟨y, -, h⟩ := h
          cases h
          refine .handed hm hw rfl rfl ?_
          intro j
          rw [handedTo, hbusy]
          by_cases hj : j = i
          · rw [if_pos hj, if_pos hj, Option.bind_some, hw]
            rfl
          · rw [if_neg hj, if_neg hj, Option.bind_none]
      · rw [if_neg hlocked] at h
        cases h
        exact .same ⟨rfl, rfl⟩ (hnone (busy_of_not ho hm fun hc => hlocked hc.2))
    · rw [if_neg hinit] at h
      cases h
      exact .same ⟨rfl, rfl⟩ (hnone (busy_of_not ho hm fun hc => hinit hc.1))

/-- **Every call is one of these steps.** -/
theorem call_queueStep (s : State) (cl : Call) : QueueStep s cl (call s cl).2 := by
  rw [call]
  split
  · rename_i hlife
    cases hb : body s cl with
    | none => exact .ended (by simp)
    | some r =>
      obtain ⟨r, s'⟩ := r
      cases cl with
      | create => exact .same (sameMutexes_create hb) fun _ => ⟨rfl, rfl⟩
      | exit => exact .same (sameMutexes_exit hb) fun _ => ⟨rfl, rfl⟩
      | alarm => exact .same (sameMutexes_alarm hb) fun _ => ⟨rfl, rfl⟩
      | mutexInit o =>
        cases hb
        exact .made rfl rfl
      | mutexDestroy o =>
        simp only [body, pthreadMutexDestroy] at hb
        split at hb
        · cases hb
          exact .same ⟨rfl, rfl⟩ fun _ => ⟨rfl, rfl⟩
        · simp only [Option.bind_eq_bind, Option.bind_eq_some_iff] at hb
          obtain ⟨m, -, hb⟩ := hb
          cases hb
          exact .freed rfl rfl
      | lock o => exact lock_queueStep hlife hb
      | unlock o => exact unlock_queueStep hlife hb
      | barrierInit o count => exact .same (sameMutexes_barrierInit hb) fun _ => ⟨rfl, rfl⟩
      | barrierDestroy o => exact .same (sameMutexes_barrierDestroy hb) fun _ => ⟨rfl, rfl⟩
      | wait o => exact .same (sameMutexes_wait hb) fun _ => ⟨rfl, rfl⟩
  · rename_i hlife
    exact .ended hlife

/-! ### The queue of a mutex -/

/-- Every mutex has a number below the next one. -/
def Numbered (s : State) : Prop := ∀ i m, s.mutexInfos i = some m → i < s.nextMutex

/-- The mutex `i` is out of use for ever. -/
def Closed (s : State) (i : Nat) : Prop :=
  s.life ≠ .active ∨ i < s.nextMutex ∧ s.mutexInfos i = none

theorem Closed.idle (h : Closed s i) (cl : Call) :
    blockedOn i s cl = none ∧ handedTo i s cl = none := by
  have hbusy : ∀ o, busy s o i = none := by
    intro o
    rw [busy]
    split
    · rename_i hlive
      rcases h with hdead | ⟨-, hfree⟩
      · exact absurd hlive.1 hdead
      · rw [hfree]
        rfl
    · rfl
  cases cl with
  | lock o => exact ⟨by rw [blockedOn, hbusy, Option.bind_none], rfl⟩
  | unlock o => exact ⟨rfl, by rw [handedTo, hbusy, Option.bind_none]⟩
  | _ => exact ⟨rfl, rfl⟩

/-- What a call does to one queue: the mutex is closed, or what was taken from the front and what
is left is what was put in front and what was there. -/
theorem QueueStep.queue (h : QueueStep s cl s') (hnum : Numbered s) (i : Nat) :
    Closed s' i ∨ (handedTo i s cl).toList ++ waitersOf s' i =
      (blockedOn i s cl).toList ++ waitersOf s i := by
  cases h with
  | ended hlife => exact .inl (.inl hlife)
  | same hsame hnone =>
    refine .inr ?_
    rw [(hnone i).1, (hnone i).2, waitersOf, hsame.infos]
    rfl
  | made hnext hinfos =>
    refine .inr ?_
    simp only [handedTo, blockedOn, waitersOf, hinfos, Function.update_apply]
    by_cases hi : i = s.nextMutex
    · have hfresh : s.mutexInfos i = none := by
        cases hm : s.mutexInfos i with
        | none => rfl
        | some m =>
          have := hnum i m hm
          omega
      rw [if_pos hi, hfresh]
      rfl
    · rw [if_neg hi]
  | @freed o j _ hnext hinfos =>
    by_cases hi : i = j
    · cases hm : s.mutexInfos i with
      | none =>
        refine .inr ?_
        simp only [handedTo, blockedOn, waitersOf, hinfos, Function.update_apply, if_pos hi, hm]
      | some m =>
        refine .inl (.inr ⟨?_, ?_⟩)
        · rw [hnext]
          exact hnum i m hm
        · rw [hinfos, hi, Function.update_self]
    · refine .inr ?_
      simp only [handedTo, blockedOn, waitersOf, hinfos, Function.update_apply, if_neg hi]
  | @kept _ j m _ b hm hnext hinfos hnone =>
    refine .inr ?_
    rw [(hnone i).1, (hnone i).2]
    simp only [waitersOf, hinfos, Function.update_apply]
    by_cases hi : i = j
    · rw [if_pos hi, hi, hm]
      rfl
    · rw [if_neg hi]
  | @blocked o j c m _ hm hnext hinfos hc =>
    refine .inr ?_
    rw [hc]
    simp only [handedTo, waitersOf, hinfos, Function.update_apply]
    by_cases hi : i = j
    · rw [if_pos hi, if_pos hi, hi, hm]
      rfl
    · rw [if_neg hi, if_neg hi]
  | @handed o j x m ws _ hm hw hnext hinfos hx =>
    refine .inr ?_
    rw [hx]
    simp only [blockedOn, waitersOf, hinfos, Function.update_apply]
    by_cases hi : i = j
    · rw [if_pos hi, if_pos hi, hi, hm]
      exact hw.symm
    · rw [if_neg hi, if_neg hi]

theorem QueueStep.numbered (h : QueueStep s cl s') (hlife : s'.life = .active) (hnum : Numbered s) :
    Numbered s' := by
  have hset : ∀ {j : Nat} {m' : Option MutexInfo}, (m'.isSome → j < s.nextMutex) →
      s'.nextMutex = s.nextMutex →
      s'.mutexInfos = Function.update s.mutexInfos j m' → Numbered s' := by
    intro j m' hj hnext hinfos i m hm
    rw [hinfos, Function.update_apply] at hm
    rw [hnext]
    split at hm
    · rename_i hi
      subst hi
      exact hj (by rw [hm]; rfl)
    · exact hnum i m hm
  cases h with
  | ended hdead => exact absurd hlife hdead
  | same hsame =>
    intro i m hm
    rw [hsame.infos] at hm
    rw [hsame.next]
    exact hnum i m hm
  | made hnext hinfos =>
    intro i m hm
    rw [hinfos, Function.update_apply] at hm
    rw [hnext]
    split at hm
    · omega
    · have := hnum i m hm
      omega
  | freed hnext hinfos => exact hset (fun h => by cases h) hnext hinfos
  | kept b hm hnext hinfos => exact hset (fun _ => hnum _ _ hm) hnext hinfos
  | blocked hm hnext hinfos => exact hset (fun _ => hnum _ _ hm) hnext hinfos
  | handed hm _ hnext hinfos => exact hset (fun _ => hnum _ _ hm) hnext hinfos

/-- A mutex stays closed. -/
theorem QueueStep.closed (h : QueueStep s cl s') (hc : i < s.nextMutex ∧ s.mutexInfos i = none) :
    Closed s' i := by
  have hset : ∀ {j : Nat} {m' : Option MutexInfo}, (i = j → m' = none) →
      s'.nextMutex = s.nextMutex →
      s'.mutexInfos = Function.update s.mutexInfos j m' → Closed s' i := by
    intro j m' hj hnext hinfos
    refine .inr ⟨by rw [hnext]; exact hc.1, ?_⟩
    rw [hinfos, Function.update_apply]
    split
    · rename_i hi
      exact hj hi
    · exact hc.2
  have hother : ∀ {j : Nat} {m : MutexInfo} {m' : Option MutexInfo},
      s.mutexInfos j = some m → i = j → m' = none := by
    rintro j m m' hm rfl
    rw [hc.2] at hm
    cases hm
  cases h with
  | ended hdead => exact .inl hdead
  | same hsame => exact .inr ⟨by rw [hsame.next]; exact hc.1, by rw [hsame.infos]; exact hc.2⟩
  | made hnext hinfos =>
    refine .inr ⟨by omega, ?_⟩
    rw [hinfos, Function.update_of_ne (by omega)]
    exact hc.2
  | freed hnext hinfos => exact hset (fun _ => rfl) hnext hinfos
  | kept b hm hnext hinfos => exact hset (hother hm) hnext hinfos
  | blocked hm hnext hinfos => exact hset (hother hm) hnext hinfos
  | handed hm _ hnext hinfos => exact hset (hother hm) hnext hinfos

theorem Closed.call (h : Closed s i) (cl : Call) : Closed (call s cl).2 i := by
  rcases h with hdead | hfree
  · rw [call_of_dead hdead]
    exact .inl hdead
  · exact (call_queueStep s cl).closed hfree

theorem handovers_of_closed (h : Closed s i) (cs : List Call) : handovers i s cs = [] := by
  induction cs generalizing s with
  | nil => rfl
  | cons cl cs ih =>
    have hrest := ih (h.call cl)
    rw [handovers, yields, (h.idle cl).2]
    exact hrest

/-! ### Runs -/

theorem busy_some {m : MutexInfo} (h : busy s o i = some m) : s.mutexInfos i = some m := by
  rw [busy] at h
  split at h
  · exact (Option.filter_eq_some_iff.mp h).1
  · cases h

theorem waitersOf_of_busy {m : MutexInfo} (h : busy s o i = some m) :
    waitersOf s i = m.waiters := by
  rw [waitersOf, busy_some h]
  rfl

/-- A thread that is served without competition was the only one in the queue. -/
theorem AtMostOneWaits.waitersOf (h : AtMostOneWaits s cl) (hx : handedTo i s cl = some x) :
    waitersOf s i = [x] ∧ blockedOn i s cl = none := by
  cases cl with
  | unlock o =>
    obtain ⟨m, hm, hhead⟩ := Option.bind_eq_some_iff.mp hx
    refine ⟨?_, rfl⟩
    rw [waitersOf_of_busy hm]
    have hone := h i m hm
    cases hw : m.waiters with
    | nil =>
      rw [hw] at hhead
      cases hhead
    | cons y ws =>
      rw [hw] at hhead hone
      cases hhead
      rw [List.length_cons] at hone
      rw [List.length_eq_zero_iff.mp (by omega : ws.length = 0)]
  | _ => cases hx

/-- The queue, the oldest first, when a thread is served only when it is alone: new threads go to
its end and threads are served from its beginning. -/
theorem AtMostOneWaits.queue (h : AtMostOneWaits s cl) (hnum : Numbered s) (i : Nat) :
    Closed (call s cl).2 i ∨ (ThreadSync.waitersOf s i).reverse ++ (blockedOn i s cl).toList =
      (handedTo i s cl).toList ++ (ThreadSync.waitersOf (call s cl).2 i).reverse := by
  rcases (call_queueStep s cl).queue hnum i with hclosed | heq
  · exact .inl hclosed
  · refine .inr ?_
    cases hx : handedTo i s cl with
    | some x =>
      obtain ⟨hw, hb⟩ := h.waitersOf hx
      rw [hx, hb, hw] at heq
      have hnil : ThreadSync.waitersOf (call s cl).2 i = [] := by simpa using heq
      rw [hw, hb, hnil]
      rfl
    | none =>
      rw [hx] at heq
      have hnew : ThreadSync.waitersOf (call s cl).2 i =
        (blockedOn i s cl).toList ++ ThreadSync.waitersOf s i := heq
      rw [hnew, List.reverse_append]
      cases blockedOn i s cl with
      | none => simp
      | some c => simp

/-- What is still to come is served in order, behind those who wait already. -/
theorem handovers_prefix : ∀ (cs : List Call) (s : State),
    Numbered s → RunOk call AtMostOneWaits s cs →
    handovers i s cs <+: (waitersOf s i).reverse ++ blockings i s cs := by
  intro cs
  induction cs with
  | nil =>
    intro s _ _
    exact List.nil_prefix
  | cons cl cs ih =>
    intro s hnum hok
    have hsplit : handovers i s (cl :: cs) =
        (handedTo i s cl).toList ++ handovers i (call s cl).2 cs := rfl
    have hsplit' : blockings i s (cl :: cs) =
        (blockedOn i s cl).toList ++ blockings i (call s cl).2 cs := rfl
    rw [hsplit, hsplit']
    rcases hok.1.queue hnum i with hclosed | heq
    · rw [handovers_of_closed hclosed, List.append_nil]
      cases hx : handedTo i s cl with
      | none => exact List.nil_prefix
      | some x =>
        rw [(hok.1.waitersOf hx).1]
        exact List.prefix_append _ _
    · by_cases hlife : (call s cl).2.life = .active
      · rw [← List.append_assoc, heq, List.append_assoc, List.prefix_append_right_inj]
        exact ih _ ((call_queueStep s cl).numbered hlife hnum) hok.2
      · rw [handovers_of_closed (.inl hlife), List.append_nil, ← List.append_assoc, heq,
          List.append_assoc]
        exact List.prefix_append _ _

theorem numbered_start : Numbered State.start := by
  intro i m hm
  cases hm

/-- **Mutex waiters are served in order** in every run in which nobody competes for a mutex when it
is unlocked. -/
theorem run_servedInOrder (cs : List Call) (h : RunOk call AtMostOneWaits State.start cs)
    (i : Nat) : ServedInOrder i cs :=
  handovers_prefix cs State.start numbered_start h

theorem atMostOneWaits_unlock {m : MutexInfo} (ho : s.mutexObj o = some i)
    (hm : s.mutexInfos i = some m)
    (hone : m.waiters.length ≤ 1) : AtMostOneWaits s (.unlock o) := by
  intro j m' hb
  have hj := busy_some hb
  rw [busy] at hb
  split at hb
  · rename_i hobj
    obtain rfl : i = j := Option.some.inj (ho.symm.trans hobj.2)
    obtain rfl : m = m' := Option.some.inj (hm.symm.trans hj)
    exact hone
  · cases hb

/-- Thread 1 waits for the main thread, and thread 2 waits for thread 1. -/
def oneAfterOther : List Call :=
  [.create, .create, .mutexInit 0, .lock 0, .alarm, .lock 0, .alarm, .unlock 0, .alarm, .alarm, .lock 0,
    .alarm, .unlock 0]

/-- The first one is handed the mutex before the second one blocks on it. -/
theorem run_servedInOrder_oneAfterOther :
    blockings 0 State.start oneAfterOther = [1, 2] ∧
      handovers 0 State.start oneAfterOther = [1, 2] ∧ ServedInOrder 0 oneAfterOther := by
  have hfirst : (run call State.start (oneAfterOther.take 7)).mutexObj 0 = some 0 ∧
      (run call State.start (oneAfterOther.take 7)).mutexInfos 0 = some ⟨true, true, [1]⟩ := by
    decide +kernel
  have hsecond : (run call State.start (oneAfterOther.take 12)).mutexObj 0 = some 0 ∧
      (run call State.start (oneAfterOther.take 12)).mutexInfos 0 = some ⟨true, true, [2]⟩ := by
    decide +kernel
  have hone : RunOk call AtMostOneWaits State.start oneAfterOther :=
    ⟨trivial, trivial, trivial, trivial, trivial, trivial, trivial,
      atMostOneWaits_unlock hfirst.1 hfirst.2 (by decide), trivial, trivial, trivial, trivial,
      atMostOneWaits_unlock hsecond.1 hsecond.2 (by decide), trivial⟩
  exact ⟨by decide +kernel, by decide +kernel, run_servedInOrder oneAfterOther hone 0⟩

/-! ### The converse

When the searches find a ready thread no thread is in a queue twice, and then the condition is
needed. -/

theorem Queued.atMostOneWaits (hq : Queued s)
    (h : ∀ i, (handedTo i s cl).toList <+: (waitersOf s i).reverse) : AtMostOneWaits s cl := by
  cases cl with
  | unlock o =>
    intro i m hb
    have hnodup := (hq.mutex i m (busy_some hb)).2
    have hfirst := h i
    rw [handedTo, hb, Option.bind_some, waitersOf_of_busy hb] at hfirst
    cases hw : m.waiters with
    | nil => simp
    | cons x ws =>
      rw [hw] at hfirst hnodup
      cases hws : ws.reverse with
      | nil =>
        rw [List.reverse_eq_nil_iff.mp hws]
        simp
      | cons y zs =>
        -- the oldest of several threads is not the latest
        rw [List.reverse_cons, hws] at hfirst
        obtain ⟨rest, hrest⟩ := hfirst
        obtain rfl : x = y := by simpa using congrArg List.head? hrest
        have hmem : x ∈ ws := by
          rw [← List.mem_reverse, hws]
          exact List.mem_cons_self
        exact absurd hmem (List.nodup_cons.mp hnodup).1
  | _ => trivial

theorem atMostOneWaits_of_dead (hlife : s.life ≠ .active) (cl : Call) : AtMostOneWaits s cl := by
  cases cl with
  | unlock o =>
    intro i m hb
    rw [busy, if_neg (fun hc => hlife hc.1)] at hb
    cases hb
  | _ => trivial

theorem runOk_of_dead (hlife : s.life ≠ .active) (cs : List Call) :
    RunOk call AtMostOneWaits s cs := by
  induction cs with
  | nil => trivial
  | cons cl cs ih =>
    refine ⟨atMostOneWaits_of_dead hlife cl, ?_⟩
    rw [call_of_dead hlife]
    exact ih

theorem atMostOneWaits_of_prefix : ∀ (cs : List Call) (s : State), Good s → Numbered s →
    RunOk call FindsReady s cs →
    (∀ cs', cs' <+: cs → ∀ i, handovers i s cs' <+: (waitersOf s i).reverse ++ blockings i s cs') →
    RunOk call AtMostOneWaits s cs := by
  intro cs
  induction cs with
  | nil =>
    intro s _ _ _ _
    trivial
  | cons cl cs ih =>
    intro s hg hnum hrun h
    have hone : AtMostOneWaits s cl := by
      by_cases hlife : s.life = .active
      · refine (hg.queued hlife).atMostOneWaits fun i => ?_
        have hstep : (handedTo i s cl).toList ++ [] <+:
            (waitersOf s i).reverse ++ ((blockedOn i s cl).toList ++ []) :=
          h [cl] (List.prefix_append [cl] cs) i
        rw [List.append_nil, List.append_nil] at hstep
        cases cl with
        | unlock o => simpa [blockedOn] using hstep
        | _ => exact List.nil_prefix
      · exact atMostOneWaits_of_dead hlife cl
    refine ⟨hone, ?_⟩
    by_cases hlife : (call s cl).2.life = .active
    · refine ih _ (hg.call hrun.1) ((call_queueStep s cl).numbered hlife hnum) hrun.2 ?_
      intro cs' hcs i
      rcases hone.queue hnum i with hclosed | heq
      · rw [handovers_of_closed hclosed]
        exact List.nil_prefix
      · have hstep : (handedTo i s cl).toList ++ handovers i (call s cl).2 cs' <+:
            (waitersOf s i).reverse ++
              ((blockedOn i s cl).toList ++ blockings i (call s cl).2 cs') :=
          h (cl :: cs') (List.cons_prefix_cons.mpr ⟨rfl, hcs⟩) i
        rw [← List.append_assoc, heq, List.append_assoc, List.prefix_append_right_inj] at hstep
        exact hstep
    · exact runOk_of_dead hlife cs

/-- A run that serves every mutex in order at all times never unlocks one with several waiters. -/
theorem atMostOneWaits_of_servedInOrder (cs : List Call)
    (hrun : RunOk call FindsReady State.start cs)
    (h : ∀ cs', cs' <+: cs → ∀ i, ServedInOrder i cs') : RunOk call AtMostOneWaits State.start cs :=
  atMostOneWaits_of_prefix cs State.start good_start numbered_start hrun h

/-- Two threads block on the mutex, one after the other, before the main thread unlocks it. -/
def overtaking : List Call :=
  [.create, .create, .mutexInit 0, .lock 0, .alarm, .lock 0, .lock 0, .unlock 0]

/-- The thread that blocked last is served first. -/
theorem overtaken : blockings 0 State.start overtaking = [1, 2] ∧
    handovers 0 State.start overtaking = [2] ∧
    ¬ ServedInOrder 0 overtaking := by
  have harr : blockings 0 State.start overtaking = [1, 2] := by decide +kernel
  have hhand : handovers 0 State.start overtaking = [2] := by decide +kernel
  refine ⟨harr, hhand, ?_⟩
  rw [ServedInOrder, harr, hhand]
  decide

end EC440.ThreadSync
