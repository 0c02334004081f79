import EC440.ThreadSync.Invariant

/-!
# The ids of the threads

`pthread_create` stores an id for its caller, and `pthread_self` returns one.  No call but `pthread_create`
touches the ids (`SameIds`), so in every run the thread with the number `x` has the id `x`, up to the width of
a `pthread_t` (`run_identified`).
-/

namespace EC440.ThreadSync

open EC440.Lib

variable {s s' s₁ : State} {c x : Nat} {p : Point} {cl : Call} {r : Option Int}

/-- `pthread_self`. -/
def pthreadSelf (s : State) : Option Nat := (s.deref s.curr).map s.threadId

/-- The block that `pthread_create` makes; the first call makes one for its caller before. -/
def madeThread (s : State) : Nat := if s.isFirstCall then s.nextTcb + 1 else s.nextTcb

/-- What `pthread_create` stores in `*thread`. -/
def createdId (s : State) : Option Nat := (pthreadCreate s).map fun r => r.2.threadId (madeThread s)

/-! ### Who touches the ids -/

structure SameIds (s s' : State) : Prop where
  threadId : s'.threadId = s.threadId
  counter : s'.threadIdCounter = s.threadIdCounter
  nextTcb : s'.nextTcb = s.nextTcb
  first : s'.isFirstCall = s.isFirstCall

theorem SameIds.refl (s : State) : SameIds s s := ⟨rfl, rfl, rfl, rfl⟩

theorem SameIds.after (h : SameIds s₁ s') (h₁ : SameIds s s₁) : SameIds s s' :=
  ⟨h.threadId.trans h₁.threadId, h.counter.trans h₁.counter, h.nextTcb.trans h₁.nextTcb, h.first.trans h₁.first⟩

theorem sameIds_continueAt (h : continueAt s p = some s') : SameIds s s' := by
  cases p with
  | init => cases h
  | _ => cases h; exact ⟨rfl, rfl, rfl, rfl⟩

theorem sameIds_dispatch (h : dispatch s x = some s') : SameIds s s' := by
  unfold dispatch at h
  exact (sameIds_continueAt h).after ⟨rfl, rfl, rfl, rfl⟩

theorem sameIds_pickNext (h : pickNext s p = some s') : SameIds s s' := by
  simp only [pickNext, Option.bind_eq_bind, Option.bind_eq_some_iff] at h
  obtain ⟨c, -, found, -, h⟩ := h
  cases found with
  | thread x => exact sameIds_dispatch h
  | nobody c' =>
    dsimp only at h
    exact (sameIds_continueAt h).after ⟨rfl, rfl, rfl, rfl⟩

theorem sameIds_pauseCurr (h : pauseCurr s p = some s') : SameIds s s' := by
  simp only [pauseCurr, Option.bind_eq_bind, Option.bind_eq_some_iff] at h
  obtain ⟨c, -, h⟩ := h
  refine (sameIds_pickNext h).after ?_
  split <;> exact ⟨rfl, rfl, rfl, rfl⟩

theorem sameIds_unlinkCurr (h : unlinkCurr s c = some s') : SameIds s s' := by
  simp only [unlinkCurr, Option.bind_eq_bind, Option.bind_eq_some_iff] at h
  obtain ⟨q, -, n, -, q', -, n', -, h⟩ := h
  cases h
  exact ⟨rfl, rfl, rfl, rfl⟩

theorem sameIds_schedule (h : schedule s p = some s') : SameIds s s' := by
  simp only [schedule, Option.bind_eq_bind, Option.bind_eq_some_iff] at h
  obtain ⟨c, -, h⟩ := h
  have hsaved : SameIds s (s.setEnv c ⟨s.exec, p⟩) := ⟨rfl, rfl, rfl, rfl⟩
  refine SameIds.after ?_ hsaved
  cases hst : (s.setEnv c ⟨s.exec, p⟩).status c with
  | exited =>
    simp only [hst, Option.bind_eq_some_iff] at h
    obtain ⟨s₁, hunlink, h⟩ := h
    exact (sameIds_pauseCurr h).after (sameIds_unlinkCurr hunlink)
  | running =>
    simp only [hst] at h
    exact sameIds_pauseCurr h
  | ready =>
    simp only [hst] at h
    exact sameIds_continueAt h
  | blocked =>
    simp only [hst] at h
    exact sameIds_pickNext h

theorem sameIds_wakeAll (ws : List Nat) (h : wakeAll s ws = some s') : SameIds s s' := by
  induction ws generalizing s with
  | nil =>
    cases h
    exact .refl _
  | cons x ws ih =>
    simp only [wakeAll, Option.bind_eq_bind, Option.bind_eq_some_iff] at h
    obtain ⟨y, -, h⟩ := h
    exact (ih h).after ⟨rfl, rfl, rfl, rfl⟩

theorem sameIds_lock {o : Nat} (h : pthreadMutexLock s o = some (r, s')) : SameIds s s' := by
  unfold pthreadMutexLock at h
  split at h
  · cases h
    exact .refl s
  · simp only [Option.bind_eq_bind, Option.bind_eq_some_iff] at h
    obtain ⟨m, -, h⟩ := h
    split at h
    · split at h
      · simp only [Option.bind_eq_some_iff] at h
        obtain ⟨c, -, s₁, hsched, h⟩ := h
        cases h
        exact (sameIds_schedule hsched).after ⟨rfl, rfl, rfl, rfl⟩
      · cases h
        exact ⟨rfl, rfl, rfl, rfl⟩
    · cases h
      exact ⟨rfl, rfl, rfl, rfl⟩

theorem sameIds_unlock {o : Nat} (h : pthreadMutexUnlock s o = some (r, s')) : SameIds s s' := by
  unfold pthreadMutexUnlock at h
  split at h
  · cases h
    exact .refl s
  · simp only [Option.bind_eq_bind, Option.bind_eq_some_iff] at h
    obtain ⟨m, -, h⟩ := h
    split at h
    · split at h
      · split at h
        · cases h
          exact ⟨rfl, rfl, rfl, rfl⟩
        · simp only [Option.bind_eq_some_iff] at h
          obtain ⟨x, -, h⟩ := h
          cases h
          exact ⟨rfl, rfl, rfl, rfl⟩
      · cases h
        exact .refl s
    · cases h
      exact .refl s

theorem sameIds_wait {o : Nat} (h : pthreadBarrierWait s o = some (r, s')) : SameIds s s' := by
  unfold pthreadBarrierWait at h
  split at h
  · cases h
    exact .refl s
  · simp only [Option.bind_eq_bind, Option.bind_eq_some_iff] at h
    obtain ⟨b, -, h⟩ := h
    split at h
    · split at h
      · simp only [Option.bind_eq_some_iff] at h
        obtain ⟨c, -, s₁, hsched, h⟩ := h
        cases h
        exact (sameIds_schedule hsched).after ⟨rfl, rfl, rfl, rfl⟩
      · split at h
        · simp only [Option.bind_eq_some_iff] at h
          obtain ⟨s₁, hwake, h⟩ := h
          cases h
          have hwoken : SameIds s s₁ := (sameIds_wakeAll _ hwake).after ⟨rfl, rfl, rfl, rfl⟩
          exact ⟨hwoken.threadId, hwoken.counter, hwoken.nextTcb, hwoken.first⟩
        · cases h
          exact ⟨rfl, rfl, rfl, rfl⟩
    · cases h
      exact .refl s

theorem sameIds_exit (h : pthreadExit s = some (r, s')) : SameIds s s' := by
  simp only [pthreadExit, Option.bind_eq_bind, Option.bind_eq_some_iff] at h
  obtain ⟨c, -, h⟩ := h
  split at h
  · simp only [Option.bind_eq_some_iff] at h
    obtain ⟨s₁, hsched, h⟩ := h
    cases h
    exact (sameIds_schedule hsched).after ⟨rfl, rfl, rfl, rfl⟩
  · cases h
    exact ⟨rfl, rfl, rfl, rfl⟩

/-- **No call but `pthread_create` touches the ids.** -/
theorem sameIds_body (h : body s cl = some (r, s')) (hcl : cl ≠ .create) : SameIds s s' := by
  cases cl with
  | create => exact absurd rfl hcl
  | exit => exact sameIds_exit h
  | alarm =>
    simp only [body, alarm] at h
    split at h
    · cases h
      exact .refl s
    · obtain ⟨s₁, hsched, h⟩ := Option.map_eq_some_iff.mp h
      cases h
      exact sameIds_schedule hsched
  | mutexInit o =>
    cases h
    exact ⟨rfl, rfl, rfl, rfl⟩
  | mutexDestroy o =>
    simp only [body, pthreadMutexDestroy] at h
    split at h
    · cases h
      exact .refl s
    · simp only [Option.bind_eq_bind, Option.bind_eq_some_iff] at h
      obtain ⟨m, -, h⟩ := h
      cases h
      exact ⟨rfl, rfl, rfl, rfl⟩
  | lock o => exact sameIds_lock h
  | unlock o => exact sameIds_unlock h
  | barrierInit o count =>
    simp only [body, pthreadBarrierInit] at h
    split at h
    · cases h
      exact .refl s
    · cases h
      exact ⟨rfl, rfl, rfl, rfl⟩
  | barrierDestroy o =>
    simp only [body, pthreadBarrierDestroy] at h
    split at h
    · cases h
      exact .refl s
    · simp only [Option.bind_eq_bind, Option.bind_eq_some_iff] at h
      obtain ⟨b, -, h⟩ := h
      cases h
      exact ⟨rfl, rfl, rfl, rfl⟩
  | wait o => exact sameIds_wait h

/-! ### What the ids are -/

/-- The ids are the numbers of the threads. -/
structure Identified (s : State) : Prop where
  threadId : ∀ x, x < s.nextTcb → s.threadId x = x % 2 ^ 64
  counter : 0 < s.nextTcb → s.threadIdCounter = s.nextTcb % 2 ^ 64
  first : s.isFirstCall = true ↔ s.nextTcb = 0

theorem SameIds.identified (h : SameIds s s') (hs : Identified s) : Identified s' := by
  refine ⟨?_, ?_, ?_⟩
  · rw [h.nextTcb, h.threadId]
    exact hs.threadId
  · rw [h.nextTcb, h.counter]
    exact hs.counter
  · rw [h.nextTcb, h.first]
    exact hs.first

theorem sameIds_linkNew {y : Nat} (h : linkNew s y = some s') : SameIds s s' := by
  simp only [linkNew, Option.bind_eq_bind, Option.bind_eq_some_iff] at h
  obtain ⟨c, -, h⟩ := h
  split at h
  · cases h
    exact ⟨rfl, rfl, rfl, rfl⟩
  · simp only [Option.bind_eq_some_iff] at h
    obtain ⟨q, -, h⟩ := h
    cases h
    exact ⟨rfl, rfl, rfl, rfl⟩

/-- The new thread gets the counter. -/
theorem createThread_ids (h : createThread s = some (r, s')) :
    s'.threadId = Function.update s.threadId s.nextTcb s.threadIdCounter ∧
      s'.threadIdCounter = (s.threadIdCounter + 1) % 2 ^ 64 ∧ s'.nextTcb = s.nextTcb + 1 ∧
        s'.isFirstCall = s.isFirstCall := by
  simp only [createThread, Option.bind_eq_bind, Option.bind_eq_some_iff] at h
  obtain ⟨s₁, hlink, h⟩ := h
  have hsame := sameIds_linkNew hlink
  cases h
  exact ⟨congrArg₂ (Function.update · s.nextTcb ·) hsame.threadId hsame.counter,
    congrArg (fun n => (n + 1) % 2 ^ 64) hsame.counter, hsame.nextTcb, hsame.first⟩

theorem identified_createThread (hs : Identified s) (hpos : 0 < s.nextTcb) (h : createThread s = some (r, s')) :
    Identified s' := by
  obtain ⟨hid, hcounter, hnew, hfirst⟩ := createThread_ids h
  have hold := hs.counter hpos
  refine ⟨?_, ?_, ?_⟩
  · intro x hx
    rw [hid, Function.update_apply]
    split
    · next heq => rw [heq, hold]
    · next hne => exact hs.threadId x (by omega)
  · intro _
    rw [hcounter, hnew, hold]
    omega
  · rw [hfirst, hnew, hs.first]
    omega

/-- The main thread has the id `0`. -/
theorem identified_schedulerInit (hnew : s.nextTcb = 0) : Identified (schedulerInit { s with isFirstCall := false }) := by
  have hone : (schedulerInit { s with isFirstCall := false }).nextTcb = 1 := by
    show s.nextTcb + 1 = 1
    rw [hnew]
  refine ⟨?_, ?_, ?_⟩
  · intro x hx
    obtain rfl : x = 0 := by omega
    show Function.update s.threadId s.nextTcb 0 0 = 0
    rw [hnew, Function.update_self]
  · intro _
    rw [hone]
    rfl
  · rw [hone]
    exact iff_of_false Bool.false_ne_true (by decide)

theorem Identified.create (hs : Identified s) (h : pthreadCreate s = some (r, s')) :
    Identified s' ∧ s'.nextTcb = madeThread s + 1 := by
  rw [pthreadCreate] at h
  rw [madeThread]
  by_cases hfirst : s.isFirstCall = true
  · rw [if_pos hfirst] at h ⊢
    have hinit := identified_schedulerInit (hs.first.mp hfirst)
    exact ⟨identified_createThread hinit (Nat.succ_pos _) h, (createThread_ids h).2.2.1⟩
  · rw [if_neg hfirst] at h ⊢
    have hpos : 0 < s.nextTcb := Nat.pos_of_ne_zero fun h0 => hfirst (hs.first.mpr h0)
    exact ⟨identified_createThread hs hpos h, (createThread_ids h).2.2.1⟩

theorem Identified.call (hs : Identified s) (cl : Call) :
    Identified (call s cl).2 ∧ s.nextTcb ≤ (ThreadSync.call s cl).2.nextTcb := by
  rw [ThreadSync.call]
  split
  · cases hbody : body s cl with
    | none => exact ⟨⟨hs.threadId, hs.counter, hs.first⟩, Nat.le_refl _⟩
    | some q =>
      obtain ⟨r, s'⟩ := q
      by_cases hcl : cl = .create
      · subst hcl
        obtain ⟨hs', hnew⟩ := hs.create hbody
        refine ⟨hs', ?_⟩
        dsimp only
        rw [hnew, madeThread]
        split <;> omega
      · have hsame := sameIds_body hbody hcl
        exact ⟨hsame.identified hs, Nat.le_of_eq hsame.nextTcb.symm⟩
  · exact ⟨hs, Nat.le_refl _⟩

/-- **The ids are the numbers of the threads**, in every run. -/
theorem run_identified (cs : List Call) : ∀ s, Identified s →
    Identified (run call s cs) ∧ s.nextTcb ≤ (run call s cs).nextTcb := by
  induction cs with
  | nil => exact fun s hs => ⟨hs, Nat.le_refl _⟩
  | cons cl cs ih =>
    intro s hs
    obtain ⟨hs', hle⟩ := hs.call cl
    obtain ⟨hs'', hle'⟩ := ih _ hs'
    exact ⟨hs'', hle.trans hle'⟩

theorem identified_start : Identified State.start := by
  refine ⟨?_, ?_, by decide⟩
  · intro x hx
    cases hx
  · intro h
    cases h

/-- What `pthread_create` stores is the number of the new thread. -/
theorem Identified.createdId (hs : Identified s) (h : pthreadCreate s = some (r, s')) :
    createdId s = some (madeThread s % 2 ^ 64) := by
  obtain ⟨hs', hnew⟩ := hs.create h
  rw [ThreadSync.createdId, h, Option.map_some, hs'.threadId _ (by omega)]

theorem Sched.pthreadSelf {l : List Nat} (hs : Sched s l c) : pthreadSelf s = some (s.threadId c) := by
  rw [ThreadSync.pthreadSelf, hs.deref_curr, Option.map_some]

/-- **`pthread_self` is the id of the running thread**: behind a `pthread_create`, whatever the threads call
and whenever the alarm goes off, it returns what that call stored just when the thread that was made there has
the processor.  Less than `2 ^ 64` threads have been made. -/
theorem pthreadSelf_eq_createdId_iff (cs cs' : List Call)
    (hrun : RunOk call FindsReady State.start (cs ++ .create :: cs'))
    (hlife : (run call State.start (cs ++ .create :: cs')).life = .active)
    (hfew : (run call State.start (cs ++ .create :: cs')).nextTcb ≤ 2 ^ 64) :
    pthreadSelf (run call State.start (cs ++ .create :: cs')) = createdId (run call State.start cs) ↔
      (run call State.start (cs ++ .create :: cs')).exec = madeThread (run call State.start cs) := by
  have hgood := run_good _ hrun
  obtain ⟨hids, -⟩ := run_identified (cs ++ .create :: cs') _ identified_start
  obtain ⟨hids₀, -⟩ := run_identified cs _ identified_start
  rw [run_append, run] at *
  generalize run call State.start cs = s₀ at *
  -- the process was running, so the call had a result
  have hlife₀ : s₀.life = .active := by
    by_contra hdead
    rw [call_of_dead hdead, run_of_dead hdead] at hlife
    exact hdead hlife
  cases hcreate : pthreadCreate s₀ with
  | none =>
    have hcall : call s₀ .create = (none, { s₀ with life := .undefined }) := by
      rw [call, if_pos hlife₀, body, hcreate]
    rw [hcall, run_of_dead (by simp)] at hlife
    cases hlife
  | some q =>
    obtain ⟨r, s₁⟩ := q
    have hcall : call s₀ .create = (r, s₁) := by rw [call, if_pos hlife₀, body, hcreate]
    obtain ⟨hids₁, hnew⟩ := hids₀.create hcreate
    rw [hcall] at hlife hfew hgood hids ⊢
    obtain ⟨-, hle⟩ := run_identified cs' s₁ hids₁
    rw [hids₀.createdId hcreate]
    generalize run call s₁ cs' = s at *
    obtain ⟨l, c, hst⟩ := hgood.stage hlife
    cases hst with
    | idle _ _ _ hzero => omega
    | sched hs =>
      have hc : c < s.nextTcb := hs.fresh c (by simp)
      rw [hs.pthreadSelf, hids.threadId c hc, hs.exec, Option.some.injEq,
        Nat.mod_eq_of_lt (by omega), Nat.mod_eq_of_lt (by omega)]

/-- The main thread makes a thread, which makes another one and is interrupted. -/
theorem pthreadSelf_eq_createdId_second :
    pthreadSelf (run call State.start ([.create, .alarm] ++ .create :: [.alarm, .alarm])) =
      createdId (run call State.start [.create, .alarm]) := by
  refine (pthreadSelf_eq_createdId_iff [.create, .alarm] [.alarm, .alarm] ?_ ?_ ?_).mpr ?_
  · decide +kernel
  · decide +kernel
  · decide +kernel
  · decide +kernel

end EC440.ThreadSync
