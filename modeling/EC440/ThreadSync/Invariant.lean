import EC440.ThreadSync.Effects

/-!
# What holds between calls

Every call keeps the ring (`Effect.stage`) and the queues (`Effect.queued`), so both hold
after every run whose searches find a ready thread (`run_good`).

With at most `MAX_THREADS + 1` threads a search goes all the way round, so it is enough that
a call that blocks leaves some thread ready (`Ok`, `RunOk.findsReady`).
-/

namespace EC440.ThreadSync

open EC440.Lib

variable {s s' : State} {l A B L ws : List Nat} {c x y i o k : Nat} {p : Point} {st : Status}
  {cl : Call} {es : List Event}

/-! ### The threads -/

theorem SameThreads.stage (h : SameThreads s s') (hst : Stage s l c) : Stage s' l c := by
  cases hst with
  | idle hfirst hcurr hexec hnew hlive =>
    exact .idle (h.first.trans hfirst) (h.curr.trans hcurr) (h.exec.trans hexec)
      (h.nextTcb.trans hnew) (by rw [h.live]; exact hlive)
  | sched hs => exact .sched (h.sched hs)

theorem sameThreads_setMutex (m : Option MutexInfo) (es : List Event) :
    SameThreads s ((s.setMutex i m).log es) :=
  ⟨rfl, rfl, rfl, rfl, rfl, rfl, rfl, rfl, rfl, rfl⟩

theorem sameThreads_setBarrier (b : Option BarrierInfo) (es : List Event) :
    SameThreads s ((s.setBarrier i b).log es) :=
  ⟨rfl, rfl, rfl, rfl, rfl, rfl, rfl, rfl, rfl, rfl⟩

theorem Stage.mem_of_blocked (hst : Stage s l c) (hx : s.live x = true) (hb : s.status x = .blocked) :
    x ∈ l := by
  have hxc : x ≠ c := hst.ne_of_blocked hx (by rw [hb]; decide)
  cases hst with
  | idle _ _ _ _ hlive => rw [hlive] at hx; cases hx
  | sched hs =>
    have hmem := (hs.live x).mp hx
    simpa [hxc] using hmem

theorem Sched.wake (hs : Sched s l c)
    (hws : ∀ x ∈ ws, s.live x = true ∧ s.status x = .blocked) : Sched (s.wake ws) l c := by
  have hmem : ∀ x ∈ ws, x ∈ l := fun x hx =>
    (Stage.sched hs).mem_of_blocked (hws x hx).1 (hws x hx).2
  refine ⟨⟨hs.first, hs.curr, hs.ring, hs.live, hs.fresh, hs.num⟩, hs.exec, ?_, ?_⟩
  · have hc : c ∉ ws := fun hc => hs.ne_of_mem (hmem c hc) rfl
    simp only [State.wake, if_neg hc]
    exact hs.running
  · intro x hx
    obtain ⟨hstatus, howner, hpoint⟩ := hs.rest x hx
    refine ⟨?_, howner, hpoint⟩
    simp only [State.wake]
    split
    · exact .inl rfl
    · exact hstatus

theorem Stage.wake (hst : Stage s l c)
    (hws : ∀ x ∈ ws, s.live x = true ∧ s.status x = .blocked) : Stage (s.wake ws) l c := by
  cases hst with
  | idle hfirst hcurr hexec hnew hlive => exact .idle hfirst hcurr hexec hnew hlive
  | sched hs => exact .sched (hs.wake hws)

/-- The first waiter of a mutex is blocked, and so are all waiters of a barrier. -/
theorem Queued.blocked (hq : Queued s) (hws : ∀ x ∈ ws, InQueue s x p) :
    ∀ x ∈ ws, s.live x = true ∧ s.status x = .blocked := by
  intro x hx
  obtain ⟨hlive, hb, -⟩ := hq.waits x p (hws x hx)
  exact ⟨hlive, hb⟩

theorem inQueue_head {m : MutexInfo} (hm : s.mutexInfos i = some m) (hnext : m.waiters = x :: ws) :
    ∀ y ∈ [x], InQueue s y (.inLock i) := by
  intro y hy
  obtain rfl : y = x := by simpa using hy
  exact .mutex hm (by rw [hnext]; exact List.mem_cons_self)

theorem Switch.stage (h : Switch s L s') : ∃ l' c', Stage s' l' c' := by
  obtain ⟨hL, hp, hx⟩ := h
  exact ⟨_, _, .sched (hp.resume (hL ▸ hx.split))⟩

/-- **Every call keeps the ring.** -/
theorem Effect.stage (h : Effect s l c cl s') (hst : Stage s l c) (hq : Queued s)
    (hlife : s'.life = .active) : ∃ l' c', Stage s' l' c' := by
  cases h with
  | same => exact ⟨l, c, hst⟩
  | undefined => cases hlife
  | createFirst _ _ _ _ h => exact ⟨_, _, .sched h⟩
  | create _ _ _ h => exact ⟨_, _, .sched h⟩
  | exit _ h => exact h.stage
  | ended hover => rw [hover] at hlife; cases hlife
  | alarm h => exact h.stage
  | mutexInit o => exact ⟨l, c, SameThreads.stage (s := s) (by constructor <;> rfl) hst⟩
  | mutexDestroy o i => exact ⟨l, c, SameThreads.stage (s := s) (by constructor <;> rfl) hst⟩
  | lockFree => exact ⟨l, c, (sameThreads_setMutex _ _).stage hst⟩
  | lockBusy _ _ _ h => exact h.stage
  | unlockLast => exact ⟨l, c, (sameThreads_setMutex _ _).stage hst⟩
  | @unlockNext o i x m ws _ hm _ hnext =>
    exact ⟨l, c, (sameThreads_setMutex _ _).stage (hst.wake (hq.blocked (inQueue_head hm hnext)))⟩
  | barrierInit o => exact ⟨l, c, SameThreads.stage (s := s) (by constructor <;> rfl) hst⟩
  | barrierDestroy o i => exact ⟨l, c, SameThreads.stage (s := s) (by constructor <;> rfl) hst⟩
  | waitBlocks _ _ _ h => exact h.stage
  | @waitLast o i b _ hb _ =>
    exact ⟨l, c, (sameThreads_setBarrier _ _).stage
      (hst.wake (hq.blocked fun x hx => .barrier hb hx))⟩
  | waitOver => exact ⟨l, c, (sameThreads_setBarrier _ _).stage hst⟩

/-! ### The queues -/

namespace Queued

/-- Only what happens to the threads in queues matters. -/
theorem frame (h : Queued s) (hm : s'.mutexInfos = s.mutexInfos)
    (hb : s'.barrierInfos = s.barrierInfos)
    (hx : ∀ x p, InQueue s x p → s'.live x = s.live x ∧ s'.status x = s.status x ∧ s'.env x = s.env x) :
    Queued s' := by
  refine ⟨by rw [hm]; exact h.mutex, by rw [hb]; exact h.barrier, ?_⟩
  intro x p hq
  have hq' : InQueue s x p := by
    cases hq with
    | mutex hi hx => exact .mutex (hm ▸ hi) hx
    | barrier hi hx => exact .barrier (hb ▸ hi) hx
  obtain ⟨hlive, hstatus, henv⟩ := hx x p hq'
  rw [hlive, hstatus, henv]
  exact h.waits x p hq'

/-- A mutex may be changed, or freed, when those that wait in it are blocked there. -/
theorem updateMutex (h : Queued s) {m? : Option MutexInfo}
    (hm : ∀ m ∈ m?, m.init = true ∧ m.waiters.Nodup ∧
      ∀ x ∈ m.waiters, s.live x = true ∧ s.status x = .blocked ∧ s.env x = ⟨x, .inLock i⟩) :
    Queued (s.setMutex i m?) := by
  refine ⟨?_, h.barrier, ?_⟩
  · intro j m' hj
    simp only [State.setMutex, Function.update_apply] at hj
    split at hj
    · exact ⟨(hm m' hj).1, (hm m' hj).2.1⟩
    · exact h.mutex j m' hj
  · intro x p hq
    cases hq with
    | @mutex j m' hj hx =>
      simp only [State.setMutex, Function.update_apply] at hj
      split at hj
      · next hji =>
        subst hji
        exact (hm m' hj).2.2 x hx
      · exact h.waits x _ (.mutex hj hx)
    | barrier hj hx => exact h.waits x _ (.barrier hj hx)

theorem setMutex (h : Queued s) {m : MutexInfo} (hinit : m.init = true) (hnodup : m.waiters.Nodup)
    (hm : ∀ x ∈ m.waiters, s.live x = true ∧ s.status x = .blocked ∧ s.env x = ⟨x, .inLock i⟩) :
    Queued (s.setMutex i (some m)) := by
  refine h.updateMutex fun m' hm' => ?_
  obtain rfl : m = m' := by simpa using hm'
  exact ⟨hinit, hnodup, hm⟩

theorem freeMutex (h : Queued s) (i : Nat) : Queued (s.setMutex i none) := h.updateMutex (by simp)

/-- Who holds a mutex does not matter to its queue. -/
theorem relock (h : Queued s) {m : MutexInfo} (hm : s.mutexInfos i = some m) (locked : Bool) :
    Queued (s.setMutex i (some { m with locked := locked })) :=
  h.setMutex (h.mutex i m hm).1 (h.mutex i m hm).2 fun x hx => h.waits x _ (.mutex hm hx)

/-- A barrier may be changed, or freed, when those that wait in it are blocked there. -/
theorem updateBarrier (h : Queued s) {b? : Option BarrierInfo}
    (hb : ∀ b ∈ b?, b.init = true ∧ b.waiters.Nodup ∧
      ∀ x ∈ b.waiters, s.live x = true ∧ s.status x = .blocked ∧ s.env x = ⟨x, .inWait i⟩) :
    Queued (s.setBarrier i b?) := by
  refine ⟨h.mutex, ?_, ?_⟩
  · intro j b' hj
    simp only [State.setBarrier, Function.update_apply] at hj
    split at hj
    · exact ⟨(hb b' hj).1, (hb b' hj).2.1⟩
    · exact h.barrier j b' hj
  · intro x p hq
    cases hq with
    | mutex hj hx => exact h.waits x _ (.mutex hj hx)
    | @barrier j b' hj hx =>
      simp only [State.setBarrier, Function.update_apply] at hj
      split at hj
      · next hji =>
        subst hji
        exact (hb b' hj).2.2 x hx
      · exact h.waits x _ (.barrier hj hx)

theorem setBarrier (h : Queued s) {b : BarrierInfo} (hinit : b.init = true)
    (hnodup : b.waiters.Nodup)
    (hb : ∀ x ∈ b.waiters, s.live x = true ∧ s.status x = .blocked ∧ s.env x = ⟨x, .inWait i⟩) :
    Queued (s.setBarrier i (some b)) := by
  refine h.updateBarrier fun b' hb' => ?_
  obtain rfl : b = b' := by simpa using hb'
  exact ⟨hinit, hnodup, hb⟩

theorem freeBarrier (h : Queued s) (i : Nat) : Queued (s.setBarrier i none) :=
  h.updateBarrier (by simp)

/-- A thread is at one point only, so it waits in one queue only. -/
theorem point_eq (h : Queued s) (h' : Queued s') (henv : s'.env = s.env) {p p' : Point}
    (hx : InQueue s x p) (hx' : InQueue s' x p') : p' = p := by
  have hp' := (h'.waits x p' hx').2.2
  rw [henv, (h.waits x p hx).2.2] at hp'
  simpa using hp'.symm

theorem congrObjects (h : Queued s) (hm : s'.mutexInfos = s.mutexInfos)
    (hb : s'.barrierInfos = s.barrierInfos) (hlive : s'.live = s.live) (hst : s'.status = s.status)
    (henv : s'.env = s.env) : Queued s' :=
  h.frame hm hb fun _ _ _ => by rw [hlive, hst, henv]; exact ⟨rfl, rfl, rfl⟩

theorem log (h : Queued s) (es : List Event) : Queued (s.log es) :=
  h.congrObjects rfl rfl rfl rfl rfl

/-- Threads that are in no queue may be woken. -/
theorem wake (h : Queued s) (hws : ∀ x ∈ ws, ∀ p, ¬ InQueue s x p) : Queued (s.wake ws) := by
  refine h.frame rfl rfl ?_
  intro x p hq
  have hx : x ∉ ws := fun hx => hws x hx p hq
  exact ⟨rfl, by simp only [State.wake, if_neg hx], rfl⟩

/-- A thread that is in no queue may be suspended. -/
theorem suspend (h : Queued s) (hc : ∀ p, ¬ InQueue s c p) (st : Status) (p : Point) :
    Queued (s.suspend c st p) := by
  refine h.frame rfl rfl ?_
  intro x p' hq
  have hx : x ≠ c := by
    rintro rfl
    exact hc p' hq
  exact ⟨rfl, by simp only [State.suspend, State.setStatus, Function.update_of_ne hx, State.setEnv],
    by simp only [State.suspend, State.setStatus, Function.update_of_ne hx, State.setEnv]⟩

theorem resume (h : Queued s) (hx : s.status x = .ready) : Queued (s.resume x) := by
  refine h.frame rfl rfl ?_
  intro y p hq
  have hyx : y ≠ x := by
    rintro rfl
    have := (h.waits y p hq).2.1
    rw [hx] at this
    cases this
  exact ⟨rfl, by simp only [State.resume, State.setStatus, Function.update_of_ne hyx], rfl⟩

theorem switch (h : Queued s) (hs : Switch s L s') : Queued s' := by
  obtain ⟨-, -, hx⟩ := hs
  exact h.resume hx.ready

end Queued

/-- The thread that has the processor is in no queue. -/
theorem Stage.not_inQueue (hst : Stage s l c) (hq : Queued s) (p : Point) : ¬ InQueue s c p := by
  intro hc
  obtain ⟨hlive, hb, -⟩ := hq.waits c p hc
  exact hst.ne_of_blocked hlive (by rw [hb]; decide) rfl

theorem Queued.spawned (h : Queued s) (hnew : ∀ p, ¬ InQueue s s.nextTcb p)
    (next prev : Nat → Option Nat) (head : Option Nat) : Queued (s.spawned next prev head) := by
  refine h.frame rfl rfl ?_
  intro x p hq
  have hx : x ≠ s.nextTcb := by
    rintro rfl
    exact hnew p hq
  refine ⟨?_, ?_, ?_⟩ <;>
    simp only [State.spawned, State.setStatus, State.setEnv, Function.update_of_ne hx]

theorem Switch.live_of_mem (h : Switch s L s') (hx : x ∈ L) : s.live x = true := by
  obtain ⟨rfl, hp, -⟩ := h
  exact (hp.live x).mpr hx

/-- The thread that is suspended may be put in a queue. -/
theorem suspend_waits (hlive : (s.suspend c .blocked p).live c = true) :
    (s.suspend c .blocked p).live c = true ∧ (s.suspend c .blocked p).status c = .blocked ∧
      (s.suspend c .blocked p).env c = ⟨c, p⟩ :=
  ⟨hlive, Function.update_self c _ _, Function.update_self c _ _⟩

/-- **Every call keeps the queues.** -/
theorem Effect.queued (h : Effect s l c cl s') (hst : Stage s l c) (hq : Queued s)
    (hlife : s'.life = .active) : Queued s' := by
  have hc := hst.not_inQueue hq
  cases h with
  | same => exact hq
  | undefined => cases hlife
  | createFirst hfirst next prev head _ =>
    have hnone : ∀ x p, ¬ InQueue s x p := by
      intro x p hx
      have hlive := (hq.waits x p hx).1
      cases hst with
      | idle _ _ _ _ hidle => rw [hidle] at hlive; cases hlive
      | sched hs => rw [hs.first] at hfirst; cases hfirst
    have hinit : Queued s.initialised := hq.frame rfl rfl fun x p hx => absurd hx (hnone x p)
    refine hinit.spawned ?_ next prev head
    intro p hx
    cases hx with
    | mutex hm hx => exact hnone _ _ (.mutex hm hx)
    | barrier hb hx => exact hnone _ _ (.barrier hb hx)
  | create next prev head hs' =>
    refine hq.spawned ?_ next prev head
    intro p hx
    have hlive := (hq.waits _ p hx).1
    cases hst with
    | idle _ _ _ _ hidle => rw [hidle] at hlive; cases hlive
    | sched hs => exact Nat.lt_irrefl _ (hs.fresh _ ((hs.live _).mp hlive))
  | @exit _ p n _ _ h =>
    refine Queued.switch (s := s.unlinked c p n) (hq.frame rfl rfl ?_) h
    intro x p' hx
    have hxc : x ≠ c := by
      rintro rfl
      exact hc p' hx
    refine ⟨?_, ?_, ?_⟩ <;>
      simp only [State.unlinked, State.setNext, State.setStatus, State.setEnv, Function.update_of_ne hxc]
  | ended hover => rw [hover] at hlife; cases hlife
  | alarm h => exact (hq.suspend hc _ _).switch h
  | mutexInit o =>
    have hnew : Queued (s.setMutex s.nextMutex (some { init := true, locked := false, waiters := [] })) :=
      hq.setMutex rfl List.nodup_nil (by simp)
    exact hnew.congrObjects rfl rfl rfl rfl rfl
  | mutexDestroy o i => exact hq.freeMutex i
  | lockFree _ hm _ => exact (hq.relock hm true).log _
  | @lockBusy o i m _ _ hm _ h =>
    have hsus := hq.suspend hc .blocked (.inLock i)
    obtain ⟨hinit, hnodup⟩ := hq.mutex i m hm
    refine Queued.switch ((hsus.setMutex ?_ ?_ ?_).log _) h
    · exact hinit
    · exact List.nodup_cons.mpr ⟨fun hx => hc _ (.mutex hm hx), hnodup⟩
    · intro x hx
      rcases List.mem_cons.mp hx with rfl | hx
      · exact suspend_waits (h.live_of_mem (by simp))
      · exact hsus.waits x _ (.mutex hm hx)
  | unlockLast _ hm _ _ => exact (hq.relock hm false).log _
  | @unlockNext o i x m ws _ hm _ hnext =>
    obtain ⟨hinit, hnodup⟩ := hq.mutex i m hm
    rw [hnext] at hnodup
    have hq' : Queued (s.setMutex i (some { m with waiters := ws })) :=
      hq.setMutex hinit (List.nodup_cons.mp hnodup).2 fun y hy =>
        hq.waits y _ (.mutex hm (by rw [hnext]; exact List.mem_cons_of_mem x hy))
    refine (Queued.wake hq' ?_).log _
    intro y hy p hp
    obtain rfl : y = x := by simpa using hy
    -- the thread that is woken was only in this queue, and only once
    have hyi : InQueue s y (.inLock i) := .mutex hm (by rw [hnext]; exact List.mem_cons_self)
    obtain rfl := hq.point_eq hq' rfl hyi hp
    cases hp with
    | mutex hm' hy' =>
      simp only [State.setMutex, Function.update_self, Option.some.injEq] at hm'
      subst hm'
      exact (List.nodup_cons.mp hnodup).1 hy'
  | @barrierInit o count _ =>
    have hnew : Queued (s.setBarrier s.nextBarrier
        (some ⟨true, 0, Int.bmod count.toNat (2 ^ 32), []⟩)) :=
      hq.setBarrier rfl List.nodup_nil (by simp)
    exact hnew.congrObjects rfl rfl rfl rfl rfl
  | barrierDestroy o i => exact hq.freeBarrier i
  | @waitBlocks o i b _ _ hb _ h =>
    have hsus := hq.suspend hc .blocked (.inWait i)
    obtain ⟨hinit, hnodup⟩ := hq.barrier i b hb
    refine Queued.switch ((hsus.setBarrier ?_ ?_ ?_).log _) h
    · exact hinit
    · exact List.nodup_cons.mpr ⟨fun hx => hc _ (.barrier hb hx), hnodup⟩
    · intro x hx
      rcases List.mem_cons.mp hx with rfl | hx
      · exact suspend_waits (h.live_of_mem (by simp))
      · exact hsus.waits x _ (.barrier hb hx)
  | @waitLast o i b _ hb _ =>
    have hq' : Queued (s.setBarrier i (some { b with numThreadsEntered := 0, waiters := [] })) :=
      hq.setBarrier (hq.barrier i b hb).1 List.nodup_nil (by simp)
    refine (Queued.wake hq' ?_).log _
    intro y hy p hp
    obtain rfl := hq.point_eq hq' rfl (.barrier hb hy) hp
    cases hp with
    | barrier hb' hy' =>
      simp only [State.setBarrier, Function.update_self, Option.some.injEq] at hb'
      subst hb'
      simp at hy'
  | @waitOver o i b _ hb _ =>
    refine (hq.setBarrier ?_ ?_ ?_).log _
    · exact (hq.barrier i b hb).1
    · exact (hq.barrier i b hb).2
    · exact fun x hx => hq.waits x _ (.barrier hb hx)

/-! ### Runs -/

/-- What holds between calls as long as the process runs. -/
structure Good (s : State) : Prop where
  stage : s.life = .active → ∃ l c, Stage s l c
  queued : s.life = .active → Queued s

theorem good_start : Good State.start := by
  refine ⟨fun _ => ⟨[], 0, .idle rfl rfl rfl rfl fun _ => rfl⟩, fun _ => ⟨?_, ?_, ?_⟩⟩
  · intro i m hm
    cases hm
  · intro i b hb
    cases hb
  · intro x p hx
    cases hx with
    | mutex hm => cases hm
    | barrier hb => cases hb

theorem call_of_dead (h : s.life ≠ .active) (cl : Call) : (call s cl).2 = s := by
  rw [call, if_neg h]

theorem run_of_dead (h : s.life ≠ .active) (cs : List Call) : run call s cs = s := by
  induction cs with
  | nil => rfl
  | cons cl cs ih => rw [run, call_of_dead h, ih]

theorem Good.call (h : Good s) (hf : FindsReady s cl) : Good (call s cl).2 := by
  by_cases hlife : s.life = .active
  · obtain ⟨l, c, hst⟩ := h.stage hlife
    have hq := h.queued hlife
    have heff := call_effect hst hq hf hlife
    exact ⟨heff.stage hst hq, heff.queued hst hq⟩
  · rw [call_of_dead hlife]
    exact h

/-- **The ring and the queues hold after every run** whose searches find a ready thread. -/
theorem run_good (cs : List Call) (h : RunOk call FindsReady State.start cs) :
    Good (run call State.start cs) :=
  run_invariant (fun _ _ hI hf => Good.call hI hf) cs _ good_start h

/-! ### The trace -/

theorem Switch.trace_grows (h : Switch s L s') : s.trace <+: s'.trace := by
  cases h
  exact List.prefix_append _ _

/-- What has happened stays. -/
theorem Effect.trace_grows (h : Effect s l c cl s') : s.trace <+: s'.trace := by
  cases h with
  | same => exact List.prefix_rfl
  | undefined => exact List.prefix_rfl
  | createFirst => exact List.prefix_rfl
  | create => exact List.prefix_rfl
  | exit _ h => exact List.IsPrefix.trans List.prefix_rfl h.trace_grows
  | ended _ htrace => exact ⟨[], by rw [List.append_nil, htrace]⟩
  | alarm h => exact List.IsPrefix.trans List.prefix_rfl h.trace_grows
  | mutexInit => exact List.prefix_rfl
  | mutexDestroy => exact List.prefix_rfl
  | lockBusy _ _ _ h => exact List.IsPrefix.trans (List.prefix_append _ _) h.trace_grows
  | waitBlocks _ _ _ h => exact List.IsPrefix.trans (List.prefix_append _ _) h.trace_grows
  | barrierDestroy => exact List.prefix_rfl
  | _ => exact List.prefix_append _ _

theorem Good.trace_grows (h : Good s) (hf : FindsReady s cl) : s.trace <+: (ThreadSync.call s cl).2.trace := by
  by_cases hlife : s.life = .active
  · obtain ⟨l, c, hst⟩ := h.stage hlife
    exact (call_effect hst (h.queued hlife) hf hlife).trace_grows
  · exact ⟨[], by rw [List.append_nil, call_of_dead hlife]⟩

theorem run_trace_grows : ∀ (cs : List Call) (s : State), Good s → RunOk call FindsReady s cs →
    s.trace <+: (run call s cs).trace := by
  intro cs
  induction cs with
  | nil => intro s _ _; exact List.prefix_rfl
  | cons cl cs ih => intro s hg h; exact (hg.trace_grows h.1).trans (ih _ (hg.call h.1) h.2)

/-! ### Runs of at most `MAX_THREADS + 1` threads -/

/-- A thread is created only while there are fewer than `MAX_THREADS + 1`, and a call blocks only
while a thread is ready. -/
def Ok (s : State) (cl : Call) : Prop :=
  s.life = .active → (cl = .create → s.numCurrThreads < maxThreads + 1) ∧
    (blocks s cl = true →
      (List.range s.nextTcb).any (fun x => s.live x && decide (s.status x = .ready)) = true)

instance : Decidable (Ok s cl) := inferInstanceAs (Decidable (_ → _ ∧ _))

/-- At most `MAX_THREADS + 1` threads. -/
def Few (s : State) : Prop := s.life = .active → s.numCurrThreads ≤ maxThreads + 1

theorem Sched.readyAhead_of_mem (h : Sched s l c) (hfew : s.numCurrThreads ≤ maxThreads + 1)
    (hx : x ∈ l) (hready : s.status x = .ready) : readyAhead s false = true := by
  obtain ⟨k, hk, hkx⟩ := List.getElem_of_mem hx
  have hnum := h.num
  refine (readyAhead_iff h.curr).mpr ⟨k, x, by omega, ?_, .inl hready⟩
  rw [h.ring.walk_eq (by omega), List.getElem?_cons_succ, List.getElem?_append_left hk,
    List.getElem?_eq_getElem hk, hkx]

/-- The search of the alarm comes back to the thread itself. -/
theorem Sched.readyAhead_again (h : Sched s l c) (hfew : s.numCurrThreads ≤ maxThreads + 1) :
    readyAhead s true = true := by
  have hnum := h.num
  exact (readyAhead_iff h.curr).mpr ⟨l.length, c, by omega, h.ring.walk_round, .inr ⟨rfl, rfl⟩⟩

theorem Ok.findsReady (h : Ok s cl) (hg : Good s) (hfew : Few s) : FindsReady s cl := by
  intro hlife
  obtain ⟨l, c, hst⟩ := hg.stage hlife
  refine ⟨?_, ?_⟩
  · intro hb
    have hany := (h hlife).2 hb
    simp only [List.any_eq_true, List.mem_range, Bool.and_eq_true, decide_eq_true_eq] at hany
    obtain ⟨x, -, hlive, hready⟩ := hany
    have hxc : x ≠ c := hst.ne_of_blocked hlive (by rw [hready]; decide)
    cases hst with
    | idle _ _ _ _ hidle => rw [hidle] at hlive; cases hlive
    | sched hs =>
      have hmem := (hs.live x).mp hlive
      exact hs.readyAhead_of_mem (hfew hlife) (by simpa [hxc] using hmem) hready
  · intro _ hfirst
    cases hst with
    | idle hfirst' => rw [hfirst] at hfirst'; cases hfirst'
    | sched hs => exact hs.readyAhead_again (hfew hlife)

theorem Switch.numCurrThreads (h : Switch s L s') : s'.numCurrThreads = s.numCurrThreads := by
  cases h
  rfl

theorem Effect.numCurrThreads_le (h : Effect s l c cl s') (hok : Ok s cl)
    (hlife : s.life = .active) (hle : s.numCurrThreads ≤ maxThreads + 1)
    (hlife' : s'.life = .active) : s'.numCurrThreads ≤ maxThreads + 1 := by
  cases h with
  | createFirst => exact (by decide : (1 : Int) + 1 ≤ 128 + 1)
  | create =>
    have hlt := (hok hlife).1 rfl
    simp only [State.spawned]
    omega
  | exit _ h =>
    rw [h.numCurrThreads]
    simp only [State.unlinked]
    omega
  | ended hover => rw [hover] at hlife'; cases hlife'
  | alarm h => rw [h.numCurrThreads]; exact hle
  | lockBusy _ _ _ h => rw [h.numCurrThreads]; exact hle
  | waitBlocks _ _ _ h => rw [h.numCurrThreads]; exact hle
  | _ => exact hle

theorem Ok.few (h : Ok s cl) (hg : Good s) (hfew : Few s) : Few (call s cl).2 := by
  by_cases hlife : s.life = .active
  · obtain ⟨l, c, hst⟩ := hg.stage hlife
    have heff := call_effect hst (hg.queued hlife) (h.findsReady hg hfew) hlife
    exact heff.numCurrThreads_le h hlife (hfew hlife)
  · rw [call_of_dead hlife]
    exact hfew

/-- With at most `MAX_THREADS + 1` threads every search succeeds. -/
theorem findsReady_of_ok (cs : List Call) (h : RunOk call Ok State.start cs) :
    RunOk call FindsReady State.start cs := by
  refine RunOk.imp (I := fun s => Good s ∧ Few s) ?_ ?_ cs _ ⟨good_start, fun _ => by decide⟩ h
  · intro s cl hI hok
    exact hok.findsReady hI.1 hI.2
  · intro s cl hI hok
    exact ⟨hI.1.call (hok.findsReady hI.1 hI.2), hok.few hI.1 hI.2⟩

end EC440.ThreadSync
