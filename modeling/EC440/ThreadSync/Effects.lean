import EC440.ThreadSync.Scheduler

/-!
# What a call can do

`Effect s l c cl s'` lists everything the call `cl` of the thread `c` can do when the
threads `l` are at rest.  A call that gives up the processor leaves a state in which all
threads are at rest, and ends with the first ready thread (`Switch`).

`call_effect` is the only place where the calls are unfolded: it needs that the waiters
are blocked where they wait (`Queued`) and that a call that gives up the processor
finds a ready thread (`FindsReady`).
-/

namespace EC440.ThreadSync

open EC440.Lib

variable {s s' : State} {l A B L : List Nat} {c x y i o k : Nat} {p : Point} {st : Status}
  {cl : Call}

/-! ### The conditions of a run -/

/-- The call waits for another thread. -/
def blocks (s : State) : Call → Bool
  | .lock o =>
    match (s.mutexObj o).bind s.mutexInfos with
    | some m => m.init && m.locked
    | none => false
  | .wait o =>
    match (s.barrierObj o).bind s.barrierInfos with
    | some b => b.init && decide (b.numThreadsEntered + 1 < b.count)
    | none => false
  | _ => false

/-- One of the next `MAX_THREADS + 1` threads behind `curr` is ready, or with `again` is `curr`
itself. -/
def readyAhead (s : State) (again : Bool) : Bool :=
  match s.curr with
  | none => false
  | some c =>
    (List.range (maxThreads + 1)).any fun j =>
      match walk s.next (j + 1) c with
      | none => false
      | some y => s.status y = .ready || (again && y = c)

/-- A call that blocks, and the alarm, find a thread that can go on. -/
def FindsReady (s : State) (cl : Call) : Prop :=
  s.life = .active → (blocks s cl = true → readyAhead s false = true) ∧
    (cl = .alarm → s.isFirstCall = false → readyAhead s true = true)

instance : Decidable (FindsReady s cl) := inferInstanceAs (Decidable (_ → _ ∧ _))

theorem readyAhead_iff {again : Bool} (hc : s.curr = some c) :
    readyAhead s again = true ↔ ∃ j y, j < maxThreads + 1 ∧ walk s.next (j + 1) c = some y ∧
      (s.status y = .ready ∨ again = true ∧ y = c) := by
  simp only [readyAhead, hc, List.any_eq_true, List.mem_range]
  constructor
  · rintro ⟨j, hj, hy⟩
    cases hw : walk s.next (j + 1) c with
    | none => simp [hw] at hy
    | some y => exact ⟨j, y, hj, hw, by simpa [hw] using hy⟩
  · rintro ⟨j, y, hj, hw, hy⟩
    exact ⟨j, hj, by simpa [hw] using hy⟩

/-! ### The states between calls -/

/-- The process before and after the first `pthread_create`. -/
inductive Stage (s : State) : List Nat → Nat → Prop
  | idle (first : s.isFirstCall = true) (curr : s.curr = none) (exec : s.exec = 0)
      (new : s.nextTcb = 0) (live : ∀ x, s.live x = false) : Stage s [] 0
  | sched {l : List Nat} {c : Nat} (h : Sched s l c) : Stage s l c

/-- The thread `x` is in the queue of an object, and `p` is where it waits for it. -/
inductive InQueue (s : State) (x : Nat) : Point → Prop
  | mutex {i : Nat} {m : MutexInfo} (hm : s.mutexInfos i = some m) (hx : x ∈ m.waiters) :
      InQueue s x (.inLock i)
  | barrier {i : Nat} {b : BarrierInfo} (hb : s.barrierInfos i = some b) (hx : x ∈ b.waiters) :
      InQueue s x (.inWait i)

/-- Whoever waits for an object is blocked there. -/
structure Queued (s : State) : Prop where
  mutex : ∀ i m, s.mutexInfos i = some m → m.init = true ∧ m.waiters.Nodup
  barrier : ∀ i b, s.barrierInfos i = some b → b.init = true ∧ b.waiters.Nodup
  waits : ∀ x p, InQueue s x p → s.live x = true ∧ s.status x = .blocked ∧ s.env x = ⟨x, p⟩

theorem Stage.exec_eq (h : Stage s l c) : s.exec = c := by
  cases h with
  | idle _ _ hexec => exact hexec
  | sched h => exact h.exec

theorem Stage.status_curr (h : Stage s l c) (hc : s.live c = true) : s.status c = .running := by
  cases h with
  | idle _ _ _ _ hlive => rw [hlive] at hc; cases hc
  | sched h => exact h.running

/-- The thread that has the processor waits nowhere. -/
theorem Stage.ne_of_blocked (h : Stage s l c) (hx : s.live x = true) (hst : s.status x ≠ .running) :
    x ≠ c := by
  rintro rfl
  exact hst (h.status_curr hx)

/-! ### The effects -/

/-- All threads of `L` are at rest, and the first ready one gets the processor. -/
inductive Switch (s : State) (L : List Nat) : State → Prop
  | mk {l : List Nat} {c x : Nat} {A B : List Nat} (hL : L = l ++ [c]) (hp : Paused s l c)
      (hx : FirstReady s L x A B) : Switch s L (s.resume x)

/-- The threads of `ws` are woken. -/
def State.wake (s : State) (ws : List Nat) : State :=
  { s with status := fun x => if x ∈ ws then .ready else s.status x }

theorem setStatus_ready (x : Nat) : s.setStatus x .ready = s.wake [x] := by
  simp only [State.setStatus, State.wake, List.mem_singleton]
  congr 1
  funext y
  rw [Function.update_apply]

/-- The main thread gets a control block. -/
def State.initialised (s : State) : State := schedulerInit { s with isFirstCall := false }

def State.newMutex (s : State) (o : Nat) : State :=
  { s.setMutex s.nextMutex (some { init := true, locked := false, waiters := [] }) with
    mutexObj := Function.update s.mutexObj o (some s.nextMutex)
    nextMutex := s.nextMutex + 1 }

def State.newBarrier (s : State) (o count : Nat) : State :=
  let b : BarrierInfo := ⟨true, 0, Int.bmod count (2 ^ 32), []⟩
  State.log
    { s.setBarrier s.nextBarrier (some b) with
      barrierObj := Function.update s.barrierObj o (some s.nextBarrier)
      nextBarrier := s.nextBarrier + 1 }
    [.barrierMade s.nextBarrier count]

/-- The thread `c` waits for the mutex `i`. -/
def State.waitLock (s : State) (c i : Nat) (m : MutexInfo) : State :=
  ((s.suspend c .blocked (.inLock i)).setMutex i
    (some { m with waiters := c :: m.waiters })).log [.lockCalled c i true]

/-- The thread `c` waits at the barrier `i`. -/
def State.waitBarrier (s : State) (c i : Nat) (b : BarrierInfo) : State :=
  ((s.suspend c .blocked (.inWait i)).setBarrier i
    (some { b with numThreadsEntered := b.numThreadsEntered + 1, waiters := c :: b.waiters })).log
      [.arrived c i]

theorem sameThreads_waitLock (m : MutexInfo) :
    SameThreads (s.suspend c .blocked (.inLock i)) (s.waitLock c i m) :=
  ⟨rfl, rfl, rfl, rfl, rfl, rfl, rfl, rfl, rfl, rfl⟩

theorem sameThreads_waitBarrier (b : BarrierInfo) :
    SameThreads (s.suspend c .blocked (.inWait i)) (s.waitBarrier c i b) :=
  ⟨rfl, rfl, rfl, rfl, rfl, rfl, rfl, rfl, rfl, rfl⟩

inductive Effect (s : State) (l : List Nat) (c : Nat) : Call → State → Prop
  | same (cl : Call) : Effect s l c cl s
  | undefined (cl : Call) : Effect s l c cl { s with life := .undefined }
  | createFirst (hfirst : s.isFirstCall = true) (next prev : Nat → Option Nat) (head : Option Nat)
      (h : Sched (s.initialised.spawned next prev head) [s.initialised.nextTcb] c) :
      Effect s l c .create (s.initialised.spawned next prev head)
  | create (next prev : Nat → Option Nat) (head : Option Nat)
      (h : Sched (s.spawned next prev head) (l ++ [s.nextTcb]) c) :
      Effect s l c .create (s.spawned next prev head)
  | exit {l' : List Nat} {p n : Nat} {s' : State} (hl : l = l' ++ [p])
      (h : Switch (s.unlinked c p n) l s') : Effect s l c .exit s'
  | ended {s' : State} (hlife : s'.life = .exited) (htrace : s'.trace = s.trace)
      (hmutex : s'.mutexInfos = s.mutexInfos ∧ s'.nextMutex = s.nextMutex)
      (hbarrier : s'.barrierInfos = s.barrierInfos ∧ s'.nextBarrier = s.nextBarrier) :
      Effect s l c .exit s'
  | alarm {s' : State} (h : Switch (s.suspend c .ready .user) (l ++ [c]) s') : Effect s l c .alarm s'
  | mutexInit (o : Nat) : Effect s l c (.mutexInit o) (s.newMutex o)
  | mutexDestroy (o i : Nat) : Effect s l c (.mutexDestroy o) (s.setMutex i none)
  | lockFree {o i : Nat} {m : MutexInfo} (ho : s.mutexObj o = some i) (hm : s.mutexInfos i = some m)
      (hfree : m.locked = false) :
      Effect s l c (.lock o) ((s.setMutex i (some { m with locked := true })).log
        [.lockCalled c i false, .acquired c i, .lockReturned c i])
  | lockBusy {o i : Nat} {m : MutexInfo} {s' : State} (ho : s.mutexObj o = some i)
      (hm : s.mutexInfos i = some m) (hlocked : m.locked = true)
      (h : Switch (s.waitLock c i m) (l ++ [c]) s') : Effect s l c (.lock o) s'
  | unlockLast {o i : Nat} {m : MutexInfo} (ho : s.mutexObj o = some i) (hm : s.mutexInfos i = some m)
      (hlocked : m.locked = true) (hnone : m.waiters = []) :
      Effect s l c (.unlock o)
        ((s.setMutex i (some { m with locked := false })).log [.unlocked c i])
  | unlockNext {o i x : Nat} {m : MutexInfo} {ws : List Nat} (ho : s.mutexObj o = some i)
      (hm : s.mutexInfos i = some m) (hlocked : m.locked = true) (hnext : m.waiters = x :: ws) :
      Effect s l c (.unlock o) (((s.wake [x]).setMutex i
        (some { m with waiters := ws })).log [.unlocked c i, .handed x i])
  | barrierInit (o : Nat) {count : UInt32} (hcount : count ≠ 0) :
      Effect s l c (.barrierInit o count) (s.newBarrier o count.toNat)
  | barrierDestroy (o i : Nat) : Effect s l c (.barrierDestroy o) (s.setBarrier i none)
  | waitBlocks {o i : Nat} {b : BarrierInfo} {s' : State} (ho : s.barrierObj o = some i)
      (hb : s.barrierInfos i = some b) (hlt : b.numThreadsEntered + 1 < b.count)
      (h : Switch (s.waitBarrier c i b) (l ++ [c]) s') : Effect s l c (.wait o) s'
  | waitLast {o i : Nat} {b : BarrierInfo} (ho : s.barrierObj o = some i)
      (hb : s.barrierInfos i = some b) (hlast : b.numThreadsEntered + 1 = b.count) :
      Effect s l c (.wait o) (((s.wake b.waiters).setBarrier i
        (some { b with numThreadsEntered := 0, waiters := [] })).log
          [.arrived c i, .waitReturned c i barrierSerialThread])
  | waitOver {o i : Nat} {b : BarrierInfo} (ho : s.barrierObj o = some i)
      (hb : s.barrierInfos i = some b) (hover : b.count < b.numThreadsEntered + 1) :
      Effect s l c (.wait o) ((s.setBarrier i
        (some { b with numThreadsEntered := b.numThreadsEntered + 1 })).log
          [.arrived c i, .waitReturned c i 0])

/-! ### The calls have these effects -/

theorem wakeAll_eq : ∀ (ws : List Nat) (s : State), (∀ x ∈ ws, s.live x = true) →
    wakeAll s ws = some (s.wake ws) := by
  intro ws
  induction ws with
  | nil => intro s _; simp [wakeAll, State.wake]
  | cons x ws ih =>
    intro s hlive
    rw [wakeAll, deref_of_live (hlive x List.mem_cons_self), Option.bind_eq_bind, Option.bind_some,
      ih (s.setStatus x .ready) fun y hy => hlive y (List.mem_cons_of_mem x hy)]
    simp only [State.wake, State.setStatus, Function.update_apply, List.mem_cons]
    congr 2
    funext y
    by_cases hyx : y = x <;> by_cases hyw : y ∈ ws <;> simp [hyx, hyw]

/-- A thread that blocks gives the processor to the first ready thread. -/
theorem Sched.block (h : Sched s l c) (hf : readyAhead s false = true) (hp : Paused s' l c)
    (hstatus : s'.status = Function.update s.status c .blocked) (hnext : s'.next = s.next)
    (p : Point) : ∃ s₂, Switch s' (l ++ [c]) s₂ ∧ pickNext s' p = some s₂ := by
  obtain ⟨j, y, hj, hw, hy⟩ := (readyAhead_iff h.curr).mp hf
  have hready : s.status y = .ready := by simpa using hy
  have hyc : y ≠ c := by
    rintro rfl
    rw [h.running] at hready
    cases hready
  have hready' : s'.status y = .ready := by
    rw [hstatus, Function.update_of_ne hyc]
    exact hready
  obtain ⟨x, A, B, hx, hpick⟩ := hp.pickNext_eq p hj (by rw [hnext]; exact hw) hready'
  exact ⟨s'.resume x, ⟨rfl, hp, hx⟩, hpick⟩

theorem Stage.sched_of_readyAhead {again : Bool} (h : Stage s l c)
    (hf : readyAhead s again = true) : Sched s l c := by
  cases h with
  | idle _ hcurr => simp [readyAhead, hcurr] at hf
  | sched h => exact h

theorem lock_effect (hst : Stage s l c) (hq : Queued s) (hlife : s.life = .active)
    (hf : FindsReady s (.lock o)) {r : Option Int} (h : pthreadMutexLock s o = some (r, s')) : Effect s l c (.lock o) s' := by
  rw [pthreadMutexLock] at h
  cases ho : s.mutexObj o with
  | none =>
    simp only [ho, Option.some.injEq, Prod.mk.injEq] at h
    rw [← h.2]
    exact .same _
  | some i =>
    cases hm : s.mutexInfos i with
    | none => simp [ho, hm] at h
    | some m =>
      obtain ⟨init, locked, ws⟩ := m
      obtain rfl : init = true := (hq.mutex i _ hm).1
      simp only [ho, hm, Option.bind_eq_bind, Option.bind_some, if_true, hst.exec_eq] at h
      cases locked with
      | false =>
        simp only [Bool.false_eq_true, if_false, Option.some.injEq, Prod.mk.injEq] at h
        have heff : Effect s l c (.lock o) _ := .lockFree ho hm rfl
        rw [← h.2]
        simpa [State.log, State.setMutex, hst.exec_eq] using heff
      | true =>
        have hready : readyAhead s false = true := (hf hlife).1 (by simp [blocks, ho, hm])
        have hs := hst.sched_of_readyAhead hready
        have hpaused : Paused (s.waitLock c i ⟨true, true, ws⟩) l c :=
          (sameThreads_waitLock _).paused (hs.suspend (.inr rfl) ⟨by simp, by simp⟩)
        obtain ⟨s₂, hsw, hpick⟩ := hs.block hready hpaused rfl rfl (.inLock i)
        have hderef : (s.log [.lockCalled c i true]).deref (s.log [.lockCalled c i true]).curr = some c :=
          hs.deref_curr
        have hsched : schedule (((s.log [.lockCalled c i true]).setStatus c .blocked).setMutex i
            (some ⟨true, true, c :: ws⟩)) (.inLock i) = some s₂ := by
          refine (schedule_of_blocked (c := c) ?_ ?_ ?_ _).trans hpick
          · exact hs.deref_curr
          · exact hs.exec
          · exact Function.update_self c _ _
        simp only [if_true, hderef, Option.bind_some, hsched, Option.some.injEq, Prod.mk.injEq] at h
        rw [← h.2]
        exact .lockBusy ho hm rfl hsw

theorem unlock_effect (hst : Stage s l c) (hq : Queued s) {r : Option Int}
    (h : pthreadMutexUnlock s o = some (r, s')) : Effect s l c (.unlock o) s' := by
  rw [pthreadMutexUnlock] at h
  cases ho : s.mutexObj o with
  | none =>
    simp only [ho, Option.some.injEq, Prod.mk.injEq] at h
    rw [← h.2]
    exact .same _
  | some i =>
    cases hm : s.mutexInfos i with
    | none => simp [ho, hm] at h
    | some m =>
      obtain ⟨init, locked, ws⟩ := m
      obtain rfl : init = true := (hq.mutex i _ hm).1
      simp only [ho, hm, Option.bind_eq_bind, Option.bind_some, if_true] at h
      cases locked with
      | false =>
        simp only [Bool.false_eq_true, if_false, Option.some.injEq, Prod.mk.injEq] at h
        rw [← h.2]
        exact .same _
      | true =>
        cases ws with
        | nil =>
          simp only [if_true, Option.some.injEq, Prod.mk.injEq] at h
          have heff : Effect s l c (.unlock o) _ := .unlockLast ho hm rfl rfl
          rw [← h.2]
          simpa [State.log, State.setMutex, hst.exec_eq] using heff
        | cons x ws =>
          obtain ⟨hlive, -⟩ := hq.waits x _ (.mutex hm List.mem_cons_self)
          simp only [if_true, deref_of_live hlive, Option.bind_some, setStatus_ready,
            Option.some.injEq, Prod.mk.injEq] at h
          have heff : Effect s l c (.unlock o) _ := .unlockNext ho hm rfl rfl
          rw [← h.2]
          simpa [State.log, State.setMutex, State.wake, hst.exec_eq] using heff

theorem wait_effect (hst : Stage s l c) (hq : Queued s) (hlife : s.life = .active)
    (hf : FindsReady s (.wait o)) {r : Option Int} (h : pthreadBarrierWait s o = some (r, s')) : Effect s l c (.wait o) s' := by
  rw [pthreadBarrierWait] at h
  cases ho : s.barrierObj o with
  | none =>
    simp only [ho, Option.some.injEq, Prod.mk.injEq] at h
    rw [← h.2]
    exact .same _
  | some i =>
    cases hb : s.barrierInfos i with
    | none => simp [ho, hb] at h
    | some b =>
      obtain ⟨init, entered, count, ws⟩ := b
      obtain rfl : init = true := (hq.barrier i _ hb).1
      simp only [ho, hb, Option.bind_eq_bind, Option.bind_some, if_true, hst.exec_eq] at h
      rcases lt_trichotomy (entered + 1) count with hlt | heq | hgt
      · have hready : readyAhead s false = true := (hf hlife).1 (by simp [blocks, ho, hb, hlt])
        have hs := hst.sched_of_readyAhead hready
        have hpaused : Paused (s.waitBarrier c i ⟨true, entered, count, ws⟩) l c :=
          (sameThreads_waitBarrier _).paused (hs.suspend (.inr rfl) ⟨by simp, by simp⟩)
        obtain ⟨s₂, hsw, hpick⟩ := hs.block hready hpaused rfl rfl (.inWait i)
        have hderef : (s.log [.arrived c i]).deref (s.log [.arrived c i]).curr = some c :=
          hs.deref_curr
        have hsched : schedule (((s.log [.arrived c i]).setStatus c .blocked).setBarrier i
            (some ⟨true, entered + 1, count, c :: ws⟩)) (.inWait i) = some s₂ := by
          refine (schedule_of_blocked (c := c) ?_ ?_ ?_ _).trans hpick
          · exact hs.deref_curr
          · exact hs.exec
          · exact Function.update_self c _ _
        simp only [if_pos hlt, hderef, Option.bind_some, hsched, Option.some.injEq, Prod.mk.injEq] at h
        rw [← h.2]
        exact .waitBlocks ho hb hlt hsw
      · have hwake : wakeAll (s.log [.arrived c i]) ws = some ((s.log [.arrived c i]).wake ws) :=
          wakeAll_eq ws _ fun x hx => (hq.waits x _ (.barrier hb hx)).1
        have hnlt : ¬ entered + 1 < count := by omega
        simp only [if_neg hnlt, if_pos heq, hwake, Option.bind_some, Option.some.injEq,
          Prod.mk.injEq] at h
        have heff : Effect s l c (.wait o) _ := .waitLast ho hb heq
        rw [← h.2]
        simpa [State.log, State.setBarrier, State.wake, hst.exec_eq] using heff
      · have hnlt : ¬ entered + 1 < count := by omega
        have hne : ¬ entered + 1 = count := by omega
        simp only [if_neg hnlt, if_neg hne, Option.some.injEq, Prod.mk.injEq] at h
        have heff : Effect s l c (.wait o) _ := .waitOver ho hb hgt
        rw [← h.2]
        simpa [State.log, State.setBarrier, hst.exec_eq] using heff

theorem exit_effect (hst : Stage s l c) {r : Option Int} (h : pthreadExit s = some (r, s')) :
    Effect s l c .exit s' := by
  cases hst with
  | idle _ hcurr => simp [pthreadExit, hcurr, State.deref] at h
  | sched hs =>
    simp only [pthreadExit, hs.deref_curr, Option.bind_eq_bind, Option.bind_some] at h
    rcases List.eq_nil_or_concat l with rfl | ⟨l', p, rfl⟩
    · -- the last thread
      have hnum : ¬ 0 < (s.setStatus c .exited).numCurrThreads - 1 := by
        have := hs.num
        simp only [List.length_nil] at this
        simp only [State.setStatus]
        omega
      rw [if_neg hnum, Option.some.injEq, Prod.mk.injEq] at h
      rw [← h.2]
      exact .ended rfl rfl ⟨rfl, rfl⟩ ⟨rfl, rfl⟩
    · rw [List.concat_eq_append] at *
      have hnum : 0 < s.numCurrThreads - 1 := by
        have := hs.num
        simp only [List.length_append, List.length_cons, List.length_nil] at this
        omega
      have hnum' : 0 < (s.setStatus c .exited).numCurrThreads - 1 := hnum
      obtain ⟨n, hp, hsched⟩ := hs.unlinked
      simp only [if_pos hnum'] at h
      change (schedule { s.setStatus c .exited with numCurrThreads := s.numCurrThreads - 1 }
        .inExit).bind _ = _ at h
      rw [hsched] at h
      rcases hp.pickNext_inExit with ⟨x, A, B, hx, hpick⟩ | ⟨c', hpick⟩
      · rw [hpick, Option.bind_some, Option.some.injEq, Prod.mk.injEq] at h
        rw [← h.2]
        exact .exit rfl ⟨rfl, hp, hx⟩
      · rw [hpick, Option.bind_some, Option.some.injEq, Prod.mk.injEq] at h
        rw [← h.2]
        exact .ended rfl rfl ⟨rfl, rfl⟩ ⟨rfl, rfl⟩

theorem alarm_effect (hst : Stage s l c) (hlife : s.life = .active) (hf : FindsReady s .alarm)
    {r : Option Int} (h : alarm s = some (r, s')) : Effect s l c .alarm s' := by
  cases hst with
  | idle hfirst =>
    simp only [alarm, hfirst, if_true, Option.some.injEq, Prod.mk.injEq] at h
    rw [← h.2]
    exact .same _
  | sched hs =>
    obtain ⟨j, y, hj, hw, hy⟩ := (readyAhead_iff hs.curr).mp ((hf hlife).2 rfl hs.first)
    have hready : (s.suspend c .ready .user).status y = .ready := by
      simp only [State.suspend, State.setStatus, State.setEnv, Function.update_apply]
      split
      · rfl
      · rcases hy with hy | ⟨-, hy⟩
        · exact hy
        · contradiction
    have hp : Paused (s.suspend c .ready .user) l c := hs.suspend (.inl rfl) ⟨by simp, by simp⟩
    obtain ⟨x, A, B, hx, hpick⟩ := hp.pickNext_eq .user hj hw hready
    simp only [alarm, hs.first, Bool.false_eq_true, if_false,
      schedule_of_running hs.deref_curr hs.exec hs.running, hpick, Option.map_some,
      Option.some.injEq, Prod.mk.injEq] at h
    rw [← h.2]
    exact .alarm ⟨rfl, hp, hx⟩

/-- The main thread alone, with a control block but no links. -/
theorem linkable_initialised (hcurr : s.exec = 0) (hnew : s.nextTcb = 0)
    (hlive : ∀ x, s.live x = false) : Linkable s.initialised [] 0 := by
  refine ⟨rfl, ?_, by simp, List.isChain_singleton 0, ?_, ?_, ?_, ?_, ?_, ?_, ?_⟩
  · simp [State.initialised, schedulerInit, hnew]
  · intro l' p h
    simp at h
  · intro x
    simp [State.initialised, schedulerInit, State.setEnv, State.setNext, State.setPrev,
      State.setStatus, hnew, Function.update_apply, hlive]
  · intro x hx
    simp only [List.nil_append, List.mem_singleton] at hx
    simp [State.initialised, schedulerInit, State.setEnv, State.setNext, State.setPrev,
      State.setStatus, hx]
  · simp [State.initialised, schedulerInit]
  · exact hcurr
  · simp [State.initialised, schedulerInit, State.setEnv, State.setNext, State.setPrev,
      State.setStatus, hnew]
  · intro x hx
    simp at hx

theorem create_effect (hst : Stage s l c) {r : Option Int} (h : pthreadCreate s = some (r, s')) :
    Effect s l c .create s' := by
  cases hst with
  | idle hfirst hcurr hexec hnew hlive =>
    obtain ⟨next, prev, head, heq, hs⟩ := (linkable_initialised hexec hnew hlive).create
    have hcreate : createThread s.initialised = some (r, s') := by
      simpa [pthreadCreate, hfirst, State.initialised] using h
    rw [heq, Option.some.injEq, Prod.mk.injEq] at hcreate
    rw [← hcreate.2]
    exact .createFirst hfirst next prev head hs
  | sched hs =>
    obtain ⟨next, prev, head, heq, hs'⟩ := hs.linkable.create
    simp only [pthreadCreate, hs.first, Bool.false_eq_true, if_false, heq, Option.some.injEq,
      Prod.mk.injEq] at h
    rw [← h.2]
    exact .create next prev head hs'

/-- **Every call has one of the effects.** -/
theorem call_effect (hst : Stage s l c) (hq : Queued s) (hf : FindsReady s cl)
    (hlife : s.life = .active) : Effect s l c cl (call s cl).2 := by
  rw [call, if_pos hlife]
  cases hbody : body s cl with
  | none => exact .undefined cl
  | some r =>
    obtain ⟨r, s'⟩ := r
    cases cl with
    | create => exact create_effect hst hbody
    | exit => exact exit_effect hst hbody
    | alarm => exact alarm_effect hst hlife hf hbody
    | mutexInit o =>
      simp only [body, pthreadMutexInit, Option.some.injEq, Prod.mk.injEq] at hbody
      rw [← hbody.2]
      exact .mutexInit o
    | mutexDestroy o =>
      simp only [body, pthreadMutexDestroy] at hbody
      cases ho : s.mutexObj o with
      | none =>
        simp only [ho, Option.some.injEq, Prod.mk.injEq] at hbody
        rw [← hbody.2]
        exact .same _
      | some i =>
        cases hm : s.mutexInfos i with
        | none => simp [ho, hm] at hbody
        | some m =>
          simp only [ho, hm, Option.bind_eq_bind, Option.bind_some, Option.some.injEq,
            Prod.mk.injEq] at hbody
          rw [← hbody.2]
          exact .mutexDestroy o i
    | lock o => exact lock_effect hst hq hlife hf hbody
    | unlock o => exact unlock_effect hst hq hbody
    | barrierInit o count =>
      simp only [body, pthreadBarrierInit] at hbody
      split at hbody
      · simp only [Option.some.injEq, Prod.mk.injEq] at hbody
        rw [← hbody.2]
        exact .same _
      · next hcount =>
        simp only [Option.some.injEq, Prod.mk.injEq] at hbody
        rw [← hbody.2]
        exact .barrierInit o hcount
    | barrierDestroy o =>
      simp only [body, pthreadBarrierDestroy] at hbody
      cases ho : s.barrierObj o with
      | none =>
        simp only [ho, Option.some.injEq, Prod.mk.injEq] at hbody
        rw [← hbody.2]
        exact .same _
      | some i =>
        cases hb : s.barrierInfos i with
        | none => simp [ho, hb] at hbody
        | some b =>
          simp only [ho, hb, Option.bind_eq_bind, Option.bind_some, Option.some.injEq,
            Prod.mk.injEq] at hbody
          rw [← hbody.2]
          exact .barrierDestroy o i
    | wait o => exact wait_effect hst hq hlife hf hbody

end EC440.ThreadSync
