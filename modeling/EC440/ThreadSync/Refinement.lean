import EC440.ThreadSync.Kernel

/-!
# The library refines the kernel

The search of `schedule` goes along the ring, over the control blocks and their `t_status`, and finds the
thread whose turn it is in the kernel (`Suspended.pickNext`); what was saved in its `env` is where the kernel
lets it go on.  With this each call is answered as the kernel answers it (`Realises.answers`), and so is every
run within the limits (`library_refines_kernel`).
-/

namespace EC440.ThreadSync

open EC440.Lib

variable {s s' : State} {k k' : Kernel} {ts rest : List Thread} {t : Thread} {l ws : List Nat} {c i o : Nat}
  {p : Point} {cl : Call}

/-! ### What is the same on both sides -/

theorem Objects.frame (h : Objects s k)
    (hs : s'.mutexObj = s.mutexObj ∧ s'.mutexInfos = s.mutexInfos ∧ s'.nextMutex = s.nextMutex ∧
      s'.barrierObj = s.barrierObj ∧ s'.barrierInfos = s.barrierInfos ∧ s'.nextBarrier = s.nextBarrier)
    (hk : k'.mutexAt = k.mutexAt ∧ k'.mutexes = k.mutexes ∧ k'.mutexCount = k.mutexCount ∧
      k'.barrierAt = k.barrierAt ∧ k'.barriers = k.barriers ∧ k'.barrierCount = k.barrierCount) :
    Objects s' k' := by
  obtain ⟨h1, h2, h3, h4, h5, h6⟩ := hs
  obtain ⟨g1, g2, g3, g4, g5, g6⟩ := hk
  refine ⟨?_, ?_, ?_, ?_, ?_, ?_, ?_⟩
  · rw [h1, g1, h.mutexAt]
  · rw [h2, g2]; exact h.mutexes
  · rw [h3, g3, h.mutexCount]
  · rw [h4, g4, h.barrierAt]
  · rw [h5, g5]; exact h.barriers
  · rw [h6, g6, h.barrierCount]
  · rw [g5]; exact h.room

theorem Objects.setMutex (h : Objects s k) (i : Nat) (m : Option Mutex) :
    Objects (s.setMutex i (m.map Mutex.info)) (k.setMutex i m) := by
  refine ⟨h.mutexAt, fun j => ?_, h.mutexCount, h.barrierAt, h.barriers, h.barrierCount, h.room⟩
  simp only [State.setMutex, Kernel.setMutex, Function.update_apply]
  split
  · rfl
  · exact h.mutexes j

theorem Objects.setBarrier (h : Objects s k) (i : Nat) {b : Option Barrier}
    (hroom : ∀ b' ∈ b, b'.waiters.length < b'.count) :
    Objects (s.setBarrier i (b.map Barrier.info)) (k.setBarrier i b) := by
  refine ⟨h.mutexAt, h.mutexes, h.mutexCount, h.barrierAt, fun j => ?_, h.barrierCount, fun j b' hj => ?_⟩
  · simp only [State.setBarrier, Kernel.setBarrier, Function.update_apply]
    split
    · rfl
    · exact h.barriers j
  · simp only [Kernel.setBarrier, Function.update_apply] at hj
    split at hj
    · exact hroom b' hj
    · exact h.room j b' hj

/-- A kernel with a control block for its running thread. -/
theorem Realises.sched (h : Realises s k) (hcreated : k.created ≠ 0) :
    Sched s (k.others.map Thread.number) k.running := by
  have hst := h.stage
  generalize k.others.map Thread.number = l at hst
  generalize k.running = c at hst
  cases hst with
  | idle hfirst => exact absurd (h.first.mp hfirst) hcreated
  | sched hs => exact hs

theorem Realises.exec (h : Realises s k) : s.exec = k.running := h.stage.exec_eq

/-- Threads are woken and objects change. -/
theorem Realises.woken (h : Realises s k) (hws : ∀ x ∈ ws, InQueue s x p) (hsame : SameThreads (s.wake ws) s')
    (hlife : s'.life = s.life)
    (hk : k'.others = (k.wake ws).others ∧ k'.running = k.running ∧ k'.created = k.created ∧
      k'.finished = k.finished)
    (hq : Queued s') (ho : Objects s' k') (ht : s'.trace = k'.trace) : Realises s' k' := by
  obtain ⟨hothers, hrunning, hcreated, hfinished⟩ := hk
  have hnumbers : k'.others.map Thread.number = k.others.map Thread.number := by
    rw [hothers, Kernel.wake, List.map_map]
    refine List.map_congr_left fun t _ => ?_
    simp only [Function.comp_apply]
    split <;> rfl
  refine ⟨hlife.trans h.life, hfinished.trans h.going, ?_, hq, ?_, ?_, ?_, ?_, ho, ht⟩
  · rw [hnumbers, hrunning]
    exact hsame.stage (h.stage.wake (h.queued.blocked hws))
  · rw [hothers]
    intro t' ht'
    obtain ⟨t, hmem, rfl⟩ := List.mem_map.mp ht'
    have hrest := h.rests t hmem
    refine ⟨?_, ?_⟩
    · rw [hsame.status]
      by_cases hx : t.number ∈ ws
      · simp [State.wake, hx]
      · simpa [State.wake, hx] using hrest.status
    · rw [hsame.env]
      by_cases hx : t.number ∈ ws
      · simpa [State.wake, hx] using hrest.point
      · simpa [State.wake, hx] using hrest.point
  · rw [hothers, Kernel.wake, List.length_map]
    exact h.few
  · rw [hsame.nextTcb, hcreated]
    exact h.created
  · rw [hsame.first, hcreated]
    exact h.first

theorem wake_nil : s.wake [] = s := by simp [State.wake]

theorem Kernel.wake_nil : k.wake [] = k := by simp [Kernel.wake]

/-- Only objects change. -/
theorem Realises.frame (h : Realises s k) (hsame : SameThreads s s') (hlife : s'.life = s.life)
    (hk : k'.others = k.others ∧ k'.running = k.running ∧ k'.created = k.created ∧
      k'.finished = k.finished)
    (hq : Queued s') (ho : Objects s' k') (ht : s'.trace = k'.trace) : Realises s' k' := by
  refine @Realises.woken _ _ _ _ [] .user h (by simp) ?_ hlife ?_ hq ho ht
  · rwa [wake_nil]
  · rwa [Kernel.wake_nil]

/-! ### The next turn -/

/-- Inside `schedule`: the threads of `ts` are in the ring, in the order in which the search meets them. -/
structure Suspended (s : State) (k : Kernel) (ts : List Thread) : Prop where
  life : s.life = .active
  going : k.finished = false
  paused : ∃ l c, l ++ [c] = ts.map Thread.number ∧ Paused s l c
  queued : Queued s
  rests : ∀ t ∈ ts, t.Rests s
  few : ts.length ≤ maxThreads + 1
  created : s.nextTcb = k.created
  scheduled : k.created ≠ 0
  objects : Objects s k
  trace : s.trace = k.trace

/-- The ring and the queue agree on who is the first. -/
theorem firstTurn_numbers (h : ∀ t ∈ ts, t.Rests s) :
    firstTurn (fun x => decide (s.status x = .ready)) (ts.map Thread.number) =
      (firstTurn Thread.ready ts).map fun r => (r.1.number, r.2.map Thread.number) := by
  refine firstTurn_map fun t ht => ?_
  have hstatus := (h t ht).status
  cases hready : t.ready with
  | true => simpa [hready] using hstatus
  | false => simpa [hready] using hstatus

theorem FirstReady.firstTurn {L A B : List Nat} {x : Nat} (h : FirstReady s L x A B) :
    firstTurn (fun x => decide (s.status x = .ready)) L = some (x, B ++ A) := by
  rw [h.split]
  exact firstTurn_append_cons (fun y hy => by simpa using h.before y hy) (by simpa using h.ready)

/-- The thread whose turn it is has the processor in both. -/
theorem Suspended.resume (h : Suspended s k ts) (hturn : firstTurn Thread.ready ts = some (t, rest)) :
    Agrees (s.resume t.number) (k.turn ts) := by
  obtain ⟨l, c, hl, hp⟩ := h.paused
  obtain ⟨A, B, hts, hA, ht, hrest⟩ := firstTurn_eq_some_iff.mp hturn
  have hmem : ∀ u, u ∈ ts ↔ u = t ∨ u ∈ rest := mem_of_firstTurn hturn
  have hlen : rest.length + 1 = ts.length := by
    rw [hts, hrest]
    simp only [List.length_append, List.length_cons]
    omega
  have hsched : Sched (s.resume t.number) (rest.map Thread.number) t.number := by
    rw [hrest, List.map_append]
    refine hp.resume ?_
    rw [hl, hts, List.map_append, List.map_cons]
  have hready : s.status t.number = .ready := (h.rests t ((hmem t).mpr (.inl rfl))).status.mpr ht
  have hne : ∀ u ∈ rest, u.number ≠ t.number := fun u hu =>
    hsched.ne_of_mem (List.mem_map_of_mem hu)
  have hk : k.turn ts = { k with
      running := t.number
      others := rest
      trace := k.trace ++ .dispatched t.number :: returns t.number t.point } := by
    rw [Kernel.turn, hturn]
  rw [hk]
  refine .going ⟨h.life, h.going, .sched hsched, h.queued.resume hready, ?_, ?_, h.created, ?_, ?_, ?_⟩
  · intro u hu
    obtain ⟨hstatus, hpoint⟩ := h.rests u ((hmem u).mpr (.inr hu))
    refine ⟨?_, hpoint⟩
    simp only [State.resume, State.setStatus, Function.update_of_ne (hne u hu)]
    exact hstatus
  · have hfew := h.few
    show rest.length ≤ maxThreads
    omega
  · exact iff_of_false (by rw [hsched.first]; decide) h.scheduled
  · exact h.objects.frame ⟨rfl, rfl, rfl, rfl, rfl, rfl⟩ ⟨rfl, rfl, rfl, rfl, rfl, rfl⟩
  · simp only [State.resume, h.trace, (h.rests t ((hmem t).mpr (.inl rfl))).point]

/-- **The search of `schedule` finds the thread whose turn it is.** -/
theorem Suspended.pickNext (h : Suspended s k ts) (hready : ∃ t ∈ ts, t.ready = true) (p : Point) :
    ∃ s', pickNext s p = some s' ∧ Agrees s' (k.turn ts) := by
  obtain ⟨l, c, hl, hp⟩ := h.paused
  rcases forall_or_exists_first Thread.ready ts with hnone | ⟨A, t, B, hts, hA, ht⟩
  · obtain ⟨t, hmem, ht⟩ := hready
    rw [hnone t hmem] at ht
    cases ht
  · have hturn : firstTurn Thread.ready ts = some (t, B ++ A) := by rw [hts, firstTurn_append_cons hA ht]
    have hfew := h.few
    have hlen : A.length < ts.length := by
      rw [hts, List.length_append, List.length_cons]
      omega
    have hlen' : l.length + 1 = ts.length := by simpa using congrArg List.length hl
    have hwalk : walk s.next (A.length + 1) c = some t.number := by
      rw [hp.ring.walk_eq (by omega), List.getElem?_cons_succ, hl, hts]
      simp
    have hstatus := (h.rests t (by rw [hts]; simp)).status.mpr ht
    obtain ⟨x, A', B', hfirst, hpick⟩ := hp.pickNext_eq p (by omega) hwalk hstatus
    have hx := hfirst.firstTurn
    rw [hl, firstTurn_numbers h.rests, hturn] at hx
    obtain ⟨rfl, -⟩ := Prod.mk.inj (Option.some.inj hx)
    exact ⟨_, hpick, h.resume hturn⟩

/-- A thread that exits leaves the processor to the others, or ends the process. -/
theorem Suspended.pickNext_inExit (h : Suspended s k ts) :
    ∃ s', ThreadSync.pickNext s .inExit = some s' ∧ Agrees s' (k.turn ts) := by
  by_cases hready : ∃ t ∈ ts, t.ready = true
  · exact h.pickNext hready .inExit
  · have hnone : firstTurn Thread.ready ts = none :=
      firstTurn_of_forall fun t ht => by simpa using fun ht' => hready ⟨t, ht, ht'⟩
    obtain ⟨l, c, hl, hp⟩ := h.paused
    rcases hp.pickNext_inExit with ⟨x, A, B, hfirst, -⟩ | ⟨c', hpick⟩
    · have hx := hfirst.firstTurn
      rw [hl, firstTurn_numbers h.rests, hnone] at hx
      cases hx
    · refine ⟨_, hpick, .finished rfl ?_ ?_⟩
      · rw [Kernel.turn, hnone]
      · rw [Kernel.turn, hnone]
        exact h.trace

/-- The running thread goes to the end of the queue. -/
theorem Realises.suspended (h : Realises s k) (hcreated : k.created ≠ 0) {st : Status} {ready : Bool}
    (hst : st = .ready ∧ ready = true ∨ st = .blocked ∧ ready = false) (hp : p.Resumable)
    (hsame : SameThreads (s.suspend k.running st p) s') (hlife : s'.life = s.life)
    (hk : k'.created = k.created ∧ k'.finished = k.finished) (hq : Queued s') (ho : Objects s' k')
    (ht : s'.trace = k'.trace) : Suspended s' k' (k.behind ready p) := by
  have hs := h.sched hcreated
  have hpaused : Paused s' (k.others.map Thread.number) k.running := by
    refine hsame.paused (hs.suspend ?_ hp)
    rcases hst with ⟨rfl, -⟩ | ⟨rfl, -⟩
    · exact .inl rfl
    · exact .inr rfl
  refine ⟨hlife.trans h.life, hk.2.trans h.going, ⟨_, _, ?_, hpaused⟩, hq, ?_, ?_, ?_, ?_, ho, ht⟩
  · simp [Kernel.behind]
  · intro t hmem
    rcases List.mem_append.mp hmem with hmem | hmem
    · have hne : t.number ≠ k.running := hs.ne_of_mem (List.mem_map_of_mem hmem)
      have hrest := h.rests t hmem
      refine ⟨?_, ?_⟩
      · rw [hsame.status]
        simpa [State.suspend, State.setStatus, State.setEnv, hne] using hrest.status
      · rw [hsame.env]
        simpa [State.suspend, State.setStatus, State.setEnv, hne] using hrest.point
    · obtain rfl := List.mem_singleton.mp hmem
      refine ⟨?_, ?_⟩
      · rw [hsame.status]
        rcases hst with ⟨rfl, rfl⟩ | ⟨rfl, rfl⟩ <;> simp [State.suspend, State.setStatus]
      · rw [hsame.env]
        simp [State.suspend, State.setStatus, State.setEnv]
  · have hfew := h.few
    simp only [Kernel.behind, List.length_append, List.length_cons, List.length_nil]
    omega
  · rw [hsame.nextTcb, hk.1]
    exact h.created
  · rw [hk.1]
    exact hcreated

/-! ### The calls -/

/-- The body of a call does what the kernel does. -/
def Answers (s : State) (k : Kernel) (cl : Call) : Prop :=
  ∃ s', body s cl = some ((k.answer cl).1, s') ∧ Agrees s' (k.answer cl).2

/-- When somebody could go on, there are control blocks. -/
theorem Realises.created_of_ready (h : Realises s k) (hready : k.someReady = true) : k.created ≠ 0 := by
  intro hzero
  have hst := h.stage
  have hnone : k.others.map Thread.number = [] := by
    generalize k.others.map Thread.number = l at hst
    generalize k.running = c at hst
    cases hst with
    | idle => rfl
    | sched hs => exact absurd (h.first.mpr hzero) (by rw [hs.first]; decide)
  rw [List.map_eq_nil_iff] at hnone
  rw [Kernel.someReady, hnone] at hready
  cases hready

theorem Kernel.exists_ready_behind (hready : k.someReady = true) (ready : Bool) (p : Point) :
    ∃ t ∈ k.behind ready p, t.ready = true := by
  obtain ⟨t, hmem, ht⟩ := List.any_eq_true.mp hready
  exact ⟨t, List.mem_append_left _ hmem, ht⟩

/-- The new thread is the last of the queue. -/
theorem realises_spawned {next prev : Nat → Option Nat} {head : Option Nat}
    (hs : Sched (s.spawned next prev head) (k.others.map Thread.number ++ [s.nextTcb]) k.running)
    (hnew : s.nextTcb = max k.created 1) (hlife : s.life = .active) (hgoing : k.finished = false)
    (hq : Queued (s.spawned next prev head)) (hrests : ∀ t ∈ k.others, t.Rests s)
    (hroom : k.others.length < maxThreads) (ho : Objects s k) (ht : s.trace = k.trace) :
    Realises (s.spawned next prev head) k.create := by
  refine ⟨hlife, hgoing, ?_, hq, ?_, ?_, ?_, ?_, ?_, ht⟩
  · simp only [Kernel.create, List.map_append, List.map_cons, List.map_nil, ← hnew]
    exact .sched hs
  · intro t hmem
    rcases List.mem_append.mp hmem with hmem | hmem
    · have hne : t.number ≠ s.nextTcb := by
        have hnodup := (List.nodup_append.mp hs.ring.nodup).1
        exact (List.nodup_append.mp hnodup).2.2 _ (List.mem_map_of_mem hmem) _ (by simp)
      have hrest := hrests t hmem
      refine ⟨?_, ?_⟩
      · simpa [State.spawned, State.setStatus, State.setEnv, hne] using hrest.status
      · simpa [State.spawned, State.setStatus, State.setEnv, hne] using hrest.point
    · obtain rfl := List.mem_singleton.mp hmem
      refine ⟨?_, ?_⟩
      · simp [State.spawned, State.setStatus, State.setEnv, ← hnew]
      · simp [State.spawned, State.setStatus, State.setEnv, ← hnew]
  · simp only [Kernel.create, List.length_append, List.length_cons, List.length_nil]
    omega
  · show s.nextTcb + 1 = max k.created 1 + 1
    rw [hnew]
  · exact iff_of_false (by rw [hs.first]; decide) (Nat.succ_ne_zero _)
  · exact ho.frame ⟨rfl, rfl, rfl, rfl, rfl, rfl⟩ ⟨rfl, rfl, rfl, rfl, rfl, rfl⟩

/-- The running thread blocks: the search goes on from the state `s₀`, with its context saved. -/
theorem Realises.block (h : Realises s k) (hready : k.someReady = true) (hp : p.Resumable) {s₀ : State}
    (hsame : SameThreads (s.suspend k.running .blocked p) (s₀.setEnv k.running ⟨k.running, p⟩))
    (hlife : s₀.life = s.life) (hk : k'.created = k.created ∧ k'.finished = k.finished)
    (hq : Queued (s₀.setEnv k.running ⟨k.running, p⟩)) (ho : Objects s₀ k') (ht : s₀.trace = k'.trace) :
    ∃ s', schedule s₀ p = some s' ∧ Agrees s' (k'.turn (k.behind false p)) := by
  have hcreated := h.created_of_ready hready
  have hs := h.sched hcreated
  have hsus := h.suspended hcreated (.inr ⟨rfl, rfl⟩) hp hsame hlife hk hq
    (ho.frame ⟨rfl, rfl, rfl, rfl, rfl, rfl⟩ ⟨rfl, rfl, rfl, rfl, rfl, rfl⟩) ht
  obtain ⟨s', hpick, hagrees⟩ := hsus.pickNext (Kernel.exists_ready_behind hready _ _) p
  refine ⟨s', (schedule_of_blocked (c := k.running) ?_ ?_ ?_ _).trans hpick, hagrees⟩
  · have hlive : s₀.live = s.live := hsame.live
    have hcurr : s₀.curr = s.curr := hsame.curr
    rw [State.deref, hlive, hcurr]
    exact hs.deref_curr
  · have hexec : s₀.exec = s.exec := hsame.exec
    rw [hexec, h.exec]
  · have hstatus : s₀.status = _ := hsame.status
    rw [hstatus]
    exact Function.update_self k.running _ _

/-- The thread that blocks is put in a queue. -/
theorem Realises.queued_lock (h : Realises s k) (hready : k.someReady = true) {m : MutexInfo}
    (hm : s.mutexInfos i = some m) : Queued (s.waitLock k.running i m) := by
  have hs := h.sched (h.created_of_ready hready)
  have hc := (Stage.sched hs).not_inQueue h.queued
  have hsus := h.queued.suspend hc .blocked (.inLock i)
  obtain ⟨hinit, hnodup⟩ := h.queued.mutex i m hm
  refine (hsus.setMutex ?_ ?_ ?_).log _
  · exact hinit
  · exact List.nodup_cons.mpr ⟨fun hx => hc _ (.mutex hm hx), hnodup⟩
  · intro x hx
    rcases List.mem_cons.mp hx with rfl | hx
    · exact suspend_waits hs.live_curr
    · exact hsus.waits x _ (.mutex hm hx)

theorem Realises.queued_wait (h : Realises s k) (hready : k.someReady = true) {b : BarrierInfo}
    (hb : s.barrierInfos i = some b) : Queued (s.waitBarrier k.running i b) := by
  have hs := h.sched (h.created_of_ready hready)
  have hc := (Stage.sched hs).not_inQueue h.queued
  have hsus := h.queued.suspend hc .blocked (.inWait i)
  obtain ⟨hinit, hnodup⟩ := h.queued.barrier i b hb
  refine (hsus.setBarrier ?_ ?_ ?_).log _
  · exact hinit
  · exact List.nodup_cons.mpr ⟨fun hx => hc _ (.barrier hb hx), hnodup⟩
  · intro x hx
    rcases List.mem_cons.mp hx with rfl | hx
    · exact suspend_waits hs.live_curr
    · exact hsus.waits x _ (.barrier hb hx)

theorem Realises.create (h : Realises s k) (hroom : k.others.length < maxThreads) : Answers s k .create := by
  by_cases hzero : k.created = 0
  · have hfirst := h.first.mpr hzero
    have hst := h.stage
    generalize hl : k.others.map Thread.number = l at hst
    generalize hc : k.running = c at hst
    cases hst with
    | sched hs => exact absurd hfirst (by rw [hs.first]; decide)
    | idle hfirst' hcurr hexec hnew hlive =>
      obtain ⟨next, prev, head, hcreate, hs⟩ := (linkable_initialised hexec hnew hlive).create
      have hstage : Stage s [] 0 := .idle hfirst' hcurr hexec hnew hlive
      have hq := (Effect.createFirst (l := []) hfirst next prev head hs).queued hstage h.queued h.life
      have hothers : k.others = [] := List.map_eq_nil_iff.mp hl
      have hbody : body s .create = some (some 0, s.initialised.spawned next prev head) := by
        rw [body, pthreadCreate, if_pos hfirst, ← hcreate]
        rfl
      refine ⟨_, hbody, .going (realises_spawned ?_ ?_ h.life h.going hq ?_ hroom ?_ h.trace)⟩
      · rw [hl, hc]
        exact hs
      · rw [hzero]
        show s.nextTcb + 1 = 1
        rw [hnew]
      · rw [hothers]
        simp
      · exact h.objects.frame ⟨rfl, rfl, rfl, rfl, rfl, rfl⟩ ⟨rfl, rfl, rfl, rfl, rfl, rfl⟩
  · have hs := h.sched hzero
    obtain ⟨next, prev, head, hcreate, hs'⟩ := hs.linkable.create
    have hq := (Effect.create next prev head hs').queued (.sched hs) h.queued h.life
    have hbody : body s .create = some (some 0, s.spawned next prev head) := by
      rw [body, pthreadCreate, if_neg (by rw [hs.first]; decide), hcreate]
    refine ⟨_, hbody, .going (realises_spawned hs' ?_ h.life h.going hq h.rests hroom h.objects h.trace)⟩
    rw [h.created]
    omega

/-- The queue without the thread that exits. -/
theorem Realises.unlinked (h : Realises s k) (hcreated : k.created ≠ 0) {l : List Nat} {q n : Nat}
    (hl : k.others.map Thread.number = l ++ [q]) (hp : Paused (s.unlinked k.running q n) l q) :
    Suspended (s.unlinked k.running q n) k k.others := by
  have hs := h.sched hcreated
  refine ⟨h.life, h.going, ⟨l, q, hl.symm, hp⟩, ?_, ?_, ?_, h.created, hcreated, ?_, h.trace⟩
  · refine h.queued.frame rfl rfl fun x p hx => ?_
    have hne : x ≠ k.running := by
      rintro rfl
      exact (Stage.sched hs).not_inQueue h.queued p hx
    refine ⟨?_, ?_, ?_⟩ <;> simp [State.unlinked, State.setNext, State.setStatus, State.setEnv, hne]
  · intro t hmem
    have hne : t.number ≠ k.running := hs.ne_of_mem (List.mem_map_of_mem hmem)
    have hrest := h.rests t hmem
    refine ⟨?_, ?_⟩
    · simpa [State.unlinked, State.setNext, State.setStatus, State.setEnv, hne] using hrest.status
    · simpa [State.unlinked, State.setNext, State.setStatus, State.setEnv, hne] using hrest.point
  · exact Nat.le_succ_of_le h.few
  · exact h.objects.frame ⟨rfl, rfl, rfl, rfl, rfl, rfl⟩ ⟨rfl, rfl, rfl, rfl, rfl, rfl⟩

theorem Realises.exit (h : Realises s k) (hcreated : k.created ≠ 0) : Answers s k .exit := by
  have hs := h.sched hcreated
  have hnum := hs.num
  rcases List.eq_nil_or_concat (k.others.map Thread.number) with hnil | ⟨l, q, hl⟩
  · -- the last thread
    have hothers : k.others = [] := List.map_eq_nil_iff.mp hnil
    have hlast : ¬ 0 < s.numCurrThreads - 1 := by
      rw [hnil] at hnum
      simp only [List.length_nil] at hnum
      omega
    have hturn : k.turn k.others = { k with finished := true } := by
      rw [Kernel.turn, hothers]
      rfl
    have hlast' : ¬ 0 < (s.setStatus k.running .exited).numCurrThreads - 1 := hlast
    refine ⟨{ s.setStatus k.running .exited with numCurrThreads := s.numCurrThreads - 1, life := .exited }, ?_, ?_⟩
    · simp only [body, pthreadExit, hs.deref_curr, Option.bind_eq_bind, Option.bind_some, if_neg hlast',
        Kernel.answer]
      rfl
    · rw [Kernel.answer, hturn]
      exact .finished rfl rfl h.trace
  · rw [List.concat_eq_append] at hl
    have hmore : 0 < s.numCurrThreads - 1 := by
      rw [hl] at hnum
      simp only [List.length_append, List.length_cons, List.length_nil] at hnum
      omega
    rw [hl] at hs
    obtain ⟨n, hp, hsched⟩ := hs.unlinked
    obtain ⟨s', hpick, hagrees⟩ := (h.unlinked hcreated hl hp).pickNext_inExit
    refine ⟨s', ?_, hagrees⟩
    have hexit : schedule { s.setStatus k.running .exited with numCurrThreads := s.numCurrThreads - 1 } .inExit =
        some s' := hsched.trans hpick
    have hmore' : 0 < (s.setStatus k.running .exited).numCurrThreads - 1 := hmore
    simp only [body, pthreadExit, hs.deref_curr, Option.bind_eq_bind, Option.bind_some, if_pos hmore',
      Kernel.answer]
    change (schedule { s.setStatus k.running .exited with numCurrThreads := s.numCurrThreads - 1 }
      .inExit).bind _ = _
    rw [hexit, Option.bind_some]

theorem Realises.alarm (h : Realises s k) : Answers s k .alarm := by
  by_cases hzero : k.created = 0
  · have hfirst := h.first.mpr hzero
    refine ⟨s, ?_, ?_⟩
    · simp [body, ThreadSync.alarm, hfirst, Kernel.answer]
    · rw [Kernel.answer, if_pos hzero]
      exact .going h
  · have hs := h.sched hzero
    have hq : Queued (s.suspend k.running .ready .user) := h.queued.suspend ((Stage.sched hs).not_inQueue h.queued) _ _
    have hsus := @Realises.suspended s (s.suspend k.running .ready .user) k k .user h hzero .ready true
      (.inl ⟨rfl, rfl⟩) ⟨by decide, by decide⟩ ⟨rfl, rfl, rfl, rfl, rfl, rfl, rfl, rfl, rfl, rfl⟩ rfl ⟨rfl, rfl⟩ hq
      (h.objects.frame ⟨rfl, rfl, rfl, rfl, rfl, rfl⟩ ⟨rfl, rfl, rfl, rfl, rfl, rfl⟩) h.trace
    obtain ⟨s', hpick, hagrees⟩ := hsus.pickNext ⟨⟨k.running, true, .user⟩, by simp [Kernel.behind], rfl⟩ .user
    refine ⟨s', ?_, ?_⟩
    · simp only [body, ThreadSync.alarm, hs.first, Bool.false_eq_true, if_false,
        schedule_of_running hs.deref_curr hs.exec hs.running, hpick, Option.map_some, Kernel.answer]
    · rw [Kernel.answer, if_neg hzero]
      exact hagrees

theorem Objects.mutexInfos_eq (h : Objects s k) {m : Mutex} (hm : k.mutexes i = some m) :
    s.mutexInfos i = some m.info := by rw [h.mutexes, hm, Option.map_some]

theorem Objects.barrierInfos_eq (h : Objects s k) {b : Barrier} (hb : k.barriers i = some b) :
    s.barrierInfos i = some b.info := by rw [h.barriers, hb, Option.map_some]

/-- What an object refers to, where it refers to anything. -/
theorem Kernel.Refers.cases {α : Type} {at? : Option Nat} {made : Nat → Option α} {P : α → Prop}
    (h : Kernel.Refers at? made P) : at? = none ∨ ∃ i a, at? = some i ∧ made i = some a ∧ P a := by
  cases at? with
  | none => exact .inl rfl
  | some i =>
    obtain ⟨hsome, hP⟩ := h i rfl
    obtain ⟨a, ha⟩ := Option.isSome_iff_exists.mp hsome
    exact .inr ⟨i, a, rfl, ha, hP a ha⟩

theorem Kernel.refer_none {α : Type} {at? : Option Nat} {made : Nat → Option α} {unmade : Int}
    {f : Nat → α → Option Int × Kernel} (h : at? = none) : k.refer at? made unmade f = (some unmade, k) := by
  subst h
  rfl

theorem Kernel.refer_some {α : Type} {at? : Option Nat} {made : Nat → Option α} {unmade : Int} {a : α}
    {f : Nat → α → Option Int × Kernel} (h : at? = some i) (ha : made i = some a) :
    k.refer at? made unmade f = f i a := by
  simp only [Kernel.refer, h, ha]

theorem Realises.mutexInit (h : Realises s k) (o : Nat) : Answers s k (.mutexInit o) := by
  have hi : s.nextMutex = k.mutexCount := h.objects.mutexCount
  have ho := h.objects.setMutex k.mutexCount (some ⟨false, []⟩)
  have hq : Queued (s.setMutex k.mutexCount (some ⟨true, false, []⟩)) :=
    h.queued.setMutex rfl List.nodup_nil (by simp)
  have hbody : body s (.mutexInit o) = some (some 0,
      { s.setMutex k.mutexCount (some ⟨true, false, []⟩) with
        mutexObj := Function.update s.mutexObj o (some k.mutexCount), nextMutex := k.mutexCount + 1 }) := by
    rw [body, pthreadMutexInit, hi]
    rfl
  refine ⟨_, hbody, .going (h.frame ⟨rfl, rfl, rfl, rfl, rfl, rfl, rfl, rfl, rfl, rfl⟩ rfl ⟨rfl, rfl, rfl, rfl⟩
    (hq.congrObjects rfl rfl rfl rfl rfl) ⟨?_, ho.mutexes, rfl, ho.barrierAt, ho.barriers, ho.barrierCount,
      ho.room⟩ h.trace)⟩
  show Function.update s.mutexObj o _ = Function.update k.mutexAt o _
  rw [h.objects.mutexAt]

theorem Realises.mutexDestroy (h : Realises s k) (ha : k.Allows (.mutexDestroy o)) :
    Answers s k (.mutexDestroy o) := by
  rcases ha.cases with hnone | ⟨i, m, hi, hm, -⟩
  · refine ⟨s, ?_, ?_⟩
    · rw [Kernel.answer, Kernel.refer_none hnone, body, pthreadMutexDestroy, h.objects.mutexAt, hnone]
    · rw [Kernel.answer, Kernel.refer_none hnone]
      exact .going h
  · refine ⟨s.setMutex i none, ?_, ?_⟩
    · rw [Kernel.answer, Kernel.refer_some hi hm, body, pthreadMutexDestroy, h.objects.mutexAt, hi]
      simp only [h.objects.mutexInfos_eq hm, Option.bind_eq_bind, Option.bind_some]
    · rw [Kernel.answer, Kernel.refer_some hi hm]
      exact .going (h.frame ⟨rfl, rfl, rfl, rfl, rfl, rfl, rfl, rfl, rfl, rfl⟩ rfl ⟨rfl, rfl, rfl, rfl⟩
        (h.queued.freeMutex i) (h.objects.setMutex i none) h.trace)

theorem Realises.lock (h : Realises s k) (ha : k.Allows (.lock o)) : Answers s k (.lock o) := by
  rcases ha.cases with hnone | ⟨i, ⟨locked, ws⟩, hi, hm, hready⟩
  · refine ⟨s, ?_, ?_⟩
    · rw [Kernel.answer, Kernel.refer_none hnone, body, pthreadMutexLock, h.objects.mutexAt, hnone]
    · rw [Kernel.answer, Kernel.refer_none hnone]
      exact .going h
  · have hinfo := h.objects.mutexInfos_eq hm
    rw [Answers, Kernel.answer, Kernel.refer_some hi hm, body, pthreadMutexLock, h.objects.mutexAt, hi]
    simp only [hinfo, Mutex.info, Option.bind_eq_bind, Option.bind_some, if_true, h.exec]
    cases locked with
    | false =>
      have ho := h.objects.setMutex i (some ⟨true, ws⟩)
      have hq : Queued (s.setMutex i (some ⟨true, true, ws⟩)) := h.queued.relock hinfo true
      refine ⟨_, rfl, .going (h.frame ⟨rfl, rfl, rfl, rfl, rfl, rfl, rfl, rfl, rfl, rfl⟩ rfl ⟨rfl, rfl, rfl, rfl⟩
        (hq.congrObjects rfl rfl rfl rfl rfl)
        (ho.frame ⟨rfl, rfl, rfl, rfl, rfl, rfl⟩ ⟨rfl, rfl, rfl, rfl, rfl, rfl⟩) ?_)⟩
      simp [State.log, State.setMutex, Kernel.lock, Kernel.log, Kernel.setMutex, h.trace, h.exec]
    | true =>
      have hsome := hready rfl
      have hs := h.sched (h.created_of_ready hsome)
      have ho := h.objects.setMutex i (some ⟨true, k.running :: ws⟩)
      obtain ⟨s', hsched, hagrees⟩ := @Realises.block s k
        ((k.setMutex i (some ⟨true, k.running :: ws⟩)).log [.lockCalled k.running i true]) (.inLock i) h hsome
        ⟨by simp, by simp⟩ (((s.log [.lockCalled k.running i true]).setStatus k.running .blocked).setMutex i
          (some ⟨true, true, k.running :: ws⟩)) (sameThreads_waitLock ⟨true, true, ws⟩) rfl ⟨rfl, rfl⟩
        (h.queued_lock hsome hinfo) (ho.frame ⟨rfl, rfl, rfl, rfl, rfl, rfl⟩ ⟨rfl, rfl, rfl, rfl, rfl, rfl⟩)
        (congrArg (· ++ _) h.trace)
      have hderef : (s.log [.lockCalled k.running i true]).deref (s.log [.lockCalled k.running i true]).curr =
          some k.running := hs.deref_curr
      refine ⟨s', ?_, hagrees⟩
      simp only [if_true, hderef, Option.bind_some, hsched]
      rfl

theorem Realises.unlock (h : Realises s k) (ha : k.Allows (.unlock o)) : Answers s k (.unlock o) := by
  rcases ha.cases with hnone | ⟨i, ⟨locked, ws⟩, hi, hm, -⟩
  · refine ⟨s, ?_, ?_⟩
    · rw [Kernel.answer, Kernel.refer_none hnone, body, pthreadMutexUnlock, h.objects.mutexAt, hnone]
    · rw [Kernel.answer, Kernel.refer_none hnone]
      exact .going h
  · have hinfo := h.objects.mutexInfos_eq hm
    rw [Answers, Kernel.answer, Kernel.refer_some hi hm, body, pthreadMutexUnlock, h.objects.mutexAt, hi]
    simp only [hinfo, Mutex.info, Option.bind_eq_bind, Option.bind_some, if_true]
    cases locked with
    | false => exact ⟨s, rfl, .going h⟩
    | true =>
      cases ws with
      | nil =>
        have ho := h.objects.setMutex i (some ⟨false, []⟩)
        have hq : Queued (s.setMutex i (some ⟨true, false, []⟩)) := h.queued.relock hinfo false
        refine ⟨_, rfl, .going (h.frame ⟨rfl, rfl, rfl, rfl, rfl, rfl, rfl, rfl, rfl, rfl⟩ rfl ⟨rfl, rfl, rfl, rfl⟩
          (hq.congrObjects rfl rfl rfl rfl rfl)
          (ho.frame ⟨rfl, rfl, rfl, rfl, rfl, rfl⟩ ⟨rfl, rfl, rfl, rfl, rfl, rfl⟩) ?_)⟩
        simp [State.log, State.setMutex, Kernel.unlock, Kernel.log, Kernel.setMutex, h.trace, h.exec]
      | cons x ws =>
        have hx : ∀ y ∈ [x], InQueue s y (.inLock i) := inQueue_head hinfo rfl
        have hlive := (h.queued.blocked hx x List.mem_cons_self).1
        have heff : Effect s (k.others.map Thread.number) k.running (.unlock o)
            (((s.wake [x]).setMutex i (some ⟨true, true, ws⟩)).log [.unlocked k.running i, .handed x i]) :=
          .unlockNext ((congrFun h.objects.mutexAt o).trans hi) hinfo rfl rfl
        have hq := heff.queued h.stage h.queued h.life
        have ho := h.objects.setMutex i (some ⟨true, ws⟩)
        simp only [deref_of_live hlive, Option.bind_some, setStatus_ready]
        refine ⟨_, rfl, .going (h.woken hx ⟨rfl, rfl, rfl, rfl, rfl, rfl, rfl, rfl, rfl, rfl⟩ rfl ⟨rfl, rfl, rfl, rfl⟩
          (hq.congrObjects rfl rfl rfl rfl rfl)
          (ho.frame ⟨rfl, rfl, rfl, rfl, rfl, rfl⟩ ⟨rfl, rfl, rfl, rfl, rfl, rfl⟩) ?_)⟩
        simp [State.log, State.setMutex, State.wake, Kernel.unlock, Kernel.log, Kernel.setMutex, Kernel.wake,
          h.trace, h.exec]

theorem Realises.barrierInit (h : Realises s k) {count : UInt32} (ha : k.Allows (.barrierInit o count)) :
    Answers s k (.barrierInit o count) := by
  by_cases hzero : count = 0
  · refine ⟨s, ?_, ?_⟩
    · rw [Kernel.answer, if_pos hzero, body, pthreadBarrierInit, if_pos hzero]
    · rw [Kernel.answer, if_pos hzero]
      exact .going h
  · have hlt : count.toNat < 2 ^ 31 := ha
    have hpos : 0 < count.toNat := by
      refine Nat.pos_of_ne_zero fun h0 => hzero ?_
      exact UInt32.toNat_inj.mp h0
    have hsigned : Int.bmod count.toNat (2 ^ 32) = count.toNat := by
      rw [Int.bmod_eq_of_le] <;> omega
    have hi : s.nextBarrier = k.barrierCount := h.objects.barrierCount
    have ho := @Objects.setBarrier _ _ h.objects k.barrierCount (some ⟨count.toNat, []⟩) (by
      rintro b ⟨rfl⟩
      exact hpos)
    have hq : Queued (s.setBarrier k.barrierCount (some ⟨true, 0, count.toNat, []⟩)) :=
      h.queued.setBarrier rfl List.nodup_nil (by simp)
    have hbody : body s (.barrierInit o count) = some (some 0,
        State.log { s.setBarrier k.barrierCount (some ⟨true, 0, count.toNat, []⟩) with
          barrierObj := Function.update s.barrierObj o (some k.barrierCount), nextBarrier := k.barrierCount + 1 }
          [.barrierMade k.barrierCount count.toNat]) := by
      rw [body, pthreadBarrierInit, if_neg hzero, hi, hsigned]
      rfl
    rw [Answers, Kernel.answer, if_neg hzero]
    refine ⟨_, hbody, .going (h.frame ⟨rfl, rfl, rfl, rfl, rfl, rfl, rfl, rfl, rfl, rfl⟩ rfl ⟨rfl, rfl, rfl, rfl⟩
      (hq.congrObjects rfl rfl rfl rfl rfl) ⟨ho.mutexAt, ho.mutexes, ho.mutexCount, ?_, ho.barriers, rfl,
        ho.room⟩ ?_)⟩
    · show Function.update s.barrierObj o _ = Function.update k.barrierAt o _
      rw [h.objects.barrierAt]
    · show s.trace ++ _ = k.trace ++ _
      rw [h.trace]

theorem Realises.barrierDestroy (h : Realises s k) (ha : k.Allows (.barrierDestroy o)) :
    Answers s k (.barrierDestroy o) := by
  rcases ha.cases with hnone | ⟨i, b, hi, hb, -⟩
  · refine ⟨s, ?_, ?_⟩
    · rw [Kernel.answer, Kernel.refer_none hnone, body, pthreadBarrierDestroy, h.objects.barrierAt, hnone]
    · rw [Kernel.answer, Kernel.refer_none hnone]
      exact .going h
  · refine ⟨s.setBarrier i none, ?_, ?_⟩
    · rw [Kernel.answer, Kernel.refer_some hi hb, body, pthreadBarrierDestroy, h.objects.barrierAt, hi]
      simp only [h.objects.barrierInfos_eq hb, Option.bind_eq_bind, Option.bind_some]
    · rw [Kernel.answer, Kernel.refer_some hi hb]
      exact .going (h.frame ⟨rfl, rfl, rfl, rfl, rfl, rfl, rfl, rfl, rfl, rfl⟩ rfl ⟨rfl, rfl, rfl, rfl⟩
        (h.queued.freeBarrier i) (@Objects.setBarrier _ _ h.objects i none (by simp)) h.trace)

theorem Realises.wait (h : Realises s k) (ha : k.Allows (.wait o)) : Answers s k (.wait o) := by
  rcases ha.cases with hnone | ⟨i, ⟨count, ws⟩, hi, hb, hready⟩
  · refine ⟨s, ?_, ?_⟩
    · rw [Kernel.answer, Kernel.refer_none hnone, body, pthreadBarrierWait, h.objects.barrierAt, hnone]
    · rw [Kernel.answer, Kernel.refer_none hnone]
      exact .going h
  · have hinfo := h.objects.barrierInfos_eq hb
    have hroom : ws.length < count := h.objects.room i _ hb
    rw [Answers, Kernel.answer, Kernel.refer_some hi hb, body, pthreadBarrierWait, h.objects.barrierAt, hi]
    simp only [hinfo, Barrier.info, Option.bind_eq_bind, Option.bind_some, if_true, h.exec]
    by_cases hlt : ws.length + 1 < count
    · have hlt' : (ws.length : Int) + 1 < count := by omega
      have hsome := hready hlt
      have hs := h.sched (h.created_of_ready hsome)
      have ho := @Objects.setBarrier _ _ h.objects i (some ⟨count, k.running :: ws⟩) (by
        rintro b ⟨rfl⟩
        exact hlt)
      obtain ⟨s', hsched, hagrees⟩ := @Realises.block s k
        ((k.setBarrier i (some ⟨count, k.running :: ws⟩)).log [.arrived k.running i]) (.inWait i) h hsome
        ⟨by simp, by simp⟩ (((s.log [.arrived k.running i]).setStatus k.running .blocked).setBarrier i
          (some ⟨true, ws.length + 1, count, k.running :: ws⟩)) (sameThreads_waitBarrier ⟨true, ws.length, count, ws⟩)
        rfl ⟨rfl, rfl⟩ (h.queued_wait hsome hinfo)
        (ho.frame ⟨rfl, rfl, rfl, rfl, rfl, rfl⟩ ⟨rfl, rfl, rfl, rfl, rfl, rfl⟩) (congrArg (· ++ _) h.trace)
      have hderef : (s.log [.arrived k.running i]).deref (s.log [.arrived k.running i]).curr =
          some k.running := hs.deref_curr
      rw [Kernel.wait, if_pos hlt]
      refine ⟨s', ?_, hagrees⟩
      simp only [if_pos hlt', hderef, Option.bind_some, hsched]
    · have hlast : (ws.length : Int) + 1 = count := by omega
      have hnlt : ¬ (ws.length : Int) + 1 < count := by omega
      have hx : ∀ y ∈ ws, InQueue s y (.inWait i) := fun y hy => .barrier hinfo hy
      have hwake : wakeAll (s.log [.arrived k.running i]) ws = some ((s.log [.arrived k.running i]).wake ws) :=
        wakeAll_eq ws _ fun x hmem => (h.queued.blocked hx x hmem).1
      have heff : Effect s (k.others.map Thread.number) k.running (.wait o)
          (((s.wake ws).setBarrier i (some ⟨true, 0, count, []⟩)).log
            [.arrived k.running i, .waitReturned k.running i barrierSerialThread]) :=
        .waitLast ((congrFun h.objects.barrierAt o).trans hi) hinfo hlast
      have hq := heff.queued h.stage h.queued h.life
      have ho := @Objects.setBarrier _ _ h.objects i (some ⟨count, []⟩) (by
        rintro b ⟨rfl⟩
        exact Nat.zero_lt_of_lt hroom)
      rw [Kernel.wait, if_neg hlt]
      simp only [if_neg hnlt, if_pos hlast, hwake, Option.bind_some]
      refine ⟨_, rfl, .going (h.woken hx ⟨rfl, rfl, rfl, rfl, rfl, rfl, rfl, rfl, rfl, rfl⟩ rfl ⟨rfl, rfl, rfl, rfl⟩
        (hq.congrObjects rfl rfl rfl rfl rfl)
        (ho.frame ⟨rfl, rfl, rfl, rfl, rfl, rfl⟩ ⟨rfl, rfl, rfl, rfl, rfl, rfl⟩) ?_)⟩
      simp [State.log, State.setBarrier, State.wake, Kernel.log, Kernel.setBarrier, Kernel.wake, h.trace, h.exec]

/-- **A call is answered as the kernel answers it.** -/
theorem Realises.answers (h : Realises s k) (ha : k.Allows cl) : Answers s k cl := by
  cases cl with
  | create => exact h.create ha
  | exit => exact h.exit ha
  | alarm => exact h.alarm
  | mutexInit o => exact h.mutexInit o
  | mutexDestroy o => exact h.mutexDestroy ha
  | lock o => exact h.lock ha
  | unlock o => exact h.unlock ha
  | barrierInit o count => exact h.barrierInit ha
  | barrierDestroy o => exact h.barrierDestroy ha
  | wait o => exact h.wait ha

theorem Agrees.call (h : Agrees s k) (hcl : k.Within cl) :
    (k.step cl).1 = (call s cl).1 ∧ Agrees (call s cl).2 (k.step cl).2 := by
  cases h with
  | going h =>
    obtain ⟨s', hbody, hagrees⟩ := h.answers (hcl h.going)
    rw [ThreadSync.call, if_pos h.life, hbody, Kernel.step, h.going]
    exact ⟨rfl, hagrees⟩
  | finished hlife hfinished htrace =>
    rw [ThreadSync.call, if_neg (by rw [hlife]; decide), Kernel.step, hfinished]
    exact ⟨rfl, .finished hlife hfinished htrace⟩

theorem agrees_start : Agrees State.start Kernel.start := by
  have hobjects : Objects State.start Kernel.start := by
    refine ⟨rfl, fun _ => rfl, rfl, rfl, fun _ => rfl, rfl, fun _ _ hb => ?_⟩
    cases hb
  exact .going ⟨rfl, rfl, .idle rfl rfl rfl rfl fun _ => rfl, good_start.queued rfl, by simp [Kernel.start],
    Nat.zero_le _, rfl, by decide, hobjects, rfl⟩

/-- The library against the kernel, over a run. -/
theorem agrees_run (cs : List Call) (hcs : RunOk Kernel.step Kernel.Within Kernel.start cs) :
    replies Kernel.step Kernel.start cs = replies call State.start cs ∧
      Agrees (run call State.start cs) (run Kernel.step Kernel.start cs) := by
  have hstep : ∀ (k : Kernel) (s : State) (cl : Call), Agrees s k → k.Within cl →
      (k.step cl).1 = (call s cl).1 ∧ Agrees (call s cl).2 (k.step cl).2 := fun _ _ _ h hcl => h.call hcl
  exact replies_eq_of_simulation hstep cs Kernel.start State.start agrees_start hcs

/-- **The library refines the kernel**: in every run within the limits, whatever its threads call and whenever
the alarm goes off, the calls are answered as the kernel answers them, the same happens in the same order, the
same thread has the processor, and the process ends when the kernel does. -/
theorem library_refines_kernel (cs : List Call) (hcs : RunOk Kernel.step Kernel.Within Kernel.start cs) :
    replies call State.start cs = replies Kernel.step Kernel.start cs ∧
      (run call State.start cs).trace = (run Kernel.step Kernel.start cs).trace ∧
      (run call State.start cs).life = (if (run Kernel.step Kernel.start cs).finished then .exited else .active) ∧
      ((run Kernel.step Kernel.start cs).finished = false →
        (run call State.start cs).exec = (run Kernel.step Kernel.start cs).running) := by
  obtain ⟨hreplies, hagrees⟩ := agrees_run cs hcs
  refine ⟨hreplies.symm, ?_⟩
  cases hagrees with
  | going h => exact ⟨h.trace, by simp [h.life, h.going], fun _ => h.exec⟩
  | finished hlife hfinished htrace => exact ⟨htrace, by simp [hlife, hfinished], by simp [hfinished]⟩

/-- The new thread waits for the mutex of the main thread, gets it, and they meet at a barrier. -/
def meeting : List Call :=
  [.create, .mutexInit 7, .barrierInit 8 2, .lock 7, .alarm, .lock 7, .unlock 7, .wait 8, .unlock 7, .wait 8, .exit]

theorem library_refines_kernel_meeting :
    (run call State.start meeting).trace =
      [.barrierMade 0 2, .lockCalled 0 0 false, .acquired 0 0, .lockReturned 0 0, .dispatched 1,
        .lockCalled 1 0 true, .dispatched 0, .unlocked 0 0, .handed 1 0, .arrived 0 0, .dispatched 1,
        .lockReturned 1 0, .unlocked 1 0, .arrived 1 0, .waitReturned 1 0 (-1), .dispatched 0,
        .waitReturned 0 0 0] := by
  rw [(library_refines_kernel meeting (by decide)).2.1]
  decide

end EC440.ThreadSync
