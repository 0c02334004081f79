import EC440.Lib.Ring
import EC440.ThreadSync.Calls

/-!
# What `schedule` does

`Circle s l c` says that the control blocks form one ring with `c` as `curr`.  While the
thread `c` has the processor (`Sched`) it is `TS_RUNNING` and every other thread is at
rest, with a context of its own saved.  Inside `schedule` (`Paused`) all of them are.

The search of `schedule` meets the threads in the order `l ++ [c]`.  It stops at the
first one that is `TS_READY` (`Paused.pickNext_eq`), and that thread has the processor
then (`Paused.resume`).
-/

namespace EC440.ThreadSync

open EC440.Lib

variable {s s' : State} {l A B L : List Nat} {c p' x y i k : Nat} {p : Point} {st : Status}

/-- What a thread that is resumed at a point of its code returns from. -/
def returns (t : Nat) : Point → List Event
  | .inLock i => [.lockReturned t i]
  | .inWait i => [.waitReturned t i 0]
  | _ => []

/-- The thread `x` has the processor and goes on where it was suspended. -/
def State.resume (s : State) (x : Nat) : State :=
  { s.setStatus x .running with
    curr := some x
    exec := x
    trace := s.trace ++ .dispatched x :: returns x (s.env x).point }

/-- The thread `c` is suspended at the place `p` of its code. -/
def State.suspend (s : State) (c : Nat) (st : Status) (p : Point) : State :=
  (s.setEnv c ⟨c, p⟩).setStatus c st

/-- A place where the code of a thread can go on. -/
def Point.Resumable (p : Point) : Prop := p ≠ .init ∧ p ≠ .inExit

/-- The thread `x` waits for the processor or for an object, with its own context saved. -/
structure Resting (s : State) (x : Nat) : Prop where
  status : s.status x = .ready ∨ s.status x = .blocked
  owner : (s.env x).owner = x
  point : (s.env x).point.Resumable

structure Circle (s : State) (l : List Nat) (c : Nat) : Prop where
  first : s.isFirstCall = false
  curr : s.curr = some c
  ring : Ring s.next s.prev l c
  live : ∀ x, s.live x = true ↔ x ∈ l ++ [c]
  fresh : ∀ x ∈ l ++ [c], x < s.nextTcb
  num : s.numCurrThreads = l.length + 1

/-- Inside `schedule`: no thread has the processor. -/
structure Paused (s : State) (l : List Nat) (c : Nat) : Prop extends Circle s l c where
  rest : ∀ x ∈ l ++ [c], Resting s x

/-- Between calls: `c` has the processor. -/
structure Sched (s : State) (l : List Nat) (c : Nat) : Prop extends Circle s l c where
  exec : s.exec = c
  running : s.status c = .running
  rest : ∀ x ∈ l, Resting s x

/-! ### What does not touch the threads -/

/-- The scheduler does not see the difference. -/
structure SameThreads (s s' : State) : Prop where
  live : s'.live = s.live
  status : s'.status = s.status
  env : s'.env = s.env
  next : s'.next = s.next
  prev : s'.prev = s.prev
  nextTcb : s'.nextTcb = s.nextTcb
  curr : s'.curr = s.curr
  num : s'.numCurrThreads = s.numCurrThreads
  exec : s'.exec = s.exec
  first : s'.isFirstCall = s.isFirstCall

theorem SameThreads.resting (h : SameThreads s s') (hx : Resting s x) : Resting s' x := by
  refine ⟨?_, ?_, ?_⟩
  · rw [h.status]; exact hx.status
  · rw [h.env]; exact hx.owner
  · rw [h.env]; exact hx.point

theorem SameThreads.circle (h : SameThreads s s') (hc : Circle s l c) : Circle s' l c := by
  refine ⟨?_, ?_, ?_, ?_, ?_, ?_⟩
  · rw [h.first]; exact hc.first
  · rw [h.curr]; exact hc.curr
  · rw [h.next, h.prev]; exact hc.ring
  · rw [h.live]; exact hc.live
  · rw [h.nextTcb]; exact hc.fresh
  · rw [h.num]; exact hc.num

theorem SameThreads.paused (h : SameThreads s s') (hp : Paused s l c) : Paused s' l c :=
  ⟨h.circle hp.toCircle, fun x hx => h.resting (hp.rest x hx)⟩

theorem SameThreads.sched (h : SameThreads s s') (hs : Sched s l c) : Sched s' l c := by
  refine ⟨h.circle hs.toCircle, ?_, ?_, fun x hx => h.resting (hs.rest x hx)⟩
  · rw [h.exec]; exact hs.exec
  · rw [h.status]; exact hs.running

/-! ### The search -/

theorem Circle.live_curr (h : Circle s l c) : s.live c = true := (h.live c).mpr (by simp)

theorem Circle.deref_curr (h : Circle s l c) : s.deref s.curr = some c := by
  rw [h.curr, State.deref, Option.filter_some, if_pos h.live_curr]

theorem Circle.ne_of_mem (h : Circle s l c) (hx : x ∈ l) : x ≠ c := by
  rintro rfl
  exact (List.nodup_append.mp h.ring.nodup).2.2 x hx x (by simp) rfl

theorem deref_of_live (hx : s.live x = true) : s.deref (some x) = some x := by
  rw [State.deref, Option.filter_some, if_pos hx]

/-- Links lead from live blocks to live blocks. -/
def LinksLive (s : State) : Prop :=
  ∀ x, s.live x = true → ∃ y, s.next x = some y ∧ s.live y = true

theorem Circle.linksLive (h : Circle s l c) : LinksLive s := by
  intro x hx
  obtain ⟨y, hy, hlink⟩ := h.ring.exists_next ((h.live x).mp hx)
  exact ⟨y, hlink.1, (h.live y).mpr hy⟩

/-- The search follows no null and no dangling pointer. -/
theorem LinksLive.search_total (h : LinksLive s) (k : Nat) (hc : s.live c = true) :
    (∃ x, search s k c = some (.thread x) ∧ s.live x = true ∧ s.status x = .ready) ∨
      ∃ c', search s k c = some (.nobody (some c')) := by
  induction k generalizing c with
  | zero => exact .inr ⟨c, rfl⟩
  | succ k ih =>
    obtain ⟨n, hn, hlive⟩ := h c hc
    rw [search, hn]
    simp only [hlive, if_true]
    by_cases hready : s.status n = .ready
    · exact .inl ⟨n, by rw [if_pos hready], hlive, hready⟩
    · rw [if_neg hready]
      exact ih hlive

/-- What the search finds is the first ready thread on its way. -/
theorem search_first (h : List.IsChain (Link s.next s.prev) (c :: L)) {k : Nat}
    (hx : search s k c = some (.thread x)) :
    (∃ A B, L = A ++ x :: B ∧ (∀ y ∈ A, s.status y ≠ .ready) ∧ s.status x = .ready) ∨
      ∀ y ∈ L, s.status y ≠ .ready := by
  induction L generalizing c k with
  | nil =>
    refine .inr ?_
    intro y hy
    simp at hy
  | cons n L ih =>
    obtain ⟨hlink, hrest⟩ := List.isChain_cons_cons.mp h
    cases k with
    | zero => simp [search] at hx
    | succ k =>
      rw [search, hlink.1] at hx
      by_cases hready : s.status n = .ready
      · have hn : n = x := by
          by_cases hlive : s.live n = true
          · simpa [hlive, hready] using hx
          · simp [hlive] at hx
        subst hn
        exact .inl ⟨[], L, rfl, by simp, hready⟩
      · have hx' : search s k n = some (.thread x) := by
          by_cases hlive : s.live n = true
          · simpa [hlive, hready] using hx
          · simp [hlive] at hx
        rcases ih hrest hx' with ⟨A, B, rfl, hA, hxr⟩ | hnone
        · refine .inl ⟨n :: A, B, rfl, ?_, hxr⟩
          intro y hy
          rcases List.mem_cons.mp hy with rfl | hy
          · exact hready
          · exact hA y hy
        · refine .inr ?_
          intro y hy
          rcases List.mem_cons.mp hy with rfl | hy
          · exact hready
          · exact hnone y hy

/-- A ready thread that is near enough makes the search succeed. -/
theorem LinksLive.search_of_walk (h : LinksLive s) {j : Nat} (hc : s.live c = true)
    (hy : walk s.next (j + 1) c = some y) (hready : s.status y = .ready) (hj : j < k) :
    ∃ x, search s k c = some (.thread x) ∧ s.live x = true ∧ s.status x = .ready := by
  induction j generalizing c k with
  | zero =>
    obtain ⟨k, rfl⟩ := Nat.exists_eq_add_of_lt hj
    obtain ⟨n, hn, hlive⟩ := h c hc
    obtain rfl : n = y := by simpa [walk, hn] using hy
    refine ⟨n, ?_, hlive, hready⟩
    rw [search, hn]
    simp only [hlive, hready, if_true]
  | succ j ih =>
    obtain ⟨k, rfl⟩ : ∃ k', k = k' + 1 := ⟨k - 1, by omega⟩
    obtain ⟨n, hn, hlive⟩ := h c hc
    rw [walk, hn, Option.bind_some] at hy
    rw [search, hn]
    simp only [hlive, if_true]
    by_cases hnr : s.status n = .ready
    · exact ⟨n, by rw [if_pos hnr], hlive, hnr⟩
    · rw [if_neg hnr]
      exact ih hlive hy (by omega)

/-! ### The choice of the next thread -/

/-- `x` is the first ready thread of `L`. -/
structure FirstReady (s : State) (L : List Nat) (x : Nat) (A B : List Nat) : Prop where
  split : L = A ++ x :: B
  before : ∀ y ∈ A, s.status y ≠ .ready
  ready : s.status x = .ready

theorem dispatch_eq_resume (howner : (s.env x).owner = x) (hpoint : (s.env x).point.Resumable) :
    dispatch s x = some (s.resume x) := by
  rw [dispatch, howner]
  cases hp : (s.env x).point with
  | init => exact absurd hp hpoint.1
  | inExit => exact absurd hp hpoint.2
  | start => simp [continueAt, State.resume, State.log, State.setStatus, returns, hp]
  | user => simp [continueAt, State.resume, State.log, State.setStatus, returns, hp]
  | inLock i => simp [continueAt, State.resume, State.log, State.setStatus, returns, hp]
  | inWait i => simp [continueAt, State.resume, State.log, State.setStatus, returns, hp]

namespace Paused

theorem firstReady (h : Paused s l c) (hx : search s k c = some (.thread x))
    (hlive : s.live x = true) (hready : s.status x = .ready) :
    ∃ A B, FirstReady s (l ++ [c]) x A B := by
  rcases search_first h.ring.chain hx with ⟨A, B, hL, hA, -⟩ | hnone
  · exact ⟨A, B, hL, hA, hready⟩
  · exact absurd hready (hnone x ((h.live x).mp hlive))

theorem pickNext_of_search (h : Paused s l c) (p : Point)
    (hx : search s (maxThreads + 1) c = some (.thread x)) (hlive : s.live x = true) :
    pickNext s p = some (s.resume x) := by
  have hr := h.rest x ((h.live x).mp hlive)
  simp only [pickNext, h.curr, hx, Option.bind_eq_bind, Option.bind_some]
  exact dispatch_eq_resume hr.owner hr.point

/-- **The first ready thread gets the processor**, when one is within `MAX_THREADS + 1` links. -/
theorem pickNext_eq (h : Paused s l c) (p : Point) {j : Nat} (hj : j < maxThreads + 1)
    (hy : walk s.next (j + 1) c = some y) (hready : s.status y = .ready) :
    ∃ x A B, FirstReady s (l ++ [c]) x A B ∧ pickNext s p = some (s.resume x) := by
  obtain ⟨x, hx, hlive, hxr⟩ := h.linksLive.search_of_walk h.live_curr hy hready hj
  obtain ⟨A, B, hfirst⟩ := h.firstReady hx hlive hxr
  exact ⟨x, A, B, hfirst, h.pickNext_of_search p hx hlive⟩

/-- When no thread is found, `pthread_exit` goes on to `exit(0)`. -/
theorem pickNext_inExit (h : Paused s l c) :
    (∃ x A B, FirstReady s (l ++ [c]) x A B ∧ pickNext s .inExit = some (s.resume x)) ∨
      ∃ c', pickNext s .inExit = some { s with curr := c', life := .exited } := by
  rcases h.linksLive.search_total (maxThreads + 1) h.live_curr with ⟨x, hx, hlive, hxr⟩ | ⟨c', hc'⟩
  · obtain ⟨A, B, hfirst⟩ := h.firstReady hx hlive hxr
    exact .inl ⟨x, A, B, hfirst, h.pickNext_of_search .inExit hx hlive⟩
  · refine .inr ⟨some c', ?_⟩
    simp only [pickNext, h.curr, hc', Option.bind_eq_bind, Option.bind_some, continueAt]

theorem resume (h : Paused s l c) (hx : l ++ [c] = A ++ x :: B) :
    Sched (s.resume x) (B ++ A) x := by
  have hring := h.ring.rotate hx
  have hmem : ∀ y, y ∈ B ++ A ++ [x] ↔ y ∈ l ++ [c] := by
    intro y
    rw [hx]
    simp only [List.mem_append, List.mem_cons, List.not_mem_nil, or_false]
    tauto
  refine ⟨⟨h.first, rfl, hring, ?_, ?_, ?_⟩, rfl, ?_, ?_⟩
  · intro y
    exact (h.live y).trans (hmem y).symm
  · intro y hy
    exact h.fresh y ((hmem y).mp hy)
  · have hlen := congrArg List.length hx
    have hnum := h.num
    simp only [List.length_append, List.length_cons, List.length_nil] at hlen
    simp only [State.resume, State.setStatus, List.length_append]
    omega
  · exact Function.update_self x _ _
  · intro y hy
    have hne : y ≠ x := by
      rintro rfl
      exact (List.nodup_append.mp hring.nodup).2.2 y hy y (by simp) rfl
    obtain ⟨hstatus, howner, hpoint⟩ := h.rest y ((hmem y).mp (List.mem_append_left _ hy))
    refine ⟨?_, howner, hpoint⟩
    simp only [State.resume, State.setStatus, Function.update_of_ne hne]
    exact hstatus

end Paused

/-! ### The thread that had the processor -/

theorem Sched.suspend (h : Sched s l c) (hst : st = .ready ∨ st = .blocked) (hp : p.Resumable) :
    Paused (s.suspend c st p) l c := by
  refine ⟨⟨h.first, h.curr, h.ring, h.live, h.fresh, h.num⟩, ?_⟩
  intro x hx
  by_cases hxc : x = c
  · subst hxc
    refine ⟨?_, ?_, ?_⟩ <;>
      simp only [State.suspend, State.setStatus, State.setEnv, Function.update_self]
    · exact hst
    · exact hp
  · have hxl : x ∈ l := by simpa [hxc] using hx
    obtain ⟨hstatus, howner, hpoint⟩ := h.rest x hxl
    refine ⟨?_, ?_, ?_⟩ <;>
      simp only [State.suspend, State.setStatus, State.setEnv, Function.update_of_ne hxc]
    · exact hstatus
    · exact howner
    · exact hpoint

theorem schedule_of_blocked (hc : s.deref s.curr = some c) (hexec : s.exec = c)
    (hst : s.status c = .blocked) (p : Point) :
    schedule s p = pickNext (s.setEnv c ⟨c, p⟩) p := by
  have hst' : (s.setEnv c ⟨c, p⟩).status c = .blocked := hst
  simp only [schedule, hc, hexec, Option.bind_eq_bind, Option.bind_some, hst']

theorem schedule_of_running (hc : s.deref s.curr = some c) (hexec : s.exec = c)
    (hst : s.status c = .running) (p : Point) :
    schedule s p = pickNext (s.suspend c .ready p) p := by
  have hst' : (s.setEnv c ⟨c, p⟩).status c = .running := hst
  have hc' : (s.setEnv c ⟨c, p⟩).deref (s.setEnv c ⟨c, p⟩).curr = some c := hc
  simp only [schedule, hc, hexec, Option.bind_eq_bind, Option.bind_some, hst', pauseCurr, hc', if_true,
    State.suspend]

/-- `pthread_exit` of the running thread, up to the search: its block is unlinked. -/
def State.unlinked (s : State) (c p n : Nat) : State :=
  { ((s.setEnv c ⟨c, .inExit⟩).setStatus c .exited).setNext p (some n) with
    live := Function.update s.live c false
    prev := Function.update s.prev n (some p)
    numCurrThreads := s.numCurrThreads - 1
    curr := some p }

theorem Sched.unlinked (h : Sched s (l ++ [p']) c) :
    ∃ n, Paused (s.unlinked c p' n) l p' ∧
      schedule { s.setStatus c .exited with numCurrThreads := s.numCurrThreads - 1 } .inExit =
        pickNext (s.unlinked c p' n) .inExit := by
  obtain ⟨n, hn, hlink, hring⟩ := h.ring.remove
  have hpc : p' ≠ c := h.ne_of_mem (by simp)
  have hnc : n ≠ c := h.ne_of_mem hn
  have hrest : ∀ x ∈ l ++ [p'], x ≠ c ∧ Resting s x := fun x hx => ⟨h.ne_of_mem hx, h.rest x hx⟩
  refine ⟨n, ⟨⟨h.first, rfl, hring, ?_, ?_, ?_⟩, ?_⟩, ?_⟩
  · intro x
    simp only [State.unlinked, Function.update_apply]
    by_cases hxc : x = c
    · subst hxc
      simp only [if_true, Bool.false_eq_true, false_iff]
      intro hx
      exact (hrest x hx).1 rfl
    · rw [if_neg hxc, h.live x]
      simp [hxc]
  · intro x hx
    exact h.fresh x (List.mem_append_left _ hx)
  · have hnum := h.num
    simp only [State.unlinked, List.length_append, List.length_cons, List.length_nil] at hnum ⊢
    omega
  · intro x hx
    obtain ⟨hxc, hstatus, howner, hpoint⟩ := hrest x hx
    refine ⟨?_, ?_, ?_⟩ <;>
      simp only [State.unlinked, State.setStatus, State.setEnv, State.setNext, Function.update_of_ne hxc]
    · exact hstatus
    · exact howner
    · exact hpoint
  · have hlive : ∀ x ∈ l ++ [p'], s.live x = true := fun x hx =>
      (h.live x).mpr (List.mem_append_left _ hx)
    have hp' : s.live p' = true := hlive p' (by simp)
    have hn' : s.live n = true := hlive n hn
    have hnotrun : s.status p' ≠ .running := by
      rcases (hrest p' (by simp)).2.status with hst | hst <;> rw [hst] <;> decide
    simp only [schedule, unlinkCurr, pauseCurr, State.setStatus, State.setEnv, State.setNext,
      State.setPrev, State.deref, h.curr, h.live_curr, h.exec, h.ring.prev_eq.2, hlink.1, hp', hn',
      hnotrun, State.unlinked, Option.bind_eq_bind, Option.bind_some, Option.filter_some, if_true,
      Function.update_self, Function.update_of_ne hpc, Function.update_of_ne hnc, if_false]

/-! ### New threads -/

/-- `pthread_create` of a process that has the scheduler: the new block is live, linked and ready. -/
def State.spawned (s : State) (next prev : Nat → Option Nat) (head : Option Nat) : State :=
  { (s.setEnv s.nextTcb ⟨s.nextTcb, .start⟩).setStatus s.nextTcb .ready with
    live := Function.update s.live s.nextTcb true
    nextTcb := s.nextTcb + 1
    next := next
    prev := prev
    head := head
    numCurrThreads := s.numCurrThreads + 1
    threadId := Function.update s.threadId s.nextTcb s.threadIdCounter
    threadIdCounter := (s.threadIdCounter + 1) % 2 ^ 64 }

/-- The linking section, on a path from `curr` whose ends need not be linked when it is alone. -/
theorem linkNew_eq (hc : s.deref s.curr = some c) (hnum : s.numCurrThreads = l.length + 1)
    (hnodup : (l ++ [c]).Nodup) (hpath : List.IsChain (Link s.next s.prev) (c :: l))
    (hlast : ∀ l' p, l = l' ++ [p] → s.prev c = some p ∧ s.live p = true) (hy : y ∉ l ++ [c]) :
    ∃ next prev head, linkNew s y = some { s with next := next, prev := prev, head := head } ∧
      Ring next prev (l ++ [y]) c := by
  have hyc : y ≠ c := by
    rintro rfl
    simp at hy
  rcases List.eq_nil_or_concat l with rfl | ⟨l', p, rfl⟩
  · have hlone : [c].getLast? = some c := rfl
    have hring := Ring.insert hnodup hpath hlone hy
    have hone : s.numCurrThreads = 1 := by simpa using hnum
    refine ⟨_, _, s.head, ?_, hring⟩
    simp only [linkNew, hc, Option.bind_eq_bind, Option.bind_some, hone, if_true, State.setNext, State.setPrev]
    rw [Function.update_comm hyc (some c) (some y) s.next,
      Function.update_comm hyc.symm (some y) (some c) s.prev]
  · rw [List.concat_eq_append] at *
    obtain ⟨hprev, hlive⟩ := hlast l' p rfl
    have hend : (c :: (l' ++ [p])).getLast? = some p := by
      rw [← List.cons_append, List.getLast?_concat]
    have hring := Ring.insert hnodup hpath hend hy
    have hone : s.numCurrThreads ≠ 1 := by
      rw [hnum]
      simp only [List.length_append, List.length_cons, List.length_nil]
      omega
    refine ⟨_, _, some p, ?_, hring⟩
    simp only [linkNew, hc, Option.bind_eq_bind, Option.bind_some, hone, if_false, State.setNext,
      State.setPrev, hprev, deref_of_live hlive]

/-- A process with the scheduler that can link another thread: as between calls, but the
circle need not be closed. -/
structure Linkable (s : State) (l : List Nat) (c : Nat) : Prop where
  first : s.isFirstCall = false
  curr : s.curr = some c
  nodup : (l ++ [c]).Nodup
  path : List.IsChain (Link s.next s.prev) (c :: l)
  last : ∀ l' p, l = l' ++ [p] → s.prev c = some p
  live : ∀ x, s.live x = true ↔ x ∈ l ++ [c]
  fresh : ∀ x ∈ l ++ [c], x < s.nextTcb
  num : s.numCurrThreads = l.length + 1
  exec : s.exec = c
  running : s.status c = .running
  rest : ∀ x ∈ l, Resting s x

theorem Sched.linkable (h : Sched s l c) : Linkable s l c := by
  refine ⟨h.first, h.curr, h.ring.nodup, ?_, ?_, h.live, h.fresh, h.num, h.exec, h.running, h.rest⟩
  · have hchain := h.ring.chain
    rw [← List.cons_append] at hchain
    exact hchain.left_of_append
  · rintro l' p rfl
    exact h.ring.prev_eq.2

theorem Linkable.create (h : Linkable s l c) :
    ∃ next prev head, createThread s = some (some 0, s.spawned next prev head) ∧
      Sched (s.spawned next prev head) (l ++ [s.nextTcb]) c := by
  have hnew : ∀ x ∈ l ++ [c], x ≠ s.nextTcb := by
    rintro x hx rfl
    exact Nat.lt_irrefl _ (h.fresh _ hx)
  have hy : s.nextTcb ∉ l ++ [c] := fun hmem => hnew _ hmem rfl
  have hc : c ≠ s.nextTcb := hnew c (by simp)
  have hlive : ∀ x ∈ l ++ [c], (allocTcb s).live x = true := by
    intro x hx
    simp only [allocTcb, State.setEnv, Function.update_of_ne (hnew x hx)]
    exact (h.live x).mpr hx
  have hderef : (allocTcb s).deref (allocTcb s).curr = some c := by
    have hcurr : (allocTcb s).curr = some c := h.curr
    rw [hcurr]
    exact deref_of_live (hlive c (by simp))
  have hlast : ∀ l' p, l = l' ++ [p] → (allocTcb s).prev c = some p ∧ (allocTcb s).live p = true := by
    rintro l' p rfl
    exact ⟨h.last l' p rfl, hlive p (by simp)⟩
  obtain ⟨next, prev, head, hlink, hring⟩ := linkNew_eq hderef h.num h.nodup h.path hlast hy
  refine ⟨next, prev, head, ?_, ?_⟩
  · rw [createThread, hlink]
    rfl
  · refine ⟨⟨h.first, h.curr, hring, ?_, ?_, ?_⟩, h.exec, ?_, ?_⟩
    · intro x
      simp only [State.spawned, Function.update_apply]
      by_cases hx : x = s.nextTcb
      · subst hx
        simp
      · rw [if_neg hx, h.live x]
        simp [hx]
    · intro x hx
      have hx' : x ∈ l ++ [c] ∨ x = s.nextTcb := by
        simp only [List.mem_append, List.mem_cons, List.not_mem_nil, or_false] at hx ⊢
        tauto
      rcases hx' with hx' | rfl
      · exact Nat.lt_succ_of_lt (h.fresh x hx')
      · exact Nat.lt_succ_self _
    · have hnum := h.num
      simp only [State.spawned, List.length_append, List.length_cons, List.length_nil]
      omega
    · simp only [State.spawned, State.setStatus, Function.update_of_ne hc]
      exact h.running
    · intro x hx
      rcases List.mem_append.mp hx with hx | hx
      · obtain ⟨hstatus, howner, hpoint⟩ := h.rest x hx
        have hne := hnew x (List.mem_append_left _ hx)
        refine ⟨?_, ?_, ?_⟩ <;>
          simp only [State.spawned, State.setStatus, State.setEnv, Function.update_of_ne hne]
        · exact hstatus
        · exact howner
        · exact hpoint
      · obtain rfl : x = s.nextTcb := by simpa using hx
        refine ⟨?_, ?_, ?_⟩ <;>
          simp only [State.spawned, State.setStatus, State.setEnv, Function.update_self]
        · exact .inl trivial
        · exact ⟨by decide, by decide⟩

end EC440.ThreadSync
