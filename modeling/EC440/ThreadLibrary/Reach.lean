import EC440.ThreadLibrary.Calls

/-!
# Which threads the scheduler can reach

As long as the threads that have not exited are in one ring with `curr`, `schedule` can find them.
Two things spoil this.  A thread that is alone links a new thread behind `head`, which need not be
the thread itself: when it is another one, that has exited, the two are a ring without the thread
(`headExited_lost`).  And `schedule` gives up after `MAX_THREADS + 1` links, which threads that have
exited can take up.  Without the two (`Fair`) no thread is lost (`run_noneLost`).
-/

namespace EC440.ThreadLibrary

open EC440.Lib

variable {s s' : State} {l A B : List Nat} {c x y k : Nat} {p : Point} {cl : Call}

/-! ### No thread is lost -/

/-- Every ready thread is reachable from `curr`, `schedule` never came back without a thread while one
was ready, and the process exits only when all threads have. -/
structure NoneLost (s : State) : Prop where
  reachable : s.life = .active → s.isFirstCall = false → ∀ x < s.nextTcb, s.status x = .ready →
    ∃ c k, s.curr = some c ∧ walk s.next k c = some x
  dispatches : s.missed = false
  exits : s.life = .exited → ∀ x < s.nextTcb, s.status x = .exited

/-- One of the next `MAX_THREADS + 1` threads behind `curr` has not exited; with `again` it may be `curr`
itself. -/
def unfinishedAhead (s : State) (again : Bool) : Bool :=
  match s.curr with
  | none => false
  | some c =>
    (List.range (maxThreads + 1)).any fun j =>
      match walk s.next (j + 1) c with
      | none => false
      | some y => s.status y ≠ .exited && (again || y ≠ c)

/-- A thread that is alone creates another one only when it is `head`, and a search starts only where
one of the next `MAX_THREADS + 1` threads has not exited. -/
def Fair (s : State) : Call → Prop
  | .create => s.isFirstCall = false → s.numCurrThreads = 1 → s.head = s.curr
  | .exit => 1 < s.numCurrThreads → unfinishedAhead s false = true
  | .alarm => s.isFirstCall = false → unfinishedAhead s true = true

instance (s : State) : (cl : Call) → Decidable (Fair s cl)
  | .create => inferInstanceAs (Decidable (_ → _ → _))
  | .exit => inferInstanceAs (Decidable (_ → _))
  | .alarm => inferInstanceAs (Decidable (_ → _))

theorem unfinishedAhead_iff {again : Bool} (hc : s.curr = some c) :
    unfinishedAhead s again = true ↔ ∃ j y, j < maxThreads + 1 ∧ walk s.next (j + 1) c = some y ∧
      s.status y ≠ .exited ∧ (again = true ∨ y ≠ c) := by
  simp only [unfinishedAhead, hc, List.any_eq_true, List.mem_range]
  constructor
  · rintro ⟨j, hj, hy⟩
    cases hw : walk s.next (j + 1) c with
    | none => simp [hw] at hy
    | some y => exact ⟨j, y, hj, hw, by simpa [hw] using hy⟩
  · rintro ⟨j, y, hj, hw, hy⟩
    exact ⟨j, hj, by simpa [hw] using hy⟩

/-! ### The invariant -/

/-- The thread `x` waits for the processor, with its own context saved. -/
structure Resting (s : State) (x : Nat) : Prop where
  status : s.status x = .ready
  owner : (s.env x).owner = x
  point : (s.env x).point = .start ∨ (s.env x).point = .user

/-- The threads that have not exited are in one ring with `curr`. -/
structure Circle (s : State) (l : List Nat) (c : Nat) : Prop where
  first : s.isFirstCall = false
  curr : s.curr = some c
  ring : Ring s.next s.prev l c
  bound : ∀ x ∈ l ++ [c], x < s.nextTcb
  gone : ∀ x < s.nextTcb, x ∉ l ++ [c] → s.status x = .exited

/-- Between calls: `c` has the processor. -/
structure Sched (s : State) (l : List Nat) (c : Nat) : Prop extends Circle s l c where
  exec : s.exec = c
  running : s.status c = .running
  rest : ∀ x ∈ l, s.status x = .exited ∨ Resting s x
  num : s.numCurrThreads = l.countP (fun x => s.status x = .ready) + 1

/-- Inside `schedule`: no thread has the processor. -/
structure Paused (s : State) (l : List Nat) (c : Nat) : Prop extends Circle s l c where
  rest : ∀ x ∈ l ++ [c], s.status x = .exited ∨ Resting s x
  num : s.numCurrThreads = (l ++ [c]).countP fun x => s.status x = .ready

theorem Sched.ne_of_mem (h : Sched s l c) (hx : x ∈ l) : x ≠ c := by
  rintro rfl
  exact (List.nodup_append.mp h.ring.nodup).2.2 x hx x (by simp) rfl

/-! ### The search -/

/-- The search stops at a ready thread when one is near enough. -/
theorem search_of_walk (hring : Ring s.next s.prev l c) (hx : x ∈ l ++ [c]) {j : Nat} (hj : j < k)
    (hw : walk s.next (j + 1) x = some y) (hready : s.status y = .ready) :
    ∃ z ∈ l ++ [c], search s k x = .thread z ∧ s.status z = .ready := by
  induction k generalizing x j with
  | zero => exact absurd hj (Nat.not_lt_zero j)
  | succ k ih =>
    obtain ⟨n, hn, hlink, -⟩ := hring.exists_next hx
    rw [search, hlink]
    by_cases hst : s.status n = .ready
    · exact ⟨n, hn, by simp only [if_pos hst], hst⟩
    · simp only [if_neg hst]
      rw [walk, hlink, Option.bind_some] at hw
      cases j with
      | zero =>
        obtain rfl : n = y := by simpa [walk] using hw
        exact absurd hready hst
      | succ j => exact ih hn (Nat.lt_of_succ_lt_succ hj) hw

/-- The thread `x` has the processor and goes on where it was suspended. -/
def State.resume (s : State) (x : Nat) : State :=
  { s.setStatus x .running with curr := some x, exec := x }

theorem Resting.dispatch_eq (h : Resting s x) : dispatch s x = some (s.resume x) := by
  rw [dispatch, h.owner]
  rcases h.point with hp | hp <;> rw [hp] <;> rfl

theorem countP_resume {L : List Nat} (hnodup : L.Nodup) (hx : x ∈ L) (hready : s.status x = .ready) :
    L.countP (fun y => s.status y = .ready) =
      L.countP (fun y => (s.resume x).status y = .ready) + 1 := by
  obtain ⟨A, B, rfl⟩ := List.append_of_mem hx
  have hA : ∀ y ∈ A ++ B, y ≠ x := by
    rintro y hy rfl
    have hperm : (A ++ y :: B).Perm (y :: (A ++ B)) := List.perm_middle
    exact (List.nodup_cons.mp (hperm.nodup_iff.mp hnodup)).1 hy
  have hcongr : ∀ L : List Nat, (∀ y ∈ L, y ∈ A ++ B) →
      L.countP (fun y => (s.resume x).status y = .ready) = L.countP (fun y => s.status y = .ready) := by
    intro L hL
    refine List.countP_congr fun y hy => ?_
    simp only [State.resume, State.setStatus, Function.update_of_ne (hA y (hL y hy))]
  rw [List.countP_append, List.countP_append, List.countP_cons, List.countP_cons,
    hcongr A fun y hy => List.mem_append_left B hy, hcongr B fun y hy => List.mem_append_right A hy]
  simp [hready, State.resume, State.setStatus]
  omega

theorem Paused.resume (h : Paused s l c) (hx : x ∈ l ++ [c]) (hready : s.status x = .ready) :
    ∃ l', Sched (s.resume x) l' x := by
  obtain ⟨A, B, hAB⟩ := List.append_of_mem hx
  have hring := h.ring.rotate hAB
  have hperm : (B ++ A ++ [x]).Perm (l ++ [c]) := by
    rw [hAB]
    exact (List.perm_append_comm.append_right [x]).trans
      ((List.append_assoc A B [x]).symm ▸ (List.perm_append_singleton x B).append_left A)
  have hmem : ∀ y, y ∈ B ++ A ++ [x] ↔ y ∈ l ++ [c] := fun y => hperm.mem_iff
  have hne : ∀ y ∈ B ++ A, y ≠ x := by
    rintro y hy rfl
    exact (List.nodup_append.mp hring.nodup).2.2 y hy y (by simp) rfl
  have hst : ∀ y, y ≠ x → (s.resume x).status y = s.status y := by
    intro y hy
    simp only [State.resume, State.setStatus, Function.update_of_ne hy]
  refine ⟨B ++ A, ⟨h.first, rfl, hring, fun y hy => h.bound y ((hmem y).mp hy), ?_⟩, rfl, ?_, ?_, ?_⟩
  · intro y hy hout
    have hyx : y ≠ x := by
      rintro rfl
      exact hout (by simp)
    rw [hst y hyx]
    exact h.gone y hy fun hin => hout ((hmem y).mpr hin)
  · simp [State.resume, State.setStatus]
  · intro y hy
    have hyx := hne y hy
    rcases h.rest y ((hmem y).mp (List.mem_append_left _ hy)) with hex | ⟨hr, howner, hpoint⟩
    · exact .inl (by rw [hst y hyx]; exact hex)
    · exact .inr ⟨by rw [hst y hyx]; exact hr, howner, hpoint⟩
  · have hcount := countP_resume h.ring.nodup hx hready
    have hnum : (s.resume x).numCurrThreads = s.numCurrThreads := rfl
    have hperm' := hperm.countP_eq fun y => decide ((s.resume x).status y = .ready)
    rw [List.countP_append] at hperm'
    have hself : [x].countP (fun y => decide ((s.resume x).status y = .ready)) = 0 := by
      simp [State.resume, State.setStatus]
    rw [hnum, h.num]
    omega

/-- The state in which `schedule` starts to search. -/
def State.suspend (s : State) (c : Nat) (st : Status) (p : Point) : State :=
  (s.setEnv c ⟨c, p⟩).setStatus c st

/-- `schedule` goes on with a ready thread when one is near enough. -/
theorem Paused.schedule (h : Paused s l c) {j : Nat} (hj : j < maxThreads + 1)
    (hw : walk s.next (j + 1) c = some y) (hready : s.status y = .ready) :
    ∃ x l', search s (maxThreads + 1) c = .thread x ∧ dispatch s x = some (s.resume x) ∧
      Sched (s.resume x) l' x := by
  obtain ⟨x, hx, hsearch, hxr⟩ := search_of_walk h.ring (by simp : c ∈ l ++ [c]) hj hw hready
  obtain ⟨l', hs⟩ := h.resume hx hxr
  have hrest : Resting s x := (h.rest x hx).resolve_left (by rw [hxr]; decide)
  exact ⟨x, l', hsearch, hrest.dispatch_eq, hs⟩

/-- The thread that has the processor is suspended, ready or for good. -/
theorem Sched.paused (h : Sched s l c) {st : Status} {n : Int}
    (hst : st = .ready ∧ p = .user ∧ n = s.numCurrThreads ∨ st = .exited ∧ n = s.numCurrThreads - 1) :
    Paused { s.suspend c st p with numCurrThreads := n } l c := by
  have hne : ∀ x, x ≠ c →
      (s.suspend c st p).status x = s.status x ∧ (s.suspend c st p).env x = s.env x := by
    intro x hx
    simp only [State.suspend, State.setStatus, State.setEnv, Function.update_of_ne hx, and_self]
  have hself : (s.suspend c st p).status c = st ∧ (s.suspend c st p).env c = ⟨c, p⟩ := by
    simp [State.suspend, State.setStatus, State.setEnv]
  refine ⟨⟨h.first, h.curr, h.ring, h.bound, ?_⟩, ?_, ?_⟩
  · intro x hx hout
    have hxc : x ≠ c := by
      rintro rfl
      exact hout (by simp)
    exact (hne x hxc).1.trans (h.gone x hx hout)
  · intro x hx
    by_cases hxc : x = c
    · subst hxc
      rcases hst with ⟨rfl, rfl, -⟩ | ⟨rfl, -⟩
      · exact .inr ⟨hself.1, congrArg Context.owner hself.2, .inr (congrArg Context.point hself.2)⟩
      · exact .inl hself.1
    · rcases h.rest x (by simpa [hxc] using hx) with hex | ⟨hr, howner, hpoint⟩
      · exact .inl ((hne x hxc).1.trans hex)
      · refine .inr ⟨(hne x hxc).1.trans hr, ?_, ?_⟩
        · exact (congrArg Context.owner (hne x hxc).2).trans howner
        · simpa only [(hne x hxc).2] using hpoint
  · have hcongr : l.countP (fun x => (s.suspend c st p).status x = .ready) =
        l.countP fun x => s.status x = .ready :=
      List.countP_congr fun x hx => by rw [(hne x (h.ne_of_mem hx)).1]
    have hnum := h.num
    simp only [List.countP_append, hcongr, List.countP_singleton, hself.1]
    rcases hst with ⟨rfl, -, rfl⟩ | ⟨rfl, rfl⟩
    · simp only [decide_true, if_true]
      omega
    · simp only [reduceCtorEq, decide_false, Bool.false_eq_true, if_false]
      omega

theorem schedule_eq {s₁ : State} (hcurr : s.curr = some c) (hexec : s.exec = c)
    (hs₁ : (if s.status c = .running then (s.setEnv c ⟨c, p⟩).setStatus c .ready
      else s.setEnv c ⟨c, p⟩) = s₁)
    (hx : search s₁ (maxThreads + 1) c = .thread x) : schedule s p = dispatch s₁ x := by
  have hst : (s.setEnv c ⟨c, p⟩).status = s.status := rfl
  simp only [schedule, hcurr, hexec, Option.bind_eq_bind, Option.bind_some, hst, hs₁, hx]

/-! ### The calls -/

/-- A thread of the ring that has not exited is ready once `curr` is suspended. -/
theorem Sched.ready_of_walk (h : Sched s l c) {st : Status} (hw : walk s.next k c = some y)
    (hy : s.status y ≠ .exited) (hc : st = .ready ∨ y ≠ c) : (s.suspend c st p).status y = .ready := by
  by_cases hyc : y = c
  · obtain rfl : st = .ready := hc.resolve_right (not_not_intro hyc)
    simp [State.suspend, State.setStatus, hyc]
  · have hmem := h.ring.walk_mem (by simp) hw
    simp only [State.suspend, State.setStatus, State.setEnv, Function.update_of_ne hyc]
    exact ((h.rest y (by simpa [hyc] using hmem)).resolve_left hy).status

theorem Sched.alarm (h : Sched s l c) (hf : Fair s .alarm) :
    ∃ l' c' s', ThreadLibrary.alarm s = some s' ∧ Sched s' l' c' ∧ s'.missed = s.missed ∧
      s'.life = s.life := by
  obtain ⟨j, y, hj, hw, hst, -⟩ := (unfinishedAhead_iff h.curr).mp (hf h.first)
  have hp : Paused (s.suspend c .ready .user) l c := h.paused (.inl ⟨rfl, rfl, rfl⟩)
  obtain ⟨x, l', hsearch, hdispatch, hs⟩ := hp.schedule hj hw (h.ready_of_walk hw hst (.inl rfl))
  refine ⟨l', x, _, ?_, hs, rfl, rfl⟩
  rw [ThreadLibrary.alarm, h.first, if_neg (by decide),
    schedule_eq h.curr h.exec (if_pos h.running) hsearch]
  exact hdispatch

/-- The others go on when a thread exits. -/
theorem Sched.exit (h : Sched s l c) (hf : Fair s .exit) (hnum : 1 < s.numCurrThreads) :
    ∃ l' c' s', pthreadExit s = some s' ∧ Sched s' l' c' ∧ s'.missed = s.missed ∧
      s'.life = s.life := by
  obtain ⟨j, y, hj, hw, hst, hy⟩ := (unfinishedAhead_iff h.curr).mp (hf hnum)
  have hyc : y ≠ c := by simpa using hy
  let s₁ : State := { s.suspend c .exited .inExit with numCurrThreads := s.numCurrThreads - 1 }
  have hp : Paused s₁ l c := h.paused (.inr ⟨rfl, rfl⟩)
  obtain ⟨x, l', hsearch, hdispatch, hs⟩ := hp.schedule hj hw (h.ready_of_walk hw hst (.inr hyc))
  refine ⟨l', x, _, ?_, hs, rfl, rfl⟩
  let s₂ : State := { s.setStatus c .exited with numCurrThreads := s.numCurrThreads - 1 }
  have hpos : 0 < s₂.numCurrThreads := by
    simp only [s₂]
    omega
  have hexit : pthreadExit s = schedule s₂ .inExit := by
    simp only [pthreadExit, h.curr, Option.bind_eq_bind, Option.bind_some]
    exact if_pos hpos
  have hrun : ¬ s₂.status c = .running := by simp [s₂, State.setStatus]
  have hsched : schedule s₂ .inExit = dispatch s₁ x :=
    schedule_eq (s := s₂) h.curr h.exec (if_neg hrun) hsearch
  rw [hexit, hsched]
  exact hdispatch

/-- The last thread that exits ends the process. -/
theorem Sched.exit_last (h : Sched s l c) (hnum : ¬ 1 < s.numCurrThreads) :
    pthreadExit s = some { s.setStatus c .exited with numCurrThreads := s.numCurrThreads - 1, life := .exited } ∧
      ∀ x < s.nextTcb, (s.setStatus c .exited).status x = .exited := by
  constructor
  · have hpos : ¬ 0 < (s.setStatus c .exited).numCurrThreads - 1 := by
      simp only [State.setStatus]
      omega
    simp only [pthreadExit, h.curr, Option.bind_eq_bind, Option.bind_some]
    exact if_neg hpos
  · intro x hx
    by_cases hxc : x = c
    · simp [State.setStatus, hxc]
    · simp only [State.setStatus, Function.update_of_ne hxc]
      by_cases hl : x ∈ l
      · refine (h.rest x hl).resolve_right fun hr => ?_
        have hpos : 0 < l.countP fun x => s.status x = .ready :=
          List.countP_pos_iff.mpr ⟨x, hl, by simpa using hr.status⟩
        have := h.num
        omega
      · exact h.gone x hx (by simpa [hxc] using hl)

/-- The state behind `pthread_create`, with the links it has made. -/
def State.spawned (s : State) (next prev : Nat → Option Nat) (head : Option Nat) : State :=
  { (s.setEnv s.nextTcb ⟨s.nextTcb, .start⟩).setStatus s.nextTcb .ready with
    nextTcb := s.nextTcb + 1
    next := next
    prev := prev
    head := head
    numCurrThreads := s.numCurrThreads + 1
    threadId := Function.update s.threadId s.nextTcb s.threadIdCounter
    threadIdCounter := (s.threadIdCounter + 1) % 2 ^ 64 }

/-- `c` at work and the threads `l`, of which the others are not in need. -/
structure Manned (s : State) (l : List Nat) (c : Nat) : Prop where
  first : s.isFirstCall = false
  curr : s.curr = some c
  bound : ∀ x ∈ l ++ [c], x < s.nextTcb
  gone : ∀ x < s.nextTcb, x ∉ l ++ [c] → s.status x = .exited
  exec : s.exec = c
  running : s.status c = .running
  rest : ∀ x ∈ l, s.status x = .exited ∨ Resting s x
  num : s.numCurrThreads = l.countP (fun x => s.status x = .ready) + 1

theorem Manned.spawned (h : Manned s l c) {next prev : Nat → Option Nat} (head : Option Nat)
    (hring : Ring next prev (l ++ [s.nextTcb]) c) :
    Sched (s.spawned next prev head) (l ++ [s.nextTcb]) c := by
  have hnew : ∀ x ∈ l ++ [c], x ≠ s.nextTcb := fun x hx => Nat.ne_of_lt (h.bound x hx)
  have hst : ∀ x, x ≠ s.nextTcb → (s.spawned next prev head).status x = s.status x ∧
      (s.spawned next prev head).env x = s.env x := by
    intro x hx
    simp only [State.spawned, State.setStatus, State.setEnv, Function.update_of_ne hx, and_self]
  have hself : (s.spawned next prev head).status s.nextTcb = .ready ∧
      (s.spawned next prev head).env s.nextTcb = ⟨s.nextTcb, .start⟩ := by
    simp [State.spawned, State.setStatus, State.setEnv]
  have hmem : ∀ x, x ∈ l ++ [s.nextTcb] ++ [c] ↔ x = s.nextTcb ∨ x ∈ l ++ [c] := by
    intro x
    simp only [List.mem_append, List.mem_singleton]
    tauto
  refine ⟨⟨h.first, h.curr, hring, ?_, ?_⟩, h.exec, ?_, ?_, ?_⟩
  · intro x hx
    rcases (hmem x).mp hx with rfl | hx'
    · exact Nat.lt_succ_self _
    · exact Nat.lt_succ_of_lt (h.bound x hx')
  · intro x hx hout
    have hxy : x ≠ s.nextTcb := fun hxy => hout ((hmem x).mpr (.inl hxy))
    have hlt : x < s.nextTcb := Nat.lt_of_le_of_ne (Nat.le_of_lt_succ hx) hxy
    rw [(hst x hxy).1]
    exact h.gone x hlt fun hin => hout ((hmem x).mpr (.inr hin))
  · rw [(hst c (hnew c (by simp))).1]
    exact h.running
  · intro x hx
    rcases List.mem_append.mp hx with hx | hx
    · have hxy := hnew x (List.mem_append_left _ hx)
      rcases h.rest x hx with hex | ⟨hr, howner, hpoint⟩
      · exact .inl ((hst x hxy).1.trans hex)
      · refine .inr ⟨(hst x hxy).1.trans hr, ?_, ?_⟩
        · rw [(hst x hxy).2]; exact howner
        · rw [(hst x hxy).2]; exact hpoint
    · obtain rfl : x = s.nextTcb := by simpa using hx
      exact .inr ⟨hself.1, by rw [hself.2], by rw [hself.2]; exact .inl rfl⟩
  · have hcongr : l.countP (fun x => (s.spawned next prev head).status x = .ready) =
        l.countP fun x => s.status x = .ready :=
      List.countP_congr fun x hx => by rw [(hst x (hnew x (List.mem_append_left _ hx))).1]
    have hnum := h.num
    have hnum' : (s.spawned next prev head).numCurrThreads = s.numCurrThreads + 1 := rfl
    rw [List.countP_append, hcongr, hnum']
    simp only [List.countP_singleton, hself.1, decide_true, if_true]
    omega

/-- A thread that is alone and is `head` is a ring with the new thread. -/
theorem Manned.create_alone (h : Manned s [] c) (hhead : s.head = some c) :
    ∃ s', createThread s = some s' ∧ Sched s' [s.nextTcb] c ∧ s'.missed = s.missed ∧
      s'.life = s.life := by
  have hone : s.numCurrThreads = 1 := by simpa using h.num
  have hyc : s.nextTcb ≠ c := Nat.ne_of_gt (h.bound c (by simp))
  have hlone : [c].getLast? = some c := rfl
  have hpath : List.IsChain (Link s.next s.prev) [c] := List.isChain_singleton c
  have hring := Ring.insert (l := []) (by simp) hpath hlone (by simpa using hyc)
  refine ⟨_, ?_, h.spawned s.head hring, rfl, rfl⟩
  simp only [createThread, linkNew, State.setEnv, hone, if_true, hhead, Option.bind_eq_bind,
    Option.bind_some, State.setNext, State.setPrev]
  rw [Function.update_comm hyc (some c) (some s.nextTcb) s.next,
    Function.update_comm hyc.symm (some s.nextTcb) (some c) s.prev]
  simp only [State.spawned, State.setStatus, State.setEnv, hone, hhead]

theorem Sched.create_more (h : Sched s l c) (hnum : s.numCurrThreads ≠ 1) :
    ∃ s', createThread s = some s' ∧ Sched s' (l ++ [s.nextTcb]) c ∧ s'.missed = s.missed ∧
      s'.life = s.life := by
  have hy : s.nextTcb ∉ l ++ [c] := fun hmem => Nat.lt_irrefl _ (h.bound _ hmem)
  rcases List.eq_nil_or_concat l with rfl | ⟨l', p, rfl⟩
  · exact absurd (by simpa using h.num) hnum
  · rw [List.concat_eq_append] at *
    have hprev : s.prev c = some p := h.ring.prev_eq.2
    have hend : (c :: (l' ++ [p])).getLast? = some p := by
      rw [← List.cons_append, List.getLast?_concat]
    have hpath : List.IsChain (Link s.next s.prev) (c :: (l' ++ [p])) := by
      have hchain := h.ring.chain
      rw [← List.cons_append] at hchain
      exact hchain.left_of_append
    have hring := Ring.insert h.ring.nodup hpath hend hy
    have hmanned : Manned s (l' ++ [p]) c :=
      ⟨h.first, h.curr, h.bound, h.gone, h.exec, h.running, h.rest, h.num⟩
    refine ⟨_, ?_, hmanned.spawned (some p) hring, rfl, rfl⟩
    simp only [createThread, linkNew, State.setEnv, hnum, if_false, h.curr, hprev,
      Option.bind_eq_bind, Option.bind_some, State.setNext, State.setPrev]
    simp only [State.spawned, State.setStatus, State.setEnv, h.curr]

/-- A thread that is alone: the others have exited. -/
theorem Sched.manned_alone (h : Sched s l c) (hnum : s.numCurrThreads = 1) : Manned s [] c := by
  refine ⟨h.first, h.curr, fun x hx => h.bound x (List.mem_append_right l (by simpa using hx)), ?_, h.exec, h.running,
    by simp, by simpa using hnum⟩
  intro x hx hxc
  by_cases hl : x ∈ l
  · refine (h.rest x hl).resolve_right fun hr => ?_
    have hpos : 0 < l.countP fun x => s.status x = .ready :=
      List.countP_pos_iff.mpr ⟨x, hl, by simpa using hr.status⟩
    have := h.num
    omega
  · exact h.gone x hx (by simpa [hl] using hxc)

/-! ### Runs -/

/-- The process before and after the first `pthread_create`. -/
inductive Stage (s : State) : Prop
  | idle (first : s.isFirstCall = true) (curr : s.curr = none) (exec : s.exec = 0) (new : s.nextTcb = 0)
  | sched {l : List Nat} {c : Nat} (h : Sched s l c)

structure Kept (s : State) : Prop where
  stage : s.life = .active → Stage s
  missed : s.missed = false
  ended : s.life = .exited → ∀ x < s.nextTcb, s.status x = .exited

theorem Kept.of_sched (h : Sched s' l c) (hmissed : s'.missed = false) (hlife : s'.life = .active) :
    Kept s' :=
  ⟨fun _ => .sched h, hmissed, fun hover => by rw [hlife] at hover; cases hover⟩

theorem manned_init (hexec : s.exec = 0) (hnew : s.nextTcb = 0) :
    Manned (schedulerInit { s with isFirstCall := false }) [] 0 := by
  refine ⟨rfl, ?_, ?_, ?_, hexec, ?_, by simp, rfl⟩
  · simp [schedulerInit, hnew]
  · intro x hx
    obtain rfl : x = 0 := by simpa using hx
    simp [schedulerInit]
  · intro x hx hx0
    simp only [schedulerInit, hnew] at hx
    exact absurd (by omega : x = 0) (by simpa using hx0)
  · simp [schedulerInit, State.setStatus, hnew]

theorem Kept.create (h : Kept s) (hlife : s.life = .active) (hf : Fair s .create) :
    ∃ s', pthreadCreate s = some s' ∧ Kept s' := by
  cases h.stage hlife with
  | idle hfirst hcurr hexec hnew =>
    have hm := manned_init hexec hnew
    obtain ⟨s', hs', hsched, hmissed, hlife'⟩ := hm.create_alone (by simp [schedulerInit, hnew])
    refine ⟨s', by rw [pthreadCreate, if_pos hfirst]; exact hs', Kept.of_sched hsched ?_ ?_⟩
    · exact hmissed.trans h.missed
    · exact hlife'.trans hlife
  | @sched l c hs =>
    have heq : pthreadCreate s = createThread s := by
      rw [pthreadCreate, if_neg (by rw [hs.first]; decide)]
    rw [heq]
    by_cases hnum : s.numCurrThreads = 1
    · obtain ⟨s', hs', hsched, hmissed, hlife'⟩ :=
        (hs.manned_alone hnum).create_alone ((hf hs.first hnum).trans hs.curr)
      exact ⟨s', hs', Kept.of_sched hsched (hmissed.trans h.missed) (hlife'.trans hlife)⟩
    · obtain ⟨s', hs', hsched, hmissed, hlife'⟩ := hs.create_more hnum
      exact ⟨s', hs', Kept.of_sched hsched (hmissed.trans h.missed) (hlife'.trans hlife)⟩

theorem Kept.undefined (h : Kept s) : Kept { s with life := .undefined } :=
  ⟨nofun, h.missed, nofun⟩

theorem Kept.call (h : Kept s) (hf : Fair s cl) : Kept (call s cl).2 := by
  unfold ThreadLibrary.call
  split
  · rename_i hlife
    cases cl with
    | create =>
      obtain ⟨s', hs', hk⟩ := h.create hlife hf
      simpa only [body, hs'] using hk
    | exit =>
      cases h.stage hlife with
      | idle _ hcurr =>
        have hnone : pthreadExit s = none := by simp [pthreadExit, hcurr]
        simpa only [body, hnone] using h.undefined
      | sched hs =>
        by_cases hnum : 1 < s.numCurrThreads
        · obtain ⟨l', c', s', hs', hsched, hmissed, hlife'⟩ := hs.exit hf hnum
          simp only [body, hs']
          exact Kept.of_sched hsched (hmissed.trans h.missed) (hlife'.trans hlife)
        · obtain ⟨hexit, hall⟩ := hs.exit_last hnum
          simp only [body, hexit]
          exact ⟨nofun, h.missed, fun _ => hall⟩
    | alarm =>
      cases h.stage hlife with
      | idle hfirst =>
        have hsame : ThreadLibrary.alarm s = some s := by rw [ThreadLibrary.alarm, if_pos hfirst]
        simpa only [body, hsame] using h
      | sched hs =>
        obtain ⟨l', c', s', hs', hsched, hmissed, hlife'⟩ := hs.alarm hf
        simp only [body, hs']
        exact Kept.of_sched hsched (hmissed.trans h.missed) (hlife'.trans hlife)
  · exact h

theorem kept_start : Kept State.start :=
  ⟨fun _ => .idle rfl rfl rfl rfl, rfl, nofun⟩

theorem Kept.noneLost (h : Kept s) : NoneLost s := by
  refine ⟨?_, h.missed, h.ended⟩
  intro hlife hfirst x hx hready
  cases h.stage hlife with
  | idle hfirst' => rw [hfirst] at hfirst'; cases hfirst'
  | @sched l c hs =>
    have hmem : x ∈ l ++ [c] := by
      by_contra hout
      rw [hs.gone x hx hout] at hready
      cases hready
    obtain ⟨k, ⟨-, hk⟩, -⟩ := hs.ring.existsUnique_walk hmem
    exact ⟨c, k, hs.curr, hk⟩

/-- **No thread is lost** in a run in which a thread that is alone creates others only when it is `head`,
and no search starts in front of `MAX_THREADS + 1` threads that have exited. -/
theorem run_noneLost (cs : List Call) (hrun : RunOk call Fair State.start cs) :
    NoneLost (run call State.start cs) :=
  (run_invariant (fun _ _ h hf => Kept.call h hf) cs _ kept_start hrun).noneLost

/-- Main exits first; the thread it has created creates another one, is preempted by it and never
comes back. -/
def headExited : List Call := [.create, .exit, .create, .alarm, .exit]

/-- The process exits although a thread is ready. -/
theorem headExited_lost : ¬ NoneLost (run call State.start headExited) := by
  intro h
  have hexited := h.exits (by decide +kernel) 1 (by decide +kernel)
  revert hexited
  decide +kernel

/-- Main creates threads, alone and in company, and outlives them. -/
def mainStays : List Call :=
  [.create, .alarm, .exit, .create, .create, .alarm, .alarm, .exit, .alarm, .exit, .alarm]

theorem run_noneLost_mainStays : NoneLost (run call State.start mainStays) :=
  run_noneLost mainStays (by decide +kernel)

end EC440.ThreadLibrary
