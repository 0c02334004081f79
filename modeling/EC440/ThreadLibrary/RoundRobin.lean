import EC440.Lib.Turns
import EC440.ThreadLibrary.Reach

/-!
# The first library takes turns

What the library is for is a queue of the threads that have not exited, the first of which gets the processor
next (`Rotation`).  In the library the others stay in the ring, and `schedule` passes them over.  As long as
it finds the ring whole and does not give up (`Fair`) nobody can tell the difference
(`library_takes_turns`), and everybody comes to its turn (`library_serves_everyone`).
-/

namespace EC440.ThreadLibrary

open EC440.Lib

variable {s s' : State} {l L A B q : List Nat} {c x y k : Nat} {p : Point} {cl : Call}

/-! ### The queue -/

/-- `created` is the number of threads so far, zero before the first `pthread_create`. -/
structure Rotation where
  created : Nat
  running : Nat
  others : List Nat
  life : Life
deriving DecidableEq

namespace Rotation

/-- Before the first call. -/
def start : Rotation := ⟨0, 0, [], .active⟩

variable (r : Rotation)

/-- The first thread of the queue gets the processor.  When there is none, the process ends. -/
def turn : List Nat → Rotation
  | [] => { r with life := .exited }
  | x :: q => { r with running := x, others := q }

/-- A process that was not yet scheduled has no thread to exit. -/
def answer : Call → Rotation
  | .create =>
    let n := max r.created 1
    { r with created := n + 1, others := r.others ++ [n] }
  | .exit => if r.created = 0 then { r with life := .undefined } else r.turn r.others
  | .alarm => if r.created = 0 then r else r.turn (r.others ++ [r.running])

def step (cl : Call) : Unit × Rotation := ((), if r.life = .active then r.answer cl else r)

end Rotation

/-! ### The ring that is a queue -/

/-- The threads of `L` that have not exited. -/
def unfinished (s : State) (L : List Nat) : List Nat := L.filter fun x => s.status x ≠ .exited

/-- The process and the queue, or what is left of them. -/
inductive Rotates (s : State) (r : Rotation) : Prop
  | idle (first : s.isFirstCall = true) (curr : s.curr = none) (exec : s.exec = 0) (new : s.nextTcb = 0)
      (life : s.life = .active) (start : r = Rotation.start)
  | sched {l : List Nat} (h : Sched s l r.running) (life : s.life = .active) (active : r.life = .active)
      (created : s.nextTcb = r.created) (others : unfinished s l = r.others)
  | finished (life : s.life ≠ .active) (same : r.life = s.life)

theorem unfinished_append (s : State) (A B : List Nat) :
    unfinished s (A ++ B) = unfinished s A ++ unfinished s B := List.filter_append A B

theorem unfinished_congr (h : ∀ x ∈ L, s'.status x = s.status x) : unfinished s' L = unfinished s L := by
  refine List.filter_congr fun x hx => ?_
  rw [h x hx]

/-! ### The search -/

/-- What the search finds is the first ready thread on its way. -/
theorem search_first (h : List.IsChain (Link s.next s.prev) (c :: L)) (hx : search s k c = .thread x) :
    (∃ A B, L = A ++ x :: B ∧ (∀ y ∈ A, s.status y ≠ .ready) ∧ s.status x = .ready) ∨
      ∀ y ∈ L, s.status y ≠ .ready := by
  induction L generalizing c k with
  | nil =>
    refine .inr fun y hy => ?_
    cases hy
  | cons n L ih =>
    obtain ⟨hlink, hrest⟩ := List.isChain_cons_cons.mp h
    cases k with
    | zero => simp [search] at hx
    | succ k =>
      rw [search, hlink.1] at hx
      by_cases hready : s.status n = .ready
      · obtain rfl : n = x := by simpa [hready] using hx
        exact .inl ⟨[], L, rfl, by simp, hready⟩
      · rcases ih hrest (by simpa [hready] using hx) with ⟨A, B, rfl, hA, hxr⟩ | hnone
        · exact .inl ⟨n :: A, B, rfl, List.forall_mem_cons.mpr ⟨hready, hA⟩, hxr⟩
        · exact .inr (List.forall_mem_cons.mpr ⟨hready, hnone⟩)

/-- **`schedule` finds the thread whose turn it is**, when one is near enough. -/
theorem Paused.turn (h : Paused s l c) {j : Nat} (hj : j < maxThreads + 1)
    (hw : walk s.next (j + 1) c = some y) (hready : s.status y = .ready) :
    ∃ x q, firstTurn (fun z => decide (s.status z = .ready)) (l ++ [c]) = some (x, q) ∧
      search s (maxThreads + 1) c = .thread x ∧ dispatch s x = some (s.resume x) ∧ Sched (s.resume x) q x := by
  obtain ⟨x, hx, hsearch, hxr⟩ := search_of_walk h.ring (by simp : c ∈ l ++ [c]) hj hw hready
  rcases search_first h.ring.chain hsearch with ⟨A, B, hL, hA, -⟩ | hnone
  · have hrest : Resting s x := (h.rest x hx).resolve_left (by rw [hxr]; decide)
    obtain ⟨l', hs⟩ := h.resume hx hxr
    have hring : Ring s.next s.prev (B ++ A) x := h.ring.rotate hL
    obtain rfl : l' = B ++ A := Ring.unique (show Ring s.next s.prev l' x from hs.ring) hring
    refine ⟨x, B ++ A, ?_, hsearch, hrest.dispatch_eq, hs⟩
    rw [hL]
    exact firstTurn_append_cons (fun y hy => by simpa using hA y hy) (by simpa using hxr)
  · exact absurd hxr (hnone x hx)

/-- The unfinished threads of the ring are the queue behind its first one. -/
theorem Paused.unfinished_eq (h : Paused s l c)
    (hturn : firstTurn (fun z => decide (s.status z = .ready)) (l ++ [c]) = some (x, q)) :
    unfinished s (l ++ [c]) = x :: unfinished s q := by
  have hkeep : ∀ y ∈ l ++ [c], decide (s.status y = .ready) = true → decide (s.status y ≠ .exited) = true := by
    intro y _ hy
    have hready : s.status y = .ready := of_decide_eq_true hy
    simp [hready]
  have hfilter := firstTurn_filter hkeep
  rw [hturn, Option.map_some] at hfilter
  change firstTurn _ (unfinished s (l ++ [c])) = some (x, unfinished s q) at hfilter
  -- all of them are ready, so the first one is served
  cases hL : unfinished s (l ++ [c]) with
  | nil =>
    rw [hL] at hfilter
    cases hfilter
  | cons y L =>
    have hy : y ∈ unfinished s (l ++ [c]) := by rw [hL]; exact List.mem_cons_self
    obtain ⟨hmem, hne⟩ := List.mem_filter.mp hy
    have hready := ((h.rest y hmem).resolve_left (by simpa using hne)).status
    have hfirst := @firstTurn_append_cons _ (fun z => decide (s.status z = .ready)) [] L y (by simp) (by simpa using hready)
    rw [List.nil_append, List.append_nil] at hfirst
    rw [hL, hfirst] at hfilter
    obtain ⟨rfl, hrest⟩ := Prod.mk.inj (Option.some.inj hfilter)
    rw [hrest]

/-! ### The calls -/

/-- The thread that gets the processor is the first of the queue. -/
theorem Paused.rotates {r : Rotation} (h : Paused s l c)
    (hturn : firstTurn (fun z => decide (s.status z = .ready)) (l ++ [c]) = some (x, q))
    (hs : Sched (s.resume x) q x) (hlife : s.life = .active) (hactive : r.life = .active)
    (hcreated : s.nextTcb = r.created) : Rotates (s.resume x) (r.turn (unfinished s (l ++ [c]))) := by
  have hsame : unfinished (s.resume x) q = unfinished s q := by
    refine unfinished_congr fun y hy => ?_
    simp only [State.resume, State.setStatus, Function.update_of_ne (hs.ne_of_mem hy)]
  rw [h.unfinished_eq hturn, Rotation.turn]
  exact .sched hs hlife hactive hcreated hsame

theorem Sched.unfinished_suspend (h : Sched s l c) {st : Status} {n : Int} :
    unfinished { s.suspend c st p with numCurrThreads := n } (l ++ [c]) =
      unfinished s l ++ if st = .exited then [] else [c] := by
  rw [unfinished_append]
  congr 1
  · refine unfinished_congr fun y hy => ?_
    simp only [State.suspend, State.setStatus, State.setEnv, Function.update_of_ne (h.ne_of_mem hy)]
  · by_cases hst : st = .exited <;> simp [unfinished, State.suspend, State.setStatus, hst]

/-- The body of a call does what the queue does. -/
def Answers (s : State) (r : Rotation) (cl : Call) : Prop :=
  ∃ s', body s cl = some s' ∧ Rotates s' (r.answer cl)

theorem Sched.created_ne_zero {r : Rotation} (h : Sched s l c) (hcreated : s.nextTcb = r.created) :
    r.created ≠ 0 := by
  have hc := h.bound c (by simp)
  omega

theorem Sched.answers_alarm {r : Rotation} (h : Sched s l r.running) (hlife : s.life = .active)
    (hactive : r.life = .active) (hcreated : s.nextTcb = r.created) (hothers : unfinished s l = r.others)
    (hf : Fair s .alarm) : Answers s r .alarm := by
  obtain ⟨j, y, hj, hw, hst, -⟩ := (unfinishedAhead_iff h.curr).mp (hf h.first)
  have hp : Paused (s.suspend r.running .ready .user) l r.running := h.paused (.inl ⟨rfl, rfl, rfl⟩)
  obtain ⟨x, q, hturn, hsearch, hdispatch, hs⟩ := hp.turn hj hw (h.ready_of_walk hw hst (.inl rfl))
  refine ⟨(s.suspend r.running .ready .user).resume x, ?_, ?_⟩
  · rw [body, ThreadLibrary.alarm, h.first, if_neg (by decide),
      schedule_eq h.curr h.exec (if_pos h.running) hsearch]
    exact hdispatch
  · have hqueue : unfinished (s.suspend r.running .ready .user) (l ++ [r.running]) = r.others ++ [r.running] := by
      rw [← hothers]
      exact h.unfinished_suspend
    rw [Rotation.answer, if_neg (h.created_ne_zero hcreated), ← hqueue]
    exact hp.rotates hturn hs hlife hactive hcreated

/-- `num_curr_threads` counts the queue and the thread that has the processor. -/
theorem Sched.num_eq (h : Sched s l c) : s.numCurrThreads = (unfinished s l).length + 1 := by
  have hcount : l.countP (fun x => s.status x = .ready) = (unfinished s l).length := by
    rw [unfinished, ← List.countP_eq_length_filter]
    refine List.countP_congr fun x hx => ?_
    rcases h.rest x hx with hex | hr
    · simp [hex]
    · simp [hr.status]
  rw [h.num, hcount]

/-- A thread is alone just when the queue is empty. -/
theorem Sched.others_eq_nil_iff (h : Sched s l c) : unfinished s l = [] ↔ ¬ 1 < s.numCurrThreads := by
  have hnum := h.num_eq
  rw [← List.length_eq_zero_iff]
  omega

/-- A thread has not exited when it has the processor or is in the queue. -/
theorem Sched.unfinished_iff (h : Sched s l c) (hx : x < s.nextTcb) :
    s.status x ≠ .exited ↔ x = c ∨ x ∈ unfinished s l := by
  rw [unfinished, List.mem_filter]
  constructor
  · intro hne
    by_cases hmem : x ∈ l ++ [c]
    · rcases List.mem_append.mp hmem with hl | hc
      · exact .inr ⟨hl, by simpa using hne⟩
      · exact .inl (List.mem_singleton.mp hc)
    · exact absurd (h.gone x hx hmem) hne
  · rintro (rfl | ⟨-, hne⟩)
    · rw [h.running]
      decide
    · simpa using hne

theorem Sched.answers_exit {r : Rotation} (h : Sched s l r.running) (hlife : s.life = .active)
    (hactive : r.life = .active) (hcreated : s.nextTcb = r.created) (hothers : unfinished s l = r.others)
    (hf : Fair s .exit) : Answers s r .exit := by
  have hanswer : r.answer .exit = r.turn r.others := if_neg (h.created_ne_zero hcreated)
  by_cases hnum : 1 < s.numCurrThreads
  · obtain ⟨j, y, hj, hw, hst, hy⟩ := (unfinishedAhead_iff h.curr).mp (hf hnum)
    have hyc : y ≠ r.running := by simpa using hy
    let s₁ : State := { s.suspend r.running .exited .inExit with numCurrThreads := s.numCurrThreads - 1 }
    have hp : Paused s₁ l r.running := h.paused (.inr ⟨rfl, rfl⟩)
    obtain ⟨x, q, hturn, hsearch, hdispatch, hs⟩ := hp.turn hj hw (h.ready_of_walk hw hst (.inr hyc))
    refine ⟨s₁.resume x, ?_, ?_⟩
    · let s₂ : State := { s.setStatus r.running .exited with numCurrThreads := s.numCurrThreads - 1 }
      have hpos : 0 < s₂.numCurrThreads := by
        simp only [s₂]
        omega
      have hexit : pthreadExit s = schedule s₂ .inExit := by
        simp only [pthreadExit, h.curr, Option.bind_eq_bind, Option.bind_some]
        exact if_pos hpos
      have hrun : ¬ s₂.status r.running = .running := by simp [s₂, State.setStatus]
      have hsched : schedule s₂ .inExit = dispatch s₁ x := schedule_eq h.curr h.exec (if_neg hrun) hsearch
      rw [body, hexit, hsched]
      exact hdispatch
    · have hqueue : unfinished s₁ (l ++ [r.running]) = r.others := by
        rw [← hothers, h.unfinished_suspend, if_pos rfl, List.append_nil]
      rw [hanswer, ← hqueue]
      exact hp.rotates hturn hs hlife hactive hcreated
  · obtain ⟨hexit, -⟩ := h.exit_last hnum
    have hnil : r.others = [] := hothers.symm.trans (h.others_eq_nil_iff.mpr hnum)
    refine ⟨_, hexit, .finished (by simp) ?_⟩
    rw [hanswer, hnil]
    rfl

/-- `pthread_create` changes no other thread. -/
theorem createThread_frame (h : createThread s = some s') :
    s'.nextTcb = s.nextTcb + 1 ∧ s'.status = Function.update s.status s.nextTcb .ready := by
  simp only [createThread, linkNew, Option.bind_eq_bind, Option.bind_eq_some_iff] at h
  obtain ⟨s₁, hlink, h⟩ := h
  have hsame : s₁.nextTcb = s.nextTcb + 1 ∧ s₁.status = s.status := by
    split at hlink
    · obtain ⟨q, -, hlink⟩ := Option.bind_eq_some_iff.mp hlink
      cases hlink
      exact ⟨rfl, rfl⟩
    · obtain ⟨q, -, hlink⟩ := Option.bind_eq_some_iff.mp hlink
      obtain ⟨q', -, hlink⟩ := Option.bind_eq_some_iff.mp hlink
      cases hlink
      exact ⟨rfl, rfl⟩
  cases h
  refine ⟨hsame.1, ?_⟩
  rw [← hsame.2]
  rfl

/-- The new thread is the last of the queue. -/
theorem rotates_create {r : Rotation} (h : createThread s = some s') (hs : Sched s' (l ++ [s.nextTcb]) r.running)
    (hlife : s'.life = .active) (hactive : r.life = .active) (hnew : s.nextTcb = max r.created 1)
    (hothers : unfinished s l = r.others) : Rotates s' (r.answer .create) := by
  obtain ⟨hnext, hstatus⟩ := createThread_frame h
  refine .sched hs hlife hactive ?_ ?_
  · rw [hnext, hnew]
    rfl
  · have hold : unfinished s' l = unfinished s l := by
      refine unfinished_congr fun y hy => ?_
      have hne : y ≠ s.nextTcb := by
        have hnodup := (List.nodup_append.mp hs.ring.nodup).1
        exact (List.nodup_append.mp hnodup).2.2 y hy _ (by simp)
      rw [hstatus, Function.update_of_ne hne]
    have hself : unfinished s' [s.nextTcb] = [s.nextTcb] := by simp [unfinished, hstatus]
    rw [unfinished_append, hold, hself, hothers, hnew]
    rfl

theorem Sched.answers_create {r : Rotation} (h : Sched s l r.running) (hlife : s.life = .active)
    (hactive : r.life = .active) (hcreated : s.nextTcb = r.created) (hothers : unfinished s l = r.others)
    (hf : Fair s .create) : Answers s r .create := by
  have heq : pthreadCreate s = createThread s := by
    rw [pthreadCreate, if_neg (by rw [h.first]; decide)]
  have hnew : s.nextTcb = max r.created 1 := by
    have hne := h.created_ne_zero hcreated
    omega
  rw [Answers, body, heq]
  by_cases hnum : s.numCurrThreads = 1
  · obtain ⟨s', hs', hsched, -, hlife'⟩ := (h.manned_alone hnum).create_alone ((hf h.first hnum).trans h.curr)
    have hnil : unfinished s l = [] := h.others_eq_nil_iff.mpr (by omega)
    exact ⟨s', hs', @rotates_create s s' [] r hs' hsched (hlife'.trans hlife) hactive hnew (hnil.symm.trans hothers)⟩
  · obtain ⟨s', hs', hsched, -, hlife'⟩ := h.create_more hnum
    exact ⟨s', hs', rotates_create hs' hsched (hlife'.trans hlife) hactive hnew hothers⟩

/-- **A call does what the queue does.** -/
theorem Rotates.call {r : Rotation} (h : Rotates s r) (hf : Fair s cl) : Rotates (call s cl).2 (r.step cl).2 := by
  cases h with
  | idle first curr exec new life start =>
    subst start
    rw [ThreadLibrary.call, if_pos life]
    cases cl with
    | create =>
      obtain ⟨s', hs', hsched, -, hlife'⟩ :=
        (manned_init exec new).create_alone (by simp [schedulerInit, new])
      have hnext : (schedulerInit { s with isFirstCall := false }).nextTcb = 1 := congrArg (· + 1) new
      have hbody : body s .create = some s' := by
        rw [body, pthreadCreate, if_pos first, hs']
      rw [hbody]
      exact @rotates_create _ s' [] Rotation.start hs' hsched (hlife'.trans life) rfl hnext rfl
    | exit =>
      have hbody : body s .exit = none := by simp [body, pthreadExit, curr]
      rw [hbody]
      exact .finished (by simp) rfl
    | alarm =>
      have hbody : body s .alarm = some s := by rw [body, ThreadLibrary.alarm, if_pos first]
      rw [hbody]
      exact .idle first curr exec new life rfl
  | sched hs life active created others =>
    have hanswers : Answers s r cl := by
      cases cl with
      | create => exact hs.answers_create life active created others hf
      | exit => exact hs.answers_exit life active created others hf
      | alarm => exact hs.answers_alarm life active created others hf
    obtain ⟨s', hbody, hrotates⟩ := hanswers
    rw [ThreadLibrary.call, if_pos life, hbody, Rotation.step, if_pos active]
    exact hrotates
  | finished life same =>
    rw [ThreadLibrary.call, if_neg life, Rotation.step, if_neg (by rw [same]; exact life)]
    exact .finished life same

/-! ### Runs -/

/-- The library against the queue, over a run. -/
theorem rotates_run (cs : List Call) (hrun : RunOk call Fair State.start cs) :
    Rotates (run call State.start cs) (run Rotation.step Rotation.start cs) := by
  have hstep : ∀ (s : State) (r : Rotation) (cl : Call), Rotates s r → Fair s cl →
      (ThreadLibrary.call s cl).1 = (r.step cl).1 ∧ Rotates (ThreadLibrary.call s cl).2 (r.step cl).2 :=
    fun _ _ _ h hf => ⟨rfl, h.call hf⟩
  exact (replies_eq_of_simulation hstep cs State.start Rotation.start (.idle rfl rfl rfl rfl rfl rfl) hrun).2

theorem Rotates.life_eq {r : Rotation} (h : Rotates s r) : s.life = r.life := by
  cases h with
  | idle first curr exec new life start =>
    rw [start]
    exact life
  | sched hs life active created others => exact life.trans active.symm
  | finished life same => exact same.symm

theorem Rotates.exec_eq {r : Rotation} (h : Rotates s r) (hlife : s.life = .active) : s.exec = r.running := by
  cases h with
  | idle first curr exec new life start =>
    rw [start]
    exact exec
  | sched hs life active created others => exact hs.exec
  | finished life same => exact absurd hlife life

/-- **The library takes turns**: in a run in which a thread that is alone creates others only when it is `head`,
and no search starts in front of `MAX_THREADS + 1` threads that have exited, the process lives as long as the
queue has a thread, the same thread has the processor, and the threads that have not exited are this one and
those of the queue. -/
theorem library_takes_turns (cs : List Call) (hrun : RunOk call Fair State.start cs) :
    let s := run call State.start cs
    let r := run Rotation.step Rotation.start cs
    s.life = r.life ∧ (s.life = .active → s.exec = r.running ∧
      ∀ x, x < s.nextTcb → (s.status x ≠ .exited ↔ x = r.running ∨ x ∈ r.others)) := by
  intro s r
  have hrotates : Rotates s r := rotates_run cs hrun
  refine ⟨hrotates.life_eq, fun hlife => ⟨hrotates.exec_eq hlife, fun x hx => ?_⟩⟩
  cases hrotates with
  | idle first curr exec new life start => omega
  | sched hs life active created others =>
    rw [← others]
    exact hs.unfinished_iff hx
  | finished life same => exact absurd hlife life

/-- Main and the threads it has made, alone and in company. -/
theorem library_takes_turns_mainStays :
    (run call State.start (mainStays.take 6)).exec = 2 := by
  obtain ⟨hlife, hactive⟩ := library_takes_turns (mainStays.take 6) (by decide +kernel)
  rw [(hactive (hlife.trans (by decide))).1]
  decide

/-! ### Everybody is served -/

/-- A call after which another thread may have the processor. -/
def Call.handsOver : Call → Bool
  | .create => false
  | .exit => true
  | .alarm => true

namespace Rotation

/-- A thread of the queue gets the processor when nobody is in front of it, and else comes one place nearer. -/
theorem turn_cases (r : Rotation) (A B : List Nat) (x : Nat) :
    (A = [] ∧ (r.turn (A ++ x :: B)).running = x) ∨
      ∃ A', A'.length + 1 = A.length ∧ (r.turn (A ++ x :: B)).others = A' ++ x :: B := by
  cases A with
  | nil => exact .inl ⟨rfl, rfl⟩
  | cons a A => exact .inr ⟨A, rfl, rfl⟩

theorem turn_keeps (r : Rotation) (A B : List Nat) (x : Nat) :
    (r.turn (A ++ x :: B)).life = r.life ∧ (r.turn (A ++ x :: B)).created = r.created := by
  cases A with
  | nil => exact ⟨rfl, rfl⟩
  | cons a A => exact ⟨rfl, rfl⟩

variable {r : Rotation}

/-- **One call**: a thread of the queue is served, or has as many less in front of it as the call hands the
processor over. -/
theorem step_cases (cl : Call) (hlife : r.life = .active) (hcreated : r.created ≠ 0)
    (hx : r.others = A ++ x :: B) :
    (r.step cl).2.life = .active ∧ (r.step cl).2.created ≠ 0 ∧
      ((r.step cl).2.running = x ∨
        ∃ A' B', A'.length + cl.handsOver.toNat = A.length ∧ (r.step cl).2.others = A' ++ x :: B') := by
  rw [step, if_pos hlife]
  cases cl with
  | create =>
    refine ⟨hlife, by simp [answer], .inr ⟨A, B ++ [max r.created 1], rfl, ?_⟩⟩
    simp [answer, hx]
  | exit =>
    obtain ⟨hl, hc⟩ := r.turn_keeps A B x
    simp only [answer, if_neg hcreated, hx]
    refine ⟨hl.trans hlife, hc.trans_ne hcreated, ?_⟩
    rcases r.turn_cases A B x with ⟨-, hrun⟩ | ⟨A', hlen, hothers⟩
    · exact .inl hrun
    · exact .inr ⟨A', B, hlen, hothers⟩
  | alarm =>
    obtain ⟨hl, hc⟩ := r.turn_keeps A (B ++ [r.running]) x
    simp only [answer, if_neg hcreated, hx, List.append_assoc, List.cons_append]
    refine ⟨hl.trans hlife, hc.trans_ne hcreated, ?_⟩
    rcases r.turn_cases A (B ++ [r.running]) x with ⟨-, hrun⟩ | ⟨A', hlen, hothers⟩
    · exact .inl hrun
    · exact .inr ⟨A', _, hlen, hothers⟩

/-- A thread of the queue is served once the processor was handed over more often than there are threads in
front of it. -/
theorem exists_served (ds : List Call) (hlife : r.life = .active) (hcreated : r.created ≠ 0)
    (hx : r.others = A ++ x :: B) (hturns : A.length < ds.countP Call.handsOver) :
    ∃ ds', ds' <+: ds ∧ (run step r ds').life = .active ∧ (run step r ds').running = x := by
  induction ds generalizing r A B with
  | nil => simp at hturns
  | cons cl ds ih =>
    obtain ⟨hlife', hcreated', hrun | ⟨A', B', hlen, hothers⟩⟩ := step_cases cl hlife hcreated hx
    · exact ⟨[cl], by simp, hlife', hrun⟩
    · have hless : A'.length < ds.countP Call.handsOver := by
        rw [List.countP_cons] at hturns
        cases hcl : cl.handsOver with
        | true => simp only [hcl, Bool.toNat_true, if_true] at hlen hturns; omega
        | false => simp only [hcl, Bool.toNat_false] at hlen hturns; simp at hturns; omega
      obtain ⟨ds', hpre, hserved⟩ := ih hlife' hcreated' hothers hless
      exact ⟨cl :: ds', List.cons_prefix_cons.mpr ⟨rfl, hpre⟩, hserved⟩

end Rotation

/-- **Everybody is served**: from any point of such a run on, a thread that has not exited has the processor
by the time it was handed over as often as there are other threads, whatever is created and whoever exits in
between. -/
theorem library_serves_everyone (cs ds : List Call) (x : Nat) (hrun : RunOk call Fair State.start (cs ++ ds))
    (hlife : (run call State.start cs).life = .active) (hx : x < (run call State.start cs).nextTcb)
    (hleft : (run call State.start cs).status x ≠ .exited)
    (hturns : (run call State.start cs).numCurrThreads ≤ ds.countP Call.handsOver + 1) :
    ∃ ds', ds' <+: ds ∧ (run call State.start (cs ++ ds')).life = .active ∧
      (run call State.start (cs ++ ds')).exec = x := by
  have hcs := (runOk_append _ cs ds).mp hrun
  have hserved : ∃ ds', ds' <+: ds ∧ (run Rotation.step Rotation.start (cs ++ ds')).life = .active ∧
      (run Rotation.step Rotation.start (cs ++ ds')).running = x := by
    cases rotates_run cs hcs.1 with
    | idle first curr exec new life start => omega
    | sched hs life active created others =>
      rcases (hs.unfinished_iff hx).mp hleft with rfl | hmem
      · exact ⟨[], List.nil_prefix, by simpa using active, by simp⟩
      · rw [others] at hmem
        obtain ⟨A, B, hq⟩ := List.append_of_mem hmem
        have hnum := hs.num_eq
        rw [others, hq, List.length_append, List.length_cons] at hnum
        simp only [run_append]
        exact Rotation.exists_served ds active (hs.created_ne_zero created) hq (by omega)
    | finished life same => exact absurd hlife life
  obtain ⟨ds', ⟨ds'', rfl⟩, hlife', hrunning⟩ := hserved
  have hprefix : RunOk call Fair State.start (cs ++ ds') := by
    rw [← List.append_assoc] at hrun
    exact ((runOk_append _ _ ds'').mp hrun).1
  have hrotates := rotates_run (cs ++ ds') hprefix
  have hactive := hrotates.life_eq.trans hlife'
  exact ⟨ds', List.prefix_append ds' ds'', hactive, (hrotates.exec_eq hactive).trans hrunning⟩

/-- The last of three threads; the second one creates another and exits. -/
theorem library_serves_everyone_third :
    ∃ ds', ds' <+: [.alarm, .create, .exit] ∧ (run call State.start ([.create, .create] ++ ds')).life = .active ∧
      (run call State.start ([.create, .create] ++ ds')).exec = 2 :=
  library_serves_everyone [.create, .create] [.alarm, .create, .exit] 2 (by decide +kernel) (by decide)
    (by decide) (by decide) (by decide)

end EC440.ThreadLibrary
