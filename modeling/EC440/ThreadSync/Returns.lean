import EC440.Lib.History
import EC440.ThreadSync.Counts

/-!
# What a return has to wait for

A thread that is suspended inside `pthread_mutex_lock` or `pthread_barrier_wait` has made that call
and nothing since, and as long as it is blocked it has not been served; when it is ready, the
mutex was handed to it or its round is complete (`InCall`).  It can only return when it is
dispatched, and so when it is ready: every return in the trace has been waited for (`ReturnOk`).
-/

namespace EC440.ThreadSync

open EC440.Lib

variable {s s' : State} {l L ws : List Nat} {c t x y i j n : Nat} {p : Point} {cl : Call}
  {q e : Event} {es tr P P₁ P₂ : List Event}

/-- A call or a return of the thread `t`. -/
def Event.ByThread (t : Nat) : Event → Prop
  | .lockCalled u _ _ => u = t
  | .lockReturned u _ => u = t
  | .unlocked u _ => u = t
  | .arrived u _ => u = t
  | .waitReturned u _ _ => u = t
  | _ => False

/-- The call that a thread suspended at `p` is in. -/
def callEvent (x : Nat) : Point → Option Event
  | .inLock i => some (.lockCalled x i true)
  | .inWait i => some (.arrived x i)
  | _ => none

/-- A call that was made after `P₁` has to wait: it is not the last arrival of its round. -/
def HasToWait (P₁ : List Event) : Point → Prop
  | .inWait i => ∀ n, Made i n P₁ → arrivals i P₁ % n + 1 < n
  | _ => True

/-- The call that was made after `P₁` has got what it waits for, after the events `P₂`: the mutex was
handed to it, or the round of its arrival is complete. -/
def Served (x : Nat) (P₁ P₂ : List Event) : Point → Prop
  | .inLock i => .handed x i ∈ P₂
  | .inWait i => ∀ n, Made i n P₁ → (arrivals i P₁ / n + 1) * n ≤ arrivals i P₁ + 1 + arrivals i P₂
  | _ => True

theorem Served.append (h : Served x P₁ P₂ p) (es : List Event) : Served x P₁ (P₂ ++ es) p := by
  cases p with
  | inLock i => exact List.mem_append_left es h
  | inWait i =>
    intro n hn
    have := h n hn
    rw [arrivals_append]
    omega
  | _ => trivial

/-- A thread that does not run is in the call that it made last, and is served if it is ready. -/
def InCall (s : State) : Prop :=
  ∀ x q, s.live x = true → s.status x ≠ .running → callEvent x (s.env x).point = some q →
    Since q (Event.ByThread x) s.trace fun P₁ P₂ => HasToWait P₁ (s.env x).point ∧
      (s.status x = .blocked ∨ Served x P₁ P₂ (s.env x).point)

/-- What a return from a call has behind it. -/
def ReturnOk (P : List Event) : Event → Prop
  | .lockReturned t i => ∃ found, Since (.lockCalled t i found) (Event.ByThread t) P fun _ P₂ =>
      if found then .handed t i ∈ P₂ else .acquired t i ∈ P₂
  | .waitReturned t i r => Since (.arrived t i) (Event.ByThread t) P fun P₁ _ => ∀ n, Made i n P₁ →
      (arrivals i P₁ / n + 1) * n ≤ arrivals i P ∧
        r = if arrivals i P₁ % n + 1 = n then barrierSerialThread else 0
  | _ => True

/-! ### Threads in calls -/

theorem InCall.frame (h : InCall s) (htrace : s'.trace = s.trace ++ es)
    (hx : ∀ x q, s'.live x = true → s'.status x ≠ .running → callEvent x (s'.env x).point = some q →
      s.live x = true ∧ s.status x ≠ .running ∧ s'.env x = s.env x ∧ (∀ e ∈ es, ¬ e.ByThread x) ∧
        (s.status x = .blocked → s'.status x = .blocked ∨ ∀ P₁ P₂, s.trace = P₁ ++ q :: P₂ →
          HasToWait P₁ (s.env x).point → Served x P₁ (P₂ ++ es) (s.env x).point)) : InCall s' := by
  intro x q hlive hst hcall
  obtain ⟨hlive', hst', henv, hes, hwoken⟩ := hx x q hlive hst hcall
  rw [henv] at hcall ⊢
  obtain ⟨P₁, P₂, htr, hstop, hwait, hserved⟩ := h x q hlive' hst' hcall
  rw [htrace]
  refine ⟨P₁, P₂ ++ es, by rw [htr]; simp, ?_, hwait, ?_⟩
  · intro e he
    rcases List.mem_append.mp he with he | he
    · exact hstop e he
    · exact hes e he
  · rcases hserved with hblocked | hserved
    · rcases hwoken hblocked with hb | hs
      · exact .inl hb
      · exact .inr (hs P₁ P₂ htr hwait)
    · exact .inr (hserved.append es)

/-- Nothing happens to the threads that wait. -/
theorem InCall.keep (h : InCall s) (htrace : s'.trace = s.trace ++ es)
    (hx : ∀ x q, s'.live x = true → s'.status x ≠ .running → callEvent x (s'.env x).point = some q →
      s.live x = true ∧ s'.status x = s.status x ∧ s'.env x = s.env x ∧ ∀ e ∈ es, ¬ e.ByThread x) :
    InCall s' := by
  refine h.frame htrace ?_
  intro x q hlive hst hcall
  obtain ⟨hlive', hst', henv, hes⟩ := hx x q hlive hst hcall
  refine ⟨hlive', by rw [← hst']; exact hst, henv, hes, ?_⟩
  intro hb
  exact .inl (by rw [hst']; exact hb)

/-- A thread waits in the call `q`. -/
theorem InCall.enter (h : InCall s) (hcall : callEvent c p = some q) (hwait : HasToWait s.trace p)
    (hby : ∀ y, y ≠ c → ¬ q.ByThread y) (hlive : s'.live = s.live)
    (hst : s'.status = Function.update s.status c .blocked)
    (henv : s'.env = Function.update s.env c ⟨c, p⟩) (htrace : s'.trace = s.trace ++ [q]) :
    InCall s' := by
  intro x q' hx hxst hxcall
  by_cases hxc : x = c
  · subst hxc
    rw [henv, Function.update_self] at hxcall ⊢
    obtain rfl : q' = q := by
      rw [hcall] at hxcall
      exact (Option.some.inj hxcall).symm
    exact ⟨s.trace, [], htrace, by simp, hwait, .inl (by rw [hst, Function.update_self])⟩
  · -- the others have not moved
    have hold : InCall { s' with live := Function.update s'.live c false } := by
      refine h.keep htrace ?_
      intro y q'' hy hyst hycall
      have hyc : y ≠ c := by
        rintro rfl
        simp at hy
      simp only [Function.update_of_ne hyc, hlive] at hy
      refine ⟨hy, ?_, ?_, ?_⟩
      · show s'.status y = _
        rw [hst, Function.update_of_ne hyc]
      · show s'.env y = _
        rw [henv, Function.update_of_ne hyc]
      · intro e he
        rw [List.mem_singleton.mp he]
        exact hby y hyc
    refine hold x q' ?_ hxst hxcall
    simp only [Function.update_of_ne hxc]
    exact hx

theorem InCall.waitLock (h : InCall s) (m : MutexInfo) : InCall (s.waitLock c i m) := by
  refine h.enter (p := .inLock i) rfl trivial ?_ rfl rfl rfl rfl
  intro y hy
  exact hy.symm

theorem InCall.waitBarrier (h : InCall s) (hwait : HasToWait s.trace (.inWait i)) (b : BarrierInfo) :
    InCall (s.waitBarrier c i b) := by
  refine h.enter (p := .inWait i) rfl hwait ?_ rfl rfl rfl rfl
  intro y hy
  exact hy.symm

/-- A thread that is preempted is in no call. -/
theorem InCall.pause (h : InCall s) (c : Nat) : InCall (s.suspend c .ready .user) := by
  refine h.keep (List.append_nil _).symm ?_
  intro x q hx _ hcall
  simp only [State.suspend, State.setStatus, State.setEnv, Function.update_apply] at hcall ⊢
  split at hcall
  · cases hcall
  · next hxc => exact ⟨hx, by rw [if_neg hxc], by rw [if_neg hxc], by simp⟩

theorem InCall.unlinked (h : InCall s) (c p n : Nat) : InCall (s.unlinked c p n) := by
  refine h.keep (List.append_nil _).symm ?_
  intro x q hx _ _
  simp only [State.unlinked, State.setNext, State.setStatus, State.setEnv, Function.update_apply] at hx ⊢
  split at hx
  · cases hx
  · next hxc => exact ⟨hx, by rw [if_neg hxc], by rw [if_neg hxc], by simp⟩

theorem not_byThread_wakeEvents (hyx : y ≠ x) : ∀ e ∈ wakeEvents s x, ¬ e.ByThread y := by
  intro e he
  rw [wakeEvents] at he
  cases hp : (s.env x).point <;> simp [hp, returns] at he
  all_goals rcases he with rfl | rfl <;> simp [Event.ByThread, hyx.symm]

theorem Switch.inCall (hs : Switch s L s') (h : InCall s) : InCall s' := by
  obtain ⟨x, rfl, htrace, -⟩ := hs.exists_resume
  refine h.keep htrace ?_
  intro y q hy hyst _
  have hyx : y ≠ x := by
    rintro rfl
    exact hyst (Function.update_self y _ _)
  refine ⟨hy, ?_, rfl, not_byThread_wakeEvents hyx⟩
  simp only [State.resume, State.setStatus, Function.update_of_ne hyx]

/-- The last arrival of a round completes it for all that arrived before. -/
theorem round_le {a A : Nat} (ha : a ≤ A) (hA : A % n + 1 = n) : (a / n + 1) * n ≤ A + 1 := by
  have hdiv : a / n ≤ A / n := Nat.div_le_div_right ha
  calc (a / n + 1) * n ≤ (A / n + 1) * n := Nat.mul_le_mul_right n (Nat.succ_le_succ hdiv)
    _ = A + 1 := by rw [succ_eq_mul hA, Nat.mul_comm]

/-- The arrivals at a barrier that was made for `n` threads, when the next one is the last. -/
theorem BarrierCounts.mod_of_last (h : BarrierCounts s) {b : BarrierInfo}
    (hb : s.barrierInfos i = some b) (hlast : b.numThreadsEntered + 1 = b.count)
    (hn : Made i n s.trace) : arrivals i s.trace % n + 1 = n := by
  obtain ⟨hcount, hentered, hlen⟩ := h.entered i b n hb hn
  omega

theorem BarrierCounts.hasToWait (h : BarrierCounts s) {b : BarrierInfo}
    (hb : s.barrierInfos i = some b) (hlt : b.numThreadsEntered + 1 < b.count) :
    HasToWait s.trace (.inWait i) := by
  intro n hn
  obtain ⟨hcount, hentered, hlen⟩ := h.entered i b n hb hn
  omega

/-- Threads that are blocked and then woken do not run before. -/
theorem status_of_wake (hws : ∀ x ∈ ws, s.status x = .blocked)
    (hy : (s.wake ws).status y ≠ .running) : s.status y ≠ .running := by
  by_cases hyw : y ∈ ws
  · rw [hws y hyw]
    decide
  · simpa [State.wake, hyw] using hy

/-- **Every call keeps** what is said of the threads that wait. -/
theorem Effect.inCall (h : Effect s l c cl s') (hst : Stage s l c) (hq : Queued s)
    (hbc : BarrierCounts s) (hin : InCall s) (hlife : s'.life = .active) : InCall s' := by
  have hne : ∀ x, s.live x = true → s.status x ≠ .running → x ≠ c := fun x => hst.ne_of_blocked
  -- calls and returns of the running thread only
  have hown : ∀ {s' : State} {es : List Event}, s'.live = s.live → s'.status = s.status →
      s'.env = s.env → s'.trace = s.trace ++ es → (∀ x, x ≠ c → ∀ e ∈ es, ¬ e.ByThread x) →
      InCall s' := by
    intro s' es hlive hstatus henv htrace hes
    refine hin.keep htrace ?_
    intro x q hx hxst _
    rw [hlive] at hx
    rw [hstatus] at hxst
    exact ⟨hx, by rw [hstatus], by rw [henv], hes x (hne x hx hxst)⟩
  have hkeep : ∀ {s' : State}, s'.live = s.live → s'.status = s.status → s'.env = s.env →
      s'.trace = s.trace → InCall s' := by
    intro s' hlive hstatus henv htrace
    exact hown hlive hstatus henv (htrace.trans (List.append_nil _).symm) (by simp)
  cases h with
  | same => exact hin
  | undefined => exact hkeep rfl rfl rfl rfl
  | createFirst hfirst next prev head =>
    cases hst with
    | sched hs => rw [hs.first] at hfirst; cases hfirst
    | idle _ _ _ _ hidle =>
      intro x q hx hxst hcall
      simp only [State.spawned, State.initialised, schedulerInit, State.setStatus, State.setEnv,
        State.setNext, State.setPrev, Function.update_apply, hidle] at hx hxst hcall
      split at hcall
      · cases hcall
      · next hnew =>
        rw [if_neg hnew] at hx hxst
        split at hx
        · next hmain => exact absurd (if_pos hmain) hxst
        · cases hx
  | create next prev head =>
    refine hin.keep (List.append_nil _).symm ?_
    intro x q hx _ hcall
    simp only [State.spawned, State.setStatus, State.setEnv, Function.update_apply] at hx hcall ⊢
    split at hcall
    · cases hcall
    · next hnew =>
      rw [if_neg hnew] at hx
      exact ⟨hx, by rw [if_neg hnew], by rw [if_neg hnew], by simp⟩
  | exit _ h => exact h.inCall (hin.unlinked _ _ _)
  | ended hover => rw [hover] at hlife; cases hlife
  | alarm h => exact h.inCall (hin.pause c)
  | mutexInit => exact hkeep rfl rfl rfl rfl
  | mutexDestroy => exact hkeep rfl rfl rfl rfl
  | lockFree =>
    refine hown rfl rfl rfl rfl ?_
    intro x hx e he
    simp only [List.mem_cons, List.not_mem_nil, or_false] at he
    rcases he with rfl | rfl | rfl <;> simp [Event.ByThread, hx.symm]
  | lockBusy _ _ _ h => exact h.inCall (hin.waitLock _)
  | unlockLast =>
    refine hown rfl rfl rfl rfl ?_
    intro x hx e he
    rw [List.mem_singleton.mp he]
    exact hx.symm
  | @unlockNext o i x m ws _ hm _ hnext =>
    have hxq := hq.waits x _ (inQueue_head hm hnext x (by simp))
    refine hin.frame rfl ?_
    intro y q hy hyst _
    have hyst' : s.status y ≠ .running :=
      @status_of_wake s [x] y (fun z hz => List.mem_singleton.mp hz ▸ hxq.2.1) hyst
    refine ⟨hy, hyst', rfl, ?_, ?_⟩
    · intro e he
      simp only [List.mem_cons, List.not_mem_nil, or_false] at he
      rcases he with rfl | rfl
      · exact (hne y hy hyst').symm
      · exact id
    · intro hb
      by_cases hyx : y = x
      · subst hyx
        refine .inr fun P₁ P₂ _ _ => ?_
        rw [hxq.2.2]
        show Event.handed y i ∈ _
        simp
      · exact .inl (by simpa [State.wake, State.setMutex, State.log, hyx] using hb)
  | barrierInit =>
    refine hown rfl rfl rfl rfl ?_
    intro x _ e he
    rw [List.mem_singleton.mp he]
    exact id
  | barrierDestroy => exact hkeep rfl rfl rfl rfl
  | waitBlocks _ hb hlt h => exact h.inCall (hin.waitBarrier (hbc.hasToWait hb hlt) _)
  | @waitLast o i b _ hb hlast =>
    refine hin.frame rfl ?_
    intro y q hy hyst hcall
    have hyst' : s.status y ≠ .running :=
      status_of_wake (fun z hz => (hq.waits z _ (.barrier hb hz)).2.1) hyst
    refine ⟨hy, hyst', rfl, ?_, ?_⟩
    · intro e he
      simp only [List.mem_cons, List.not_mem_nil, or_false] at he
      rcases he with rfl | rfl <;> exact (hne y hy hyst').symm
    · intro hblocked
      by_cases hyw : y ∈ b.waiters
      · refine .inr fun P₁ P₂ htr _ => ?_
        have henv := (hq.waits y _ (.barrier hb hyw)).2.2
        have hq' : q = .arrived y i := by
          have hcall' : callEvent y (s.env y).point = some q := hcall
          rw [henv] at hcall'
          exact (Option.some.inj hcall').symm
        rw [henv]
        intro n hn
        have hmade : Made i n s.trace := ⟨by rw [htr]; exact List.mem_append_left _ hn.1, hn.2⟩
        have hmod := hbc.mod_of_last hb hlast hmade
        have hA : arrivals i s.trace = arrivals i P₁ + 1 + arrivals i P₂ := by
          rw [htr, hq', arrivals_append]
          simp [arrivals, Event.isArrival]
          omega
        have hle := round_le (n := n) (show arrivals i P₁ ≤ arrivals i s.trace by omega) hmod
        have hone : arrivals i [.arrived c i, .waitReturned c i barrierSerialThread] = 1 := by
          simp [arrivals, Event.isArrival]
        rw [arrivals_append, hone]
        omega
      · exact .inl (by simpa [State.wake, State.setBarrier, State.log, hyw] using hblocked)
  | waitOver =>
    refine hown rfl rfl rfl rfl ?_
    intro x hx e he
    simp only [List.mem_cons, List.not_mem_nil, or_false] at he
    rcases he with rfl | rfl <;> exact hx.symm

/-! ### The returns -/

theorem arrivals_of_split (htr : tr = P₁ ++ Event.arrived t i :: P₂) :
    arrivals i tr = arrivals i P₁ + 1 + arrivals i P₂ := by
  rw [htr, arrivals_append]
  simp [arrivals, Event.isArrival]
  omega

/-- A thread that is dispatched returns from a call that is served. -/
theorem InCall.returnOk (h : InCall s) (hlive : s.live x = true) (hready : s.status x = .ready) :
    ∀ e ∈ returns x (s.env x).point, ReturnOk (s.trace ++ [Event.dispatched x]) e := by
  intro e he
  have hcase := fun q => h x q hlive (by rw [hready]; decide)
  cases hp : (s.env x).point with
  | inLock i =>
    rw [hp, returns, List.mem_singleton] at he
    subst he
    rw [hp] at hcase
    refine ⟨true, (hcase _ rfl).append (by simp [Event.ByThread]) ?_⟩
    rintro P₁ P₂ ⟨-, hb | hserved⟩
    · rw [hready] at hb
      cases hb
    · exact List.mem_append_left _ hserved
  | inWait i =>
    rw [hp, returns, List.mem_singleton] at he
    subst he
    rw [hp] at hcase
    obtain ⟨P₁, P₂, htr, hstop, hwait, hserved⟩ := hcase _ rfl
    refine ⟨P₁, P₂ ++ [Event.dispatched x], by rw [htr]; simp, ?_, ?_⟩
    · intro e' he'
      rcases List.mem_append.mp he' with he' | he'
      · exact hstop e' he'
      · rw [List.mem_singleton.mp he']
        exact id
    · intro n hn
      rcases hserved with hb | hserved
      · rw [hready] at hb
        cases hb
      · have hle := hserved n hn
        have hlt := hwait n hn
        rw [arrivals_append, arrivals_of_split htr]
        exact ⟨by omega, by rw [if_neg (by omega)]⟩
  | _ =>
    rw [hp] at he
    cases he

theorem Switch.returns (hs : Switch s L s') (hin : InCall s) (h : Along ReturnOk s.trace) :
    Along ReturnOk s'.trace := by
  obtain ⟨x, rfl, htrace, hlive, hready, -⟩ := hs.exists_resume
  have hret := hin.returnOk hlive hready
  have hdis : Along ReturnOk (s.trace ++ [Event.dispatched x]) := along_append_singleton.mpr ⟨h, trivial⟩
  rw [htrace, wakeEvents, along_append_cons]
  cases hp : (s.env x).point with
  | inLock i =>
    rw [hp] at hret
    exact along_append_singleton.mpr ⟨hdis, hret _ (List.mem_singleton.mpr rfl)⟩
  | inWait i =>
    rw [hp] at hret
    exact along_append_singleton.mpr ⟨hdis, hret _ (List.mem_singleton.mpr rfl)⟩
  | _ => exact hdis.append (by simp [ThreadSync.returns])

/-- A lock that is free is acquired and the call returns. -/
theorem returnOk_lockFree (tr : List Event) (c i : Nat) :
    ReturnOk (tr ++ [Event.lockCalled c i false, Event.acquired c i]) (.lockReturned c i) := by
  refine ⟨false, tr, [.acquired c i], by simp, ?_, ?_⟩
  · simp [Event.ByThread]
  · simp

/-- The last arrival of a round returns at once. -/
theorem BarrierCounts.returnOk_waitLast (h : BarrierCounts s) {b : BarrierInfo}
    (hb : s.barrierInfos i = some b) (hlast : b.numThreadsEntered + 1 = b.count) (c : Nat) :
    ReturnOk (s.trace ++ [Event.arrived c i]) (.waitReturned c i barrierSerialThread) := by
  refine ⟨s.trace, [], rfl, by simp, ?_⟩
  intro n hn
  have hmod := h.mod_of_last hb hlast hn
  rw [arrivals_of_split rfl, if_pos hmod]
  exact ⟨round_le (Nat.le_refl _) hmod, rfl⟩

/-- Only a barrier whose count does not fit an `int` lets a thread through without waiting. -/
theorem BarrierCounts.returnOk_waitOver (h : BarrierCounts s) {b : BarrierInfo}
    (hb : s.barrierInfos i = some b) (hover : b.count < b.numThreadsEntered + 1) (c : Nat) :
    ReturnOk (s.trace ++ [Event.arrived c i]) (.waitReturned c i 0) := by
  refine ⟨s.trace, [], rfl, by simp, ?_⟩
  intro n hn
  obtain ⟨hcount, hentered, hlen⟩ := h.entered i b n hb hn
  have hlt := Nat.mod_lt (arrivals i s.trace) (show 0 < n from hn.2.1)
  omega

/-- **Every call keeps** what is said of the returns. -/
theorem Effect.returns (h : Effect s l c cl s') (hbc : BarrierCounts s) (hin : InCall s)
    (hr : Along ReturnOk s.trace) : Along ReturnOk s'.trace := by
  cases h with
  | same => exact hr
  | undefined => exact hr
  | createFirst => exact hr
  | create => exact hr
  | exit _ h => exact h.returns (hin.unlinked _ _ _) hr
  | ended _ htrace => rw [htrace]; exact hr
  | alarm h => exact h.returns (hin.pause c) hr
  | mutexInit => exact hr
  | mutexDestroy => exact hr
  | @lockFree o i m =>
    have hcalled : Along ReturnOk (s.trace ++ [Event.lockCalled c i false, Event.acquired c i]) :=
      hr.append (by simp [ReturnOk])
    have hret := along_append_singleton.mpr ⟨hcalled, returnOk_lockFree s.trace c i⟩
    simpa [State.log, State.setMutex] using hret
  | lockBusy _ _ _ h => exact h.returns (hin.waitLock _) (hr.append (by simp [ReturnOk]))
  | unlockLast => exact hr.append (by simp [ReturnOk])
  | unlockNext => exact hr.append (by simp [ReturnOk])
  | barrierInit => exact hr.append (by simp [ReturnOk])
  | barrierDestroy => exact hr
  | waitBlocks _ hb hlt h =>
    exact h.returns (hin.waitBarrier (hbc.hasToWait hb hlt) _) (hr.append (by simp [ReturnOk]))
  | @waitLast o i b _ hb hlast =>
    have harrived : Along ReturnOk (s.trace ++ [Event.arrived c i]) := hr.append (by simp [ReturnOk])
    exact along_append_cons.mpr
      (along_append_singleton.mpr ⟨harrived, hbc.returnOk_waitLast hb hlast c⟩)
  | @waitOver o i b _ hb hover =>
    have harrived : Along ReturnOk (s.trace ++ [Event.arrived c i]) := hr.append (by simp [ReturnOk])
    exact along_append_cons.mpr
      (along_append_singleton.mpr ⟨harrived, hbc.returnOk_waitOver hb hover c⟩)

/-! ### Runs -/

/-- Everything that holds between calls. -/
structure Told (s : State) : Prop extends Good s, Counted s where
  inCall : s.life = .active → InCall s
  returns : Along ReturnOk s.trace

theorem told_start : Told State.start := by
  refine ⟨good_start, counted_start, ?_, along_nil⟩
  intro _ x q hlive
  cases hlive

theorem Told.call (h : Told s) (hf : FindsReady s cl) : Told (call s cl).2 := by
  by_cases hlife : s.life = .active
  · obtain ⟨l, c, hst⟩ := h.stage hlife
    have hq := h.queued hlife
    have hin := h.inCall hlife
    have heff := call_effect hst hq hf hlife
    exact ⟨h.toGood.call hf, heff.counted h.toCounted, heff.inCall hst hq h.barrier hin,
      heff.returns h.barrier hin h.returns⟩
  · rw [call_of_dead hlife]
    exact h

/-- **Every return of every run was waited for.** -/
theorem run_told (cs : List Call) (h : RunOk call FindsReady State.start cs) :
    Told (run call State.start cs) :=
  run_invariant (fun _ _ hI hf => Told.call hI hf) cs _ told_start h

end EC440.ThreadSync
