import EC440.ThreadSync.Barrier

/-!
# Blocked threads and the search that finds nobody

When a call blocks and the search of `schedule` finds no ready thread, `schedule` returns to the
thread that has just been blocked.  Its call returns although nobody has woken it, and `curr` stays
where the search ended (`deadlock_unwoken`).  When every search finds a ready thread this does not
happen: no blocked thread proceeds unwoken, and `curr` is the thread that executes
(`run_neverUnwoken`).

A barrier whose count does not fit an `int` has a negative one, and lets every thread through
without waiting.
-/

namespace EC440.ThreadSync

open EC440.Lib

variable {s s' : State} {l L : List Nat} {c t x i n : Nat} {cl : Call} {es tr : List Event}

/-- A call of `pthread_mutex_lock` that found the mutex locked returns only after the mutex was
handed to it; a call of `pthread_barrier_wait` that was not the last arrival of its round returns only
after that one; and the thread that executes is `curr` and `TS_RUNNING`. -/
structure NeverUnwoken (s : State) : Prop where
  lock : ∀ P t i rest P₁ P₂, s.trace = P ++ .lockReturned t i :: rest →
    P = P₁ ++ .lockCalled t i true :: P₂ → (∀ e ∈ P₂, ¬ e.ByThread t) → .handed t i ∈ P₂
  wait : ∀ P t i r rest P₁ P₂ n, s.trace = P ++ .waitReturned t i r :: rest →
    P = P₁ ++ .arrived t i :: P₂ → (∀ e ∈ P₂, ¬ e.ByThread t) →
    .barrierMade i n ∈ s.trace → arrivals i P₁ % n + 1 ≠ n →
    (arrivals i P₁ / n + 1) * n ≤ arrivals i P
  curr : s.life = .active → s.isFirstCall = false →
    s.curr = some s.exec ∧ s.live s.exec = true ∧ s.status s.exec = .running

/-- The count of a barrier that is waited at fits an `int`. -/
def countFits (s : State) : Call → Bool
  | .wait o =>
    match (s.barrierObj o).bind s.barrierInfos with
    | some b => decide (0 < b.count)
    | none => true
  | _ => true

/-- Every search finds a ready thread, and the counts of the barriers fit. -/
def Wakes (s : State) (cl : Call) : Prop := FindsReady s cl ∧ countFits s cl = true

instance : Decidable (Wakes s cl) := inferInstanceAs (Decidable (_ ∧ _))

/-! ### Barriers that can be waited at -/

/-- A thread arrives only at a barrier whose count fits. -/
def SmallOk (P : List Event) : Event → Prop
  | .arrived _ i => ∃ n, Made i n P
  | _ => True

theorem BarrierCounts.exists_made (h : BarrierCounts s) {b : BarrierInfo}
    (hb : s.barrierInfos i = some b) (hpos : 0 < b.count) : ∃ n, Made i n s.trace := by
  obtain ⟨n, hn⟩ := h.made i b hb
  obtain ⟨hn1, hlt, hcount⟩ := h.range i b n hb hn
  refine ⟨n, hn, hn1, ?_⟩
  rw [hcount, Int.bmod] at hpos
  split at hpos <;> omega

theorem smallOk_of_none (hes : ∀ i, arrivals i es = 0) : ∀ e ∈ es, ∀ P, SmallOk P e := by
  intro e he P
  cases e with
  | arrived t i => exact absurd he (not_mem_of_arrivals_eq_zero (hes i))
  | _ => trivial

theorem Switch.small (hs : Switch s L s') (h : Along SmallOk s.trace) : Along SmallOk s'.trace := by
  obtain ⟨x, rfl, htrace, -⟩ := hs.exists_resume
  rw [htrace]
  exact h.append (smallOk_of_none fun i => (counts_wakeEvents s x i).2.2)

theorem Effect.small (h : Effect s l c cl s') (hbc : BarrierCounts s) (hfits : countFits s cl = true)
    (hr : Along SmallOk s.trace) : Along SmallOk s'.trace := by
  have hother : ∀ {es : List Event}, (∀ i, arrivals i es = 0) → Along SmallOk (s.trace ++ es) :=
    fun hes => hr.append (smallOk_of_none hes)
  have harrive : ∀ {o i : Nat} {b : BarrierInfo}, cl = .wait o → s.barrierObj o = some i →
      s.barrierInfos i = some b → Along SmallOk (s.trace ++ [.arrived c i]) := by
    rintro o i b rfl ho hb
    have hpos : 0 < b.count := by simpa [countFits, ho, hb] using hfits
    exact along_append_singleton.mpr ⟨hr, hbc.exists_made hb hpos⟩
  cases h with
  | same => exact hr
  | undefined => exact hr
  | createFirst => exact hr
  | create => exact hr
  | exit _ h => exact h.small hr
  | ended _ htrace => rw [htrace]; exact hr
  | alarm h => exact h.small hr
  | mutexInit => exact hr
  | mutexDestroy => exact hr
  | lockFree => exact hother fun _ => rfl
  | lockBusy _ _ _ h => exact h.small (hother fun _ => rfl)
  | unlockLast => exact hother fun _ => rfl
  | unlockNext => exact hother fun _ => rfl
  | barrierInit => exact hother fun _ => rfl
  | barrierDestroy => exact hr
  | waitBlocks ho hb hlt h => exact h.small (harrive rfl ho hb)
  | waitLast ho hb hlast =>
    exact along_append_cons.mpr ((harrive rfl ho hb).append (smallOk_of_none fun _ => rfl))
  | waitOver ho hb hover =>
    exact along_append_cons.mpr ((harrive rfl ho hb).append (smallOk_of_none fun _ => rfl))

theorem run_small (cs : List Call) (h : RunOk call Wakes State.start cs) :
    Told (run call State.start cs) ∧ Along SmallOk (run call State.start cs).trace := by
  refine run_invariant (I := fun s => Told s ∧ Along SmallOk s.trace) ?_ cs _ ⟨told_start, along_nil⟩ h
  rintro s cl ⟨ht, hr⟩ ⟨hf, hfits⟩
  refine ⟨ht.call hf, ?_⟩
  by_cases hlife : s.life = .active
  · obtain ⟨l, c, hst⟩ := ht.stage hlife
    exact (call_effect hst (ht.queued hlife) hf hlife).small ht.barrier hfits hr
  · rw [call_of_dead hlife]
    exact hr

/-! ### No thread proceeds unwoken -/

/-- **No blocked thread proceeds unwoken** in a run whose searches find a ready thread. -/
theorem run_neverUnwoken (cs : List Call) (hrun : RunOk call Wakes State.start cs) :
    NeverUnwoken (run call State.start cs) := by
  obtain ⟨htold, hsmall⟩ := run_small cs hrun
  generalize run call State.start cs = s at *
  refine ⟨?_, ?_, ?_⟩
  · intro P t i rest P₁ P₂ htr hP hstop
    obtain ⟨found, P₁', P₂', hP', hstop', hacq⟩ := htold.returns P _ rest htr
    obtain ⟨-, hq, rfl⟩ := last_unique (Event.ByThread t) (hP.symm.trans hP') rfl rfl hstop hstop'
    obtain rfl : found = true := by
      injection hq with _ _ hfound
      exact hfound.symm
    simpa using hacq
  · intro P t i r rest P₁ P₂ n htr hP hstop hmade hmod
    obtain ⟨P₁', P₂', hP', hstop', hret⟩ := htold.returns P _ rest htr
    obtain ⟨rfl, -, rfl⟩ := last_unique (Event.ByThread t) (hP.symm.trans hP') rfl rfl hstop hstop'
    have htr' : s.trace = P₁ ++ .arrived t i :: (P₂ ++ .waitReturned t i r :: rest) := by
      rw [htr, hP]
      simp
    obtain ⟨n', hn'⟩ := hsmall P₁ _ _ htr'
    have hmem : .barrierMade i n' ∈ s.trace := by
      rw [htr']
      exact List.mem_append_left _ hn'.1
    obtain rfl := htold.barrier.unique i n' n hmem hmade
    exact (hret n' hn').1
  · intro hlife hfirst
    obtain ⟨l, c, hst⟩ := htold.stage hlife
    cases hst with
    | idle hidle => rw [hfirst] at hidle; cases hidle
    | sched hs => exact ⟨by rw [hs.exec]; exact hs.curr, by rw [hs.exec]; exact hs.live_curr, by rw [hs.exec]; exact hs.running⟩

/-- Each of two threads locks one mutex and then waits for the other's. -/
def deadlock : List Call :=
  [.create, .mutexInit 0, .mutexInit 1, .lock 0, .alarm, .lock 1, .lock 0, .lock 1]

/-- The second thread to wait finds nobody ready, and its call returns at once, with `curr` at
the other thread. -/
theorem deadlock_unwoken : ¬ NeverUnwoken (run call State.start deadlock) := by
  intro h
  have hmem := h.lock
    [.lockCalled 0 0 false, .acquired 0 0, .lockReturned 0 0, .dispatched 1, .lockCalled 1 1 false,
      .acquired 1 1, .lockReturned 1 1, .lockCalled 1 0 true, .dispatched 0, .lockCalled 0 1 true]
    0 1 []
    [.lockCalled 0 0 false, .acquired 0 0, .lockReturned 0 0, .dispatched 1, .lockCalled 1 1 false,
      .acquired 1 1, .lockReturned 1 1, .lockCalled 1 0 true, .dispatched 0] []
    (by decide +kernel) rfl (by simp)
  simp at hmem

/-- The two threads that take turns: the search finds the other one each time. -/
def takeTurns : List Call :=
  [.create, .mutexInit 0, .barrierInit 0 2, .lock 0, .alarm, .lock 0, .unlock 0, .wait 0, .unlock 0, .wait 0]

theorem run_neverUnwoken_takeTurns : NeverUnwoken (run call State.start takeTurns) :=
  run_neverUnwoken takeTurns (by decide +kernel)

end EC440.ThreadSync
