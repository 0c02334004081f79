import EC440.ThreadSync.Returns

/-!
# Barriers

The calls of `pthread_barrier_wait` on a barrier for `n` threads form rounds of `n`, in the order in
which they arrive: the call that arrives after `k` others is in round `k / n`, and it is the last one
of its round when `k % n + 1 = n`.  `barrier_rounds` says that no call returns before its round is
complete, and what it returns.
-/

namespace EC440.ThreadSync

open EC440.Lib

variable {s s' : State} {l L : List Nat} {c t x i n : Nat} {cl : Call} {es tr : List Event}

/-- A thread arrives only at a barrier that was made. -/
def ArrivalOk (P : List Event) : Event → Prop
  | .arrived _ i => ∃ n, .barrierMade i n ∈ P
  | _ => True

/-- The last arrival of a round returns `PTHREAD_BARRIER_SERIAL_THREAD` at once. -/
def SerialOk (tr : List Event) : Prop :=
  ∀ P t i n rest, tr = P ++ .arrived t i :: rest → Made i n P → arrivals i P % n + 1 = n →
    ∃ rest', rest = .waitReturned t i barrierSerialThread :: rest'

theorem SerialOk.append (h : SerialOk tr)
    (hes : ∀ P t i n rest, es = P ++ .arrived t i :: rest → Made i n (tr ++ P) →
      arrivals i (tr ++ P) % n + 1 = n → ∃ rest', rest = .waitReturned t i barrierSerialThread :: rest') :
    SerialOk (tr ++ es) := by
  intro P t i n rest heq hmade hmod
  rcases List.append_eq_append_iff.mp heq with ⟨P', rfl, hP'⟩ | ⟨R, rfl, hR⟩
  · exact hes P' t i n rest hP' hmade hmod
  · cases R with
    | nil =>
      rw [List.append_nil] at hes
      exact hes [] t i n rest hR.symm (by simpa using hmade) (by simpa using hmod)
    | cons e R =>
      rw [List.cons_append, List.cons.injEq] at hR
      obtain ⟨rfl, rfl⟩ := hR
      obtain ⟨rest', rfl⟩ := h P t i n R rfl hmade hmod
      exact ⟨rest' ++ es, rfl⟩

theorem SerialOk.append_other (h : SerialOk tr) (hes : ∀ i, arrivals i es = 0) : SerialOk (tr ++ es) := by
  refine h.append ?_
  rintro P t i n rest rfl
  have := hes i
  simp [arrivals, Event.isArrival] at this

/-- One arrival, with what follows it. -/
theorem SerialOk.arrive (h : SerialOk tr) (hes : ∀ i, arrivals i es = 0)
    (hlast : ∀ n, Made i n tr → arrivals i tr % n + 1 = n →
      ∃ rest', es = .waitReturned c i barrierSerialThread :: rest') :
    SerialOk (tr ++ .arrived c i :: es) := by
  refine h.append ?_
  intro P t j n rest heq hmade hmod
  cases P with
  | nil =>
    simp only [List.nil_append, List.cons.injEq, Event.arrived.injEq] at heq
    obtain ⟨⟨rfl, rfl⟩, rfl⟩ := heq
    exact hlast n (by simpa using hmade) (by simpa using hmod)
  | cons e P =>
    rw [List.cons_append, List.cons.injEq] at heq
    have := hes j
    simp [heq.2, arrivals, Event.isArrival] at this

/-- What is said of the arrivals. -/
structure Rounds (tr : List Event) : Prop where
  arrival : Along ArrivalOk tr
  serial : SerialOk tr

theorem arrivalOk_of_none (hes : ∀ i, arrivals i es = 0) : ∀ e ∈ es, ∀ P, ArrivalOk P e := by
  intro e he P
  cases e with
  | arrived t i => exact absurd he (not_mem_of_arrivals_eq_zero (hes i))
  | _ => trivial

theorem Rounds.append (h : Rounds tr) (hes : ∀ i, arrivals i es = 0) : Rounds (tr ++ es) :=
  ⟨h.arrival.append (arrivalOk_of_none hes), h.serial.append_other hes⟩

theorem Rounds.arrive (h : Rounds tr) (hmade : ∃ n, .barrierMade i n ∈ tr)
    (hes : ∀ i, arrivals i es = 0)
    (hlast : ∀ n, Made i n tr → arrivals i tr % n + 1 = n →
      ∃ rest', es = .waitReturned c i barrierSerialThread :: rest') :
    Rounds (tr ++ .arrived c i :: es) := by
  refine ⟨along_append_cons.mpr ?_, h.serial.arrive hes hlast⟩
  exact Along.append (along_append_singleton.mpr ⟨h.arrival, hmade⟩) (arrivalOk_of_none hes)

theorem Switch.rounds (hs : Switch s L s') (h : Rounds s.trace) : Rounds s'.trace := by
  obtain ⟨x, rfl, htrace, -⟩ := hs.exists_resume
  rw [htrace]
  exact h.append fun i => (counts_wakeEvents s x i).2.2

/-- **Every call keeps** what is said of the arrivals. -/
theorem Effect.rounds (h : Effect s l c cl s') (hbc : BarrierCounts s) (hr : Rounds s.trace) :
    Rounds s'.trace := by
  cases h with
  | same => exact hr
  | undefined => exact hr
  | createFirst => exact hr
  | create => exact hr
  | exit _ h => exact h.rounds hr
  | ended _ htrace => rw [htrace]; exact hr
  | alarm h => exact h.rounds hr
  | mutexInit => exact hr
  | mutexDestroy => exact hr
  | lockFree => exact hr.append fun _ => rfl
  | lockBusy _ _ _ h => exact h.rounds (hr.append fun _ => rfl)
  | unlockLast => exact hr.append fun _ => rfl
  | unlockNext => exact hr.append fun _ => rfl
  | barrierInit => exact hr.append fun _ => rfl
  | barrierDestroy => exact hr
  | @waitBlocks o i b _ _ hb hlt h =>
    refine h.rounds (hr.arrive (hbc.made i b hb) (fun _ => rfl) ?_)
    intro n hn hmod
    have := hbc.hasToWait hb hlt n hn
    omega
  | @waitLast o i b _ hb hlast =>
    exact hr.arrive (hbc.made i b hb) (fun _ => rfl) fun _ _ _ => ⟨[], rfl⟩
  | @waitOver o i b _ hb hover =>
    refine hr.arrive (hbc.made i b hb) (fun _ => rfl) ?_
    intro n hn hmod
    obtain ⟨hcount, hentered, hlen⟩ := hbc.entered i b n hb hn
    omega

theorem run_rounds (cs : List Call) (h : RunOk call FindsReady State.start cs) :
    Rounds (run call State.start cs).trace := by
  have hstart : Rounds State.start.trace :=
    ⟨along_nil, fun P t i n rest heq => absurd heq (by simp [State.start])⟩
  refine (run_invariant (I := fun s => Told s ∧ Rounds s.trace) ?_ cs _ ⟨told_start, hstart⟩ h).2
  rintro s cl ⟨ht, hr⟩ hf
  refine ⟨ht.call hf, ?_⟩
  by_cases hlife : s.life = .active
  · obtain ⟨l, c, hst⟩ := ht.stage hlife
    exact (call_effect hst (ht.queued hlife) hf hlife).rounds ht.barrier hr
  · rw [call_of_dead hlife]
    exact hr

/-- A barrier was made before the threads arrive at it. -/
theorem Rounds.made_of_arrived (h : Rounds tr) (hbc : BarrierCounts s) (htr : s.trace = tr)
    {P₁ P₂ : List Event} (heq : tr = P₁ ++ .arrived t i :: P₂) (hn : Made i n tr) : Made i n P₁ := by
  obtain ⟨n', hn'⟩ := h.arrival P₁ _ P₂ heq
  have hmem : .barrierMade i n' ∈ s.trace := by
    rw [htr, heq]
    exact List.mem_append_left _ hn'
  have hnn : n' = n := hbc.unique i n' n hmem (by rw [htr]; exact hn.1)
  exact ⟨hnn ▸ hn', hn.2⟩

/-- **Rounds of a barrier.**  In every run, for a barrier made for `n` threads: a call that returns has
arrived, after it only others have acted until its round was complete, and it returns
`PTHREAD_BARRIER_SERIAL_THREAD` if it was the last to arrive and `0` if not; the last to arrive
returns at once; and between calls the counter is the length of the queue and below `n`. -/
theorem barrier_rounds (cs : List Call) (hrun : RunOk call Ok State.start cs) (i n : Nat)
    (hmade : .barrierMade i n ∈ (run call State.start cs).trace) (hpos : 1 ≤ n) (hn : n < 2 ^ 31) :
    (∀ P t r rest, (run call State.start cs).trace = P ++ .waitReturned t i r :: rest →
      ∃ P₁ P₂, P = P₁ ++ .arrived t i :: P₂ ∧ (∀ e ∈ P₂, ¬ e.ByThread t) ∧
        (arrivals i P₁ / n + 1) * n ≤ arrivals i P ∧
        r = if arrivals i P₁ % n + 1 = n then barrierSerialThread else 0) ∧
    (∀ P t rest, (run call State.start cs).trace = P ++ .arrived t i :: rest →
      arrivals i P % n + 1 = n →
      ∃ rest', rest = .waitReturned t i barrierSerialThread :: rest') ∧
    (∀ b, (run call State.start cs).barrierInfos i = some b →
      b.numThreadsEntered = b.waiters.length ∧ b.numThreadsEntered < n) := by
  have hfinds := findsReady_of_ok cs hrun
  have htold := run_told cs hfinds
  have hrounds := run_rounds cs hfinds
  have hm : Made i n (run call State.start cs).trace := ⟨hmade, hpos, hn⟩
  refine ⟨?_, ?_, ?_⟩
  · intro P t r rest htr
    obtain ⟨P₁, P₂, hP, hstop, hret⟩ := htold.returns P _ rest htr
    have hP₁ : Made i n P₁ := by
      have heq : (run call State.start cs).trace = P₁ ++ .arrived t i :: (P₂ ++ .waitReturned t i r :: rest) := by
        rw [htr, hP]
        simp
      exact hrounds.made_of_arrived htold.barrier rfl heq hm
    exact ⟨P₁, P₂, hP, hstop, hret n hP₁⟩
  · intro P t rest htr hmod
    exact hrounds.serial P t i n rest htr (hrounds.made_of_arrived htold.barrier rfl htr hm) hmod
  · intro b hb
    obtain ⟨hcount, hentered, hlen⟩ := htold.barrier.entered i b n hb hm
    have hlt := Nat.mod_lt (arrivals i (run call State.start cs).trace) hpos
    omega

/-- Two threads pass a barrier twice: the main thread enters the second round before the other has
returned from the first. -/
def twoRounds : List Call :=
  [.create, .barrierInit 0 2, .alarm, .wait 0, .wait 0, .wait 0, .wait 0, .alarm]

theorem barrier_rounds_twoRounds :
    (∀ P t r rest, (run call State.start twoRounds).trace = P ++ .waitReturned t 0 r :: rest →
      ∃ P₁ P₂, P = P₁ ++ .arrived t 0 :: P₂ ∧ (∀ e ∈ P₂, ¬ e.ByThread t) ∧
        (arrivals 0 P₁ / 2 + 1) * 2 ≤ arrivals 0 P ∧
        r = if arrivals 0 P₁ % 2 + 1 = 2 then barrierSerialThread else 0) ∧
    (∀ P t rest, (run call State.start twoRounds).trace = P ++ .arrived t 0 :: rest →
      arrivals 0 P % 2 + 1 = 2 →
      ∃ rest', rest = .waitReturned t 0 barrierSerialThread :: rest') ∧
    (∀ b, (run call State.start twoRounds).barrierInfos 0 = some b →
      b.numThreadsEntered = b.waiters.length ∧ b.numThreadsEntered < (2 : Nat)) :=
  barrier_rounds twoRounds (by decide +kernel) 0 2 (by decide +kernel) (by decide) (by decide)

end EC440.ThreadSync
