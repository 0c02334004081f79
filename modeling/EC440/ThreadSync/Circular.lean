import EC440.ThreadSync.Invariant

/-!
# The ring of threads

After the first `pthread_create` and as long as the process runs, the control blocks form one
circular doubly linked list with `curr` in it, `num_curr_threads` is its length, and the thread ids
are distinct (`run_circular`).

The ids come from a counter, which does not wrap in a run of fewer than `2 ^ 31` creations:
`Ids s n` says that it has not passed `n`.
-/

namespace EC440.ThreadSync

open EC440.Lib

variable {s s' : State} {l L : List Nat} {c n n' : Nat} {cl : Call}

/-- The blocks that are live form one circular doubly linked list with `curr`. -/
structure Circular (s : State) : Prop where
  next_prev : ∀ x, s.live x = true →
    ∃ y, s.live y = true ∧ s.next x = some y ∧ s.prev y = some x
  prev_next : ∀ x, s.live x = true →
    ∃ y, s.live y = true ∧ s.prev x = some y ∧ s.next y = some x
  round : ∃ c n, s.curr = some c ∧ s.live c = true ∧ s.numCurrThreads = Int.ofNat n ∧
    walk s.next n c = some c ∧
      ∀ x, s.live x = true → ∃! k, k < n ∧ walk s.next k c = some x
  ids : ∀ x y, s.live x = true → s.live y = true → s.threadId x = s.threadId y → x = y

/-! ### The thread ids -/

/-- The ids in use are distinct and below the counter, which is at most `n`. -/
structure Ids (s : State) (n : Nat) : Prop where
  inj : ∀ x y, s.live x = true → s.live y = true → s.threadId x = s.threadId y → x = y
  lt : ∀ x, s.live x = true → s.threadId x < s.threadIdCounter
  le : s.isFirstCall = false → s.threadIdCounter ≤ n

theorem Ids.frame (h : Ids s n) (hn : n ≤ n') (hlive : ∀ x, s'.live x = true → s.live x = true)
    (hid : s'.threadId = s.threadId) (hcounter : s'.threadIdCounter = s.threadIdCounter)
    (hfirst : s'.isFirstCall = s.isFirstCall) : Ids s' n' := by
  refine ⟨?_, ?_, ?_⟩
  · intro x y hx hy hxy
    rw [hid] at hxy
    exact h.inj x y (hlive x hx) (hlive y hy) hxy
  · intro x hx
    rw [hid, hcounter]
    exact h.lt x (hlive x hx)
  · intro hf
    rw [hfirst] at hf
    rw [hcounter]
    exact (h.le hf).trans hn

theorem Ids.spawned (h : Ids s n) (hle : s.threadIdCounter ≤ n) (hn : n + 1 < 2 ^ 64)
    (next prev : Nat → Option Nat) (head : Option Nat) :
    Ids (s.spawned next prev head) (n + 1) := by
  have hcounter : (s.spawned next prev head).threadIdCounter = s.threadIdCounter + 1 :=
    Nat.mod_eq_of_lt (by omega)
  -- a block that is live is the new one, or was live with a smaller id
  have hcases : ∀ x, (s.spawned next prev head).live x = true →
      (x = s.nextTcb ∧ (s.spawned next prev head).threadId x = s.threadIdCounter) ∨
        (s.live x = true ∧ (s.spawned next prev head).threadId x = s.threadId x) := by
    intro x hx
    simp only [State.spawned, Function.update_apply] at hx ⊢
    by_cases hxn : x = s.nextTcb
    · exact .inl ⟨hxn, by rw [if_pos hxn]⟩
    · rw [if_neg hxn] at hx
      exact .inr ⟨hx, by rw [if_neg hxn]⟩
  refine ⟨?_, ?_, ?_⟩
  · intro x y hx hy hxy
    rcases hcases x hx with ⟨rfl, hidx⟩ | ⟨hx', hidx⟩ <;> rcases hcases y hy with ⟨rfl, hidy⟩ | ⟨hy', hidy⟩
    · rfl
    · have := h.lt y hy'
      omega
    · have := h.lt x hx'
      omega
    · exact h.inj x y hx' hy' (by rw [← hidx, ← hidy, hxy])
  · intro x hx
    rw [hcounter]
    rcases hcases x hx with ⟨-, hid⟩ | ⟨hx', hid⟩
    · omega
    · have := h.lt x hx'
      omega
  · intro _
    rw [hcounter]
    omega

theorem Ids.initialised (hlive : ∀ x, s.live x = false) : Ids s.initialised 1 := by
  have hmain : ∀ x, s.initialised.live x = true → x = s.nextTcb := by
    intro x hx
    by_contra hne
    simp [State.initialised, schedulerInit, State.setEnv, State.setNext, State.setPrev,
      State.setStatus, Function.update_of_ne hne, hlive] at hx
  refine ⟨?_, ?_, ?_⟩
  · intro x y hx hy _
    rw [hmain x hx, hmain y hy]
  · intro x hx
    rw [hmain x hx]
    simp [State.initialised, schedulerInit]
  · intro _
    exact Nat.le_refl 1

theorem Switch.ids (h : Switch s L s') (hids : Ids s n) : Ids s' n := by
  cases h
  exact hids.frame (Nat.le_refl n) (fun _ hx => hx) rfl rfl rfl

/-- One call uses at most one id, and only `pthread_create` uses any. -/
theorem Effect.ids (h : Effect s l c cl s') (hst : Stage s l c) (hids : Ids s n) (hpos : 1 ≤ n)
    (hn : (n + if cl = .create then 1 else 0) < 2 ^ 64) (hlife : s'.life = .active) :
    Ids s' (n + if cl = .create then 1 else 0) := by
  have hle : n ≤ n + if cl = .create then 1 else 0 := by omega
  cases h with
  | same => exact hids.frame hle (fun _ hx => hx) rfl rfl rfl
  | undefined => cases hlife
  | createFirst hfirst next prev head =>
    cases hst with
    | idle _ _ _ _ hlive =>
      have hinit : Ids s.initialised n :=
        (Ids.initialised hlive).frame hpos (fun _ hx => hx) rfl rfl rfl
      exact hinit.spawned hpos hn next prev head
    | sched hs => rw [hs.first] at hfirst; cases hfirst
  | create next prev head hs' => exact hids.spawned (hids.le hs'.first) hn next prev head
  | @exit _ p q _ _ h =>
    refine Switch.ids h (hids.frame hle ?_ rfl rfl rfl)
    intro x hx
    simp only [State.unlinked, Function.update_apply] at hx
    split at hx
    · cases hx
    · exact hx
  | ended hover => rw [hover] at hlife; cases hlife
  | alarm h => exact Switch.ids h (hids.frame hle (fun _ hx => hx) rfl rfl rfl)
  | lockBusy _ _ _ h => exact Switch.ids h (hids.frame hle (fun _ hx => hx) rfl rfl rfl)
  | waitBlocks _ _ _ h => exact Switch.ids h (hids.frame hle (fun _ hx => hx) rfl rfl rfl)
  | _ => exact hids.frame hle (fun _ hx => hx) rfl rfl rfl

theorem run_ids : ∀ (cs : List Call) (s : State) (n : Nat), Good s → 1 ≤ n →
    (s.life = .active → Ids s n) → n + cs.count .create < 2 ^ 64 →
    RunOk call FindsReady s cs → (run call s cs).life = .active →
    Ids (run call s cs) (n + cs.count .create) := by
  intro cs
  induction cs with
  | nil =>
    intro s n _ _ hids _ _ hlife
    exact hids hlife
  | cons cl cs ih =>
    intro s n hg hpos hids hn hok hlife
    have hcount : (cl :: cs).count .create = cs.count .create + if cl = .create then 1 else 0 := by
      rw [List.count_cons]
      simp
    rw [hcount] at hn ⊢
    have hstep : (call s cl).2.life = .active →
        Ids (call s cl).2 (n + if cl = .create then 1 else 0) := by
      intro hlife'
      by_cases hlive : s.life = .active
      · obtain ⟨l, c, hst⟩ := hg.stage hlive
        exact (call_effect hst (hg.queued hlive) hok.1 hlive).ids hst (hids hlive) hpos
          (by omega) hlife'
      · rw [call_of_dead hlive] at hlife'
        exact absurd hlife' hlive
    have hrest := ih _ _ (hg.call hok.1) (by omega) hstep (by omega) hok.2 hlife
    rw [Nat.add_assoc, Nat.add_comm (if cl = .create then 1 else 0)] at hrest
    exact hrest

/-! ### The ring -/

theorem Sched.circular (h : Sched s l c) (hids : Ids s n) : Circular s := by
  have hmem : ∀ x, s.live x = true → x ∈ l ++ [c] := fun x hx => (h.live x).mp hx
  have hlive : ∀ x ∈ l ++ [c], s.live x = true := fun x hx => (h.live x).mpr hx
  refine ⟨?_, ?_, ?_, hids.inj⟩
  · intro x hx
    obtain ⟨y, hy, hlink⟩ := h.ring.exists_next (hmem x hx)
    exact ⟨y, hlive y hy, hlink.1, hlink.2⟩
  · intro x hx
    obtain ⟨y, hy, hlink⟩ := h.ring.exists_prev (hmem x hx)
    exact ⟨y, hlive y hy, hlink.2, hlink.1⟩
  · refine ⟨c, l.length + 1, h.curr, h.live_curr, h.num, h.ring.walk_round, ?_⟩
    intro x hx
    exact h.ring.existsUnique_walk (hmem x hx)

theorem Ids.start : Ids State.start 1 := by
  refine ⟨?_, ?_, ?_⟩
  · intro x y hx
    cases hx
  · intro x hx
    cases hx
  · intro hfirst
    cases hfirst

/-- **The threads form one ring** in every run of at most `MAX_THREADS + 1` threads at a time, from
the first `pthread_create` to the exit of the process. -/
theorem run_circular (cs : List Call) (hrun : RunOk call Ok State.start cs)
    (hcreates : cs.count .create < 2 ^ 31) (hlife : (run call State.start cs).life = .active)
    (hfirst : (run call State.start cs).isFirstCall = false) :
    Circular (run call State.start cs) := by
  have hfinds := findsReady_of_ok cs hrun
  have hids := run_ids cs State.start 1 good_start (Nat.le_refl 1) (fun _ => Ids.start) (by omega)
    hfinds hlife
  obtain ⟨l, c, hst⟩ := (run_good cs hfinds).stage hlife
  cases hst with
  | idle hidle => rw [hfirst] at hidle; cases hidle
  | sched hs => exact hs.circular hids

/-- Three threads that block, wake each other, come and go: the ring shrinks to one thread and grows again. -/
def growAndShrink : List Call :=
  [.create, .mutexInit 0, .lock 0, .alarm, .create, .lock 0, .alarm, .unlock 0, .exit, .exit, .create, .alarm]

theorem run_circular_growAndShrink : Circular (run call State.start growAndShrink) :=
  run_circular growAndShrink (by decide +kernel) (by decide +kernel) (by decide +kernel) (by decide +kernel)

end EC440.ThreadSync
