import EC440.ThreadSync.Returns

/-!
# Mutexes

A thread owns a mutex from its acquisition on, and holds it from the return of
`pthread_mutex_lock` on, until it unlocks it.  When only holders unlock, a mutex that has an owner is
locked and has no other (`Exclusive`), so no two threads are ever between lock and unlock.

`mutex_safety` puts this together with the count of acquisitions and what a return has behind it.
-/

namespace EC440.ThreadSync

open EC440.Lib

variable {s s' : State} {l L : List Nat} {c t x i j o : Nat} {cl : Call} {e : Event}
  {es tr : List Event}

/-- The thread `t` has acquired the mutex `i` and not unlocked it since. -/
def Owns (t i : Nat) (tr : List Event) : Prop :=
  Pending (.acquired t i) (· = .unlocked t i) tr ∨ Pending (.handed t i) (· = .unlocked t i) tr

/-- The thread `t` has returned from `pthread_mutex_lock` and not unlocked the mutex `i` since. -/
def Holds (t i : Nat) (tr : List Event) : Prop :=
  Pending (.lockReturned t i) (· = .unlocked t i) tr

theorem owns_append : Owns t i (tr ++ [e]) ↔
    (e = .acquired t i ∨ e = .handed t i) ∨ Owns t i tr ∧ e ≠ .unlocked t i := by
  simp only [Owns, pending_append_singleton]
  tauto

theorem holds_append : Holds t i (tr ++ [e]) ↔
    e = .lockReturned t i ∨ Holds t i tr ∧ e ≠ .unlocked t i :=
  pending_append_singleton

/-- Events that no owner and no holder sees. -/
def Event.Neutral : Event → Prop
  | .acquired _ _ => False
  | .handed _ _ => False
  | .lockReturned _ _ => False
  | .unlocked _ _ => False
  | _ => True

theorem Event.Neutral.ne (h : e.Neutral) :
    e ≠ .acquired t i ∧ e ≠ .handed t i ∧ e ≠ .lockReturned t i ∧ e ≠ .unlocked t i := by
  refine ⟨?_, ?_, ?_, ?_⟩
  all_goals
    rintro rfl
    exact h

theorem owns_append_neutral (hes : ∀ e ∈ es, e.Neutral) : Owns t i (tr ++ es) ↔ Owns t i tr := by
  induction es generalizing tr with
  | nil => rw [List.append_nil]
  | cons e es ih =>
    obtain ⟨hacquired, hhanded, -, hunlocked⟩ := (hes e List.mem_cons_self).ne (t := t) (i := i)
    rw [← List.singleton_append, ← List.append_assoc,
      ih fun e' he' => hes e' (List.mem_cons_of_mem e he'), owns_append,
      or_iff_right (not_or.mpr ⟨hacquired, hhanded⟩), and_iff_left hunlocked]

theorem holds_append_neutral (hes : ∀ e ∈ es, e.Neutral) : Holds t i (tr ++ es) ↔ Holds t i tr := by
  induction es generalizing tr with
  | nil => rw [List.append_nil]
  | cons e es ih =>
    obtain ⟨-, -, hreturned, hunlocked⟩ := (hes e List.mem_cons_self).ne (t := t) (i := i)
    rw [← List.singleton_append, ← List.append_assoc,
      ih fun e' he' => hes e' (List.mem_cons_of_mem e he'), holds_append, or_iff_right hreturned,
      and_iff_left hunlocked]

/-- Unlocks that succeed are made by holders. -/
def HolderUnlocks (s : State) : Call → Prop
  | .unlock o => s.life = .active → ∀ i m, s.mutexObj o = some i → s.mutexInfos i = some m →
      m.locked = true → Holds s.exec i s.trace
  | _ => True

structure Exclusive (s : State) : Prop where
  fresh : ∀ i t, s.nextMutex ≤ i → ¬ Owns t i s.trace
  unique : ∀ i t t', Owns t i s.trace → Owns t' i s.trace → t = t'
  locked : ∀ i t m, s.mutexInfos i = some m → Owns t i s.trace → m.locked = true
  owns : ∀ i t, Holds t i s.trace → Owns t i s.trace

namespace Exclusive

theorem neutral (h : Exclusive s) (hes : ∀ e ∈ es, e.Neutral)
    (hinfos : ∀ i m, s'.mutexInfos i = some m → ∃ m', s.mutexInfos i = some m' ∧ m.locked = m'.locked)
    (hnext : s'.nextMutex = s.nextMutex) (htrace : s'.trace = s.trace ++ es) : Exclusive s' := by
  have howns : ∀ t i, Owns t i s'.trace ↔ Owns t i s.trace := fun t i => by
    rw [htrace, owns_append_neutral hes]
  have hholds : ∀ t i, Holds t i s'.trace ↔ Holds t i s.trace := fun t i => by
    rw [htrace, holds_append_neutral hes]
  refine ⟨?_, ?_, ?_, ?_⟩
  · intro i t hi
    rw [howns]
    exact h.fresh i t (hnext ▸ hi)
  · intro i t t' ht ht'
    exact h.unique i t t' ((howns t i).mp ht) ((howns t' i).mp ht')
  · intro i t m hm ht
    obtain ⟨m', hm', heq⟩ := hinfos i m hm
    rw [heq]
    exact h.locked i t m' hm' ((howns t i).mp ht)
  · intro i t ht
    exact (howns t i).mpr (h.owns i t ((hholds t i).mp ht))

/-- The mutex `i` gets a new owner, or none, while its old owners are gone. -/
theorem change (h : Exclusive s) {m' : MutexInfo} (hbound : i < s.nextMutex)
    (howns : ∀ t j, j ≠ i → (Owns t j s'.trace ↔ Owns t j s.trace))
    (hholds : ∀ t j, j ≠ i → (Holds t j s'.trace ↔ Holds t j s.trace))
    (hunique : ∀ t t', Owns t i s'.trace → Owns t' i s'.trace → t = t')
    (hlocked : ∀ t, Owns t i s'.trace → m'.locked = true)
    (hi : ∀ t, Holds t i s'.trace → Owns t i s'.trace)
    (hinfos : s'.mutexInfos = Function.update s.mutexInfos i (some m'))
    (hnext : s'.nextMutex = s.nextMutex) : Exclusive s' := by
  refine ⟨?_, ?_, ?_, ?_⟩
  · intro j t hj
    rw [hnext] at hj
    rw [howns t j (by omega)]
    exact h.fresh j t hj
  · intro j t t' ht ht'
    by_cases hji : j = i
    · subst hji
      exact hunique t t' ht ht'
    · exact h.unique j t t' ((howns t j hji).mp ht) ((howns t' j hji).mp ht')
  · intro j t m₁ hj ht
    rw [hinfos, Function.update_apply] at hj
    split at hj
    · next hji =>
      subst hji
      cases hj
      exact hlocked t ht
    · next hji => exact h.locked j t m₁ hj ((howns t j hji).mp ht)
  · intro j t ht
    by_cases hji : j = i
    · subst hji
      exact hi t ht
    · exact (howns t j hji).mpr (h.owns j t ((hholds t j hji).mp ht))

end Exclusive

/-- A thread that is ready inside `pthread_mutex_lock` owns the mutex. -/
theorem InCall.owns (h : InCall s) (hlive : s.live x = true) (hready : s.status x = .ready)
    (hp : (s.env x).point = .inLock i) : Owns x i s.trace := by
  have hcall := h x (.lockCalled x i true) hlive (by rw [hready]; decide) (by rw [hp]; rfl)
  rw [hp] at hcall
  obtain ⟨P₁, P₂, htr, hstop, -, hb | hserved⟩ := hcall
  · rw [hready] at hb
    cases hb
  · obtain ⟨A, B, hAB⟩ := List.append_of_mem (show Event.handed x i ∈ P₂ from hserved)
    refine .inr ⟨P₁ ++ Event.lockCalled x i true :: A, B, by rw [htr, hAB]; simp, ?_⟩
    rintro e he rfl
    exact hstop (.unlocked x i) (by rw [hAB]; simp [he]) rfl

theorem Switch.exclusive (hs : Switch s L s') (hin : InCall s) (h : Exclusive s) : Exclusive s' := by
  obtain ⟨x, rfl, htrace, hlive, hready, -⟩ := hs.exists_resume
  have hinfos : ∀ i m, (s.resume x).mutexInfos i = some m →
      ∃ m', s.mutexInfos i = some m' ∧ m.locked = m'.locked := fun i m hm => ⟨m, hm, rfl⟩
  cases hp : (s.env x).point with
  | inLock i =>
    have hx := hin.owns hlive hready hp
    have htr : (s.resume x).trace = s.trace ++ [Event.dispatched x] ++ [Event.lockReturned x i] := by
      rw [htrace, wakeEvents, hp]
      simp [ThreadSync.returns]
    have howns : ∀ t j, Owns t j (s.resume x).trace ↔ Owns t j s.trace := by
      intro t j
      rw [htr, owns_append, owns_append]
      simp
    refine ⟨?_, ?_, ?_, ?_⟩
    · intro j t hj
      rw [howns]
      exact h.fresh j t hj
    · intro j t t' ht ht'
      exact h.unique j t t' ((howns t j).mp ht) ((howns t' j).mp ht')
    · intro j t m hm ht
      exact h.locked j t m hm ((howns t j).mp ht)
    · intro j t ht
      rw [howns]
      rw [htr, holds_append, holds_append] at ht
      rcases ht with ht | ⟨ht | ht, -⟩
      · cases ht
        exact hx
      · cases ht
      · exact h.owns j t ht.1
  | _ =>
    refine h.neutral ?_ hinfos rfl htrace
    rw [wakeEvents, hp]
    simp [ThreadSync.returns, Event.Neutral]

namespace Exclusive

theorem newMutex (h : Exclusive s) (o : Nat) : Exclusive (s.newMutex o) := by
  refine ⟨?_, h.unique, ?_, h.owns⟩
  · intro i t hi
    exact h.fresh i t (Nat.le_of_succ_le hi)
  · intro i t m hm ht
    simp only [State.newMutex, State.setMutex, Function.update_apply] at hm ht
    split at hm
    · next hi => exact absurd ht (h.fresh i t (by omega))
    · exact h.locked i t m hm ht

theorem freeMutex (h : Exclusive s) (i : Nat) : Exclusive (s.setMutex i none) := by
  refine ⟨h.fresh, h.unique, ?_, h.owns⟩
  intro j t m hm ht
  simp only [State.setMutex, Function.update_apply] at hm
  split at hm
  · cases hm
  · exact h.locked j t m hm ht

/-- The running thread acquires a mutex that is not locked. -/
theorem acquire (h : Exclusive s) {m : MutexInfo} (hm : s.mutexInfos i = some m)
    (hbound : i < s.nextMutex) (hfree : m.locked = false) :
    Exclusive ((s.setMutex i (some { m with locked := true })).log
      [.lockCalled c i false, .acquired c i, .lockReturned c i]) := by
  have htr : s.trace ++ [Event.lockCalled c i false, Event.acquired c i, Event.lockReturned c i] =
      s.trace ++ [Event.lockCalled c i false] ++ [Event.acquired c i] ++ [Event.lockReturned c i] := by simp
  have hnone : ∀ t, ¬ Owns t i s.trace := by
    intro t ht
    have := h.locked i t m hm ht
    rw [hfree] at this
    cases this
  have howns : ∀ t j, Owns t j (s.trace ++ [Event.lockCalled c i false, Event.acquired c i, Event.lockReturned c i]) ↔
      (c = t ∧ i = j) ∨ Owns t j s.trace := by
    intro t j
    rw [htr, owns_append, owns_append, owns_append]
    simp
  have hholds : ∀ t j, Holds t j (s.trace ++ [Event.lockCalled c i false, Event.acquired c i, Event.lockReturned c i]) ↔
      (c = t ∧ i = j) ∨ Holds t j s.trace := by
    intro t j
    rw [htr, holds_append, holds_append, holds_append]
    simp
  refine h.change hbound ?_ ?_ ?_ (fun _ _ => rfl) ?_ rfl rfl
  · intro t j hj
    exact (howns t j).trans (or_iff_right fun he => hj he.2.symm)
  · intro t j hj
    exact (hholds t j).trans (or_iff_right fun he => hj he.2.symm)
  · intro t t' ht ht'
    rcases (howns t i).mp ht with ⟨rfl, -⟩ | ht
    · rcases (howns t' i).mp ht' with ⟨rfl, -⟩ | ht'
      · rfl
      · exact absurd ht' (hnone t')
    · exact absurd ht (hnone t)
  · intro t ht
    refine (howns t i).mpr ?_
    rcases (hholds t i).mp ht with ht | ht
    · exact .inl ht
    · exact absurd (h.owns i t ht) (hnone t)

/-- The holder releases a mutex, and `next` gets it if it is anybody. -/
theorem release (h : Exclusive s) {m' : MutexInfo} (hbound : i < s.nextMutex)
    (hholder : Holds c i s.trace) (hes : es = [.unlocked c i] ∨
      ∃ x, es = [.unlocked c i, .handed x i] ∧ m'.locked = true)
    (hinfos : s'.mutexInfos = Function.update s.mutexInfos i (some m'))
    (hnext : s'.nextMutex = s.nextMutex) (htrace : s'.trace = s.trace ++ es) : Exclusive s' := by
  have honly : ∀ t, Owns t i s.trace → t = c := fun t ht =>
    h.unique i t c ht (h.owns i c hholder)
  rcases hes with rfl | ⟨x, rfl, hlocked⟩
  · have howns : ∀ t j, Owns t j s'.trace ↔ Owns t j s.trace ∧ ¬ (c = t ∧ i = j) := by
      intro t j
      rw [htrace, owns_append]
      simp
    have hholds : ∀ t j, Holds t j s'.trace ↔ Holds t j s.trace ∧ ¬ (c = t ∧ i = j) := by
      intro t j
      rw [htrace, holds_append]
      simp
    have hnone : ∀ t, ¬ Owns t i s'.trace := by
      intro t ht
      obtain ⟨ht, hne⟩ := (howns t i).mp ht
      exact hne ⟨(honly t ht).symm, rfl⟩
    refine h.change hbound ?_ ?_ (fun t t' ht => absurd ht (hnone t)) (fun t ht => absurd ht (hnone t)) ?_
      hinfos hnext
    · intro t j hj
      exact (howns t j).trans (and_iff_left fun he => hj he.2.symm)
    · intro t j hj
      exact (hholds t j).trans (and_iff_left fun he => hj he.2.symm)
    · intro t ht
      obtain ⟨ht, hne⟩ := (hholds t i).mp ht
      exact (howns t i).mpr ⟨h.owns i t ht, hne⟩
  · have htr : s'.trace = s.trace ++ [Event.unlocked c i] ++ [Event.handed x i] := by
      rw [htrace]
      simp
    have howns : ∀ t j, Owns t j s'.trace ↔
        (x = t ∧ i = j) ∨ Owns t j s.trace ∧ ¬ (c = t ∧ i = j) := by
      intro t j
      rw [htr, owns_append, owns_append]
      simp
    have hholds : ∀ t j, Holds t j s'.trace ↔ Holds t j s.trace ∧ ¬ (c = t ∧ i = j) := by
      intro t j
      rw [htr, holds_append, holds_append]
      simp
    have hx : ∀ t, Owns t i s'.trace → t = x := by
      intro t ht
      rcases (howns t i).mp ht with ⟨rfl, -⟩ | ⟨ht, hne⟩
      · rfl
      · exact absurd ⟨(honly t ht).symm, rfl⟩ hne
    refine h.change hbound ?_ ?_ (fun t t' ht ht' => (hx t ht).trans (hx t' ht').symm)
      (fun _ _ => hlocked) ?_ hinfos hnext
    · intro t j hj
      rw [howns, or_iff_right fun he => hj he.2.symm]
      exact and_iff_left fun he => hj he.2.symm
    · intro t j hj
      exact (hholds t j).trans (and_iff_left fun he => hj he.2.symm)
    · intro t ht
      obtain ⟨ht, hne⟩ := (hholds t i).mp ht
      exact (howns t i).mpr (.inr ⟨h.owns i t ht, hne⟩)

end Exclusive

/-- **Every call keeps** the mutexes exclusive when only holders unlock. -/
theorem Effect.exclusive (h : Effect s l c cl s') (hst : Stage s l c) (hlife : s.life = .active)
    (hcounts : Counted s) (hin : InCall s) (hholder : HolderUnlocks s cl) (hex : Exclusive s) :
    Exclusive s' := by
  have hneutral : ∀ {s' : State} {es : List Event}, (∀ e ∈ es, e.Neutral) →
      s'.mutexInfos = s.mutexInfos → s'.nextMutex = s.nextMutex → s'.trace = s.trace ++ es →
      Exclusive s' := fun hes hinfos hnext htrace =>
    hex.neutral hes (fun i m hm => ⟨m, by rw [← hinfos]; exact hm, rfl⟩) hnext htrace
  have hsame : ∀ {s' : State}, s'.mutexInfos = s.mutexInfos → s'.nextMutex = s.nextMutex →
      s'.trace = s.trace → Exclusive s' := fun hinfos hnext htrace =>
    hneutral (List.forall_mem_nil _) hinfos hnext (by rw [htrace, List.append_nil])
  cases h with
  | same => exact hex
  | undefined => exact hsame rfl rfl rfl
  | createFirst => exact hsame rfl rfl rfl
  | create => exact hsame rfl rfl rfl
  | exit _ h => exact h.exclusive (hin.unlinked _ _ _) (hsame rfl rfl rfl)
  | ended _ htrace hmutex => exact hsame hmutex.1 hmutex.2 htrace
  | alarm h => exact h.exclusive (hin.pause c) (hsame rfl rfl rfl)
  | mutexInit o => exact hex.newMutex o
  | mutexDestroy o i => exact hex.freeMutex i
  | @lockFree o i m _ hm hfree => exact hex.acquire hm (hcounts.mutex.bound i m hm) hfree
  | @lockBusy o i m _ _ hm _ h =>
    refine h.exclusive (hin.waitLock m) (hex.neutral ?_ ?_ rfl rfl)
    · simp [Event.Neutral]
    · intro j m' hj
      simp only [State.waitLock, State.log, State.setMutex, State.suspend, State.setStatus,
        State.setEnv, Function.update_apply] at hj
      split at hj
      · next hji =>
        subst hji
        cases hj
        exact ⟨m, hm, rfl⟩
      · exact ⟨m', hj, rfl⟩
  | @unlockLast o i m ho hm hlocked =>
    have hhold := hholder hlife i m ho hm hlocked
    rw [hst.exec_eq] at hhold
    exact hex.release (hcounts.mutex.bound i m hm) hhold (.inl rfl) rfl rfl rfl
  | @unlockNext o i x m ws ho hm hlocked =>
    have hhold := hholder hlife i m ho hm hlocked
    rw [hst.exec_eq] at hhold
    have hlocked' : ({ m with waiters := ws } : MutexInfo).locked = true := hlocked
    exact hex.release (hcounts.mutex.bound i m hm) hhold (.inr ⟨x, rfl, hlocked'⟩) rfl rfl rfl
  | barrierInit => exact hneutral (by simp [Event.Neutral]) rfl rfl rfl
  | barrierDestroy => exact hsame rfl rfl rfl
  | waitBlocks _ hb hlt h =>
    exact h.exclusive (hin.waitBarrier (hcounts.barrier.hasToWait hb hlt) _)
      (hneutral (by simp [Event.Neutral]) rfl rfl rfl)
  | waitLast => exact hneutral (by simp [Event.Neutral]) rfl rfl rfl
  | waitOver => exact hneutral (by simp [Event.Neutral]) rfl rfl rfl

theorem exclusive_start : Exclusive State.start := by
  have hnone : ∀ t i, ¬ Owns t i State.start.trace := by
    rintro t i (h | h)
    · exact not_pending_nil h
    · exact not_pending_nil h
  exact ⟨fun i t _ => hnone t i, fun i t _ h => absurd h (hnone t i), fun i t _ _ h => absurd h (hnone t i),
    fun i t h => absurd h not_pending_nil⟩

theorem run_exclusive (cs : List Call) (h : RunOk call FindsReady State.start cs)
    (hholder : RunOk call HolderUnlocks State.start cs) : Exclusive (run call State.start cs) := by
  refine (run_invariant (I := fun s => Told s ∧ Exclusive s) ?_ cs _ ⟨told_start, exclusive_start⟩
    (h.and cs _ hholder)).2
  rintro s cl ⟨ht, hex⟩ ⟨hf, hh⟩
  refine ⟨ht.call hf, ?_⟩
  by_cases hlife : s.life = .active
  · obtain ⟨l, c, hst⟩ := ht.stage hlife
    exact (call_effect hst (ht.queued hlife) hf hlife).exclusive hst hlife ht.toCounted
      (ht.inCall hlife) hh hex
  · rw [call_of_dead hlife]
    exact hex

/-- An unlock of a mutex that is not locked. -/
theorem call_unlock_free (hlife : s.life = .active) (hq : Queued s) {m : MutexInfo}
    (ho : s.mutexObj o = some i) (hm : s.mutexInfos i = some m) (hfree : m.locked = false) :
    call s (.unlock o) = (some (-1), s) := by
  have hinit := (hq.mutex i m hm).1
  simp [call, hlife, body, pthreadMutexUnlock, ho, hm, hinit, hfree]

/-- **Safety of mutexes.**  In every run a mutex has been acquired once more than released if it is
locked and as often if not; every return from `pthread_mutex_lock` comes after an acquisition by that
call; an unlock of a mutex that is not locked returns `-1` and changes nothing; and when only holders
unlock, no two threads are between lock and unlock. -/
theorem mutex_safety (cs : List Call) (hrun : RunOk call Ok State.start cs) :
    (∀ i m, (run call State.start cs).mutexInfos i = some m →
      acquisitions i (run call State.start cs).trace =
        releases i (run call State.start cs).trace + if m.locked then 1 else 0) ∧
    (∀ P t i rest, (run call State.start cs).trace = P ++ .lockReturned t i :: rest →
      ∃ found P₁ P₂, P = P₁ ++ .lockCalled t i found :: P₂ ∧ (∀ e ∈ P₂, ¬ e.ByThread t) ∧
        (.acquired t i ∈ P₂ ∨ .handed t i ∈ P₂)) ∧
    (∀ o i m, (run call State.start cs).life = .active →
      (run call State.start cs).mutexObj o = some i →
      (run call State.start cs).mutexInfos i = some m → m.locked = false →
      call (run call State.start cs) (.unlock o) = (some (-1), run call State.start cs)) ∧
    (RunOk call HolderUnlocks State.start cs → ∀ i t t',
      Holds t i (run call State.start cs).trace → Holds t' i (run call State.start cs).trace → t = t') := by
  have hfinds := findsReady_of_ok cs hrun
  have htold := run_told cs hfinds
  refine ⟨htold.mutex.count, ?_, ?_, ?_⟩
  · intro P t i rest htr
    obtain ⟨found, P₁, P₂, hP, hstop, hacq⟩ := htold.returns P _ rest htr
    refine ⟨found, P₁, P₂, hP, hstop, ?_⟩
    cases found with
    | false => exact .inl (by simpa using hacq)
    | true => exact .inr (by simpa using hacq)
  · intro o i m hlife ho hm hfree
    exact call_unlock_free hlife (htold.queued hlife) ho hm hfree
  · intro hholder i t t' ht ht'
    have hex := run_exclusive cs hfinds hholder
    exact hex.unique i t t' (hex.owns i t ht) (hex.owns i t' ht')

/-- The second thread waits for the mutex, gets it from the main thread and is preempted. -/
def handOver : List Call :=
  [.create, .mutexInit 0, .lock 0, .alarm, .lock 0, .unlock 0, .alarm, .alarm]

theorem handOver_holderUnlocks : RunOk call HolderUnlocks State.start handOver := by
  refine ⟨trivial, trivial, trivial, trivial, trivial, ?_, trivial, trivial, trivial⟩
  rintro - i m ho - -
  obtain rfl : i = 0 := by
    have h0 : (run call State.start (handOver.take 5)).mutexObj 0 = some 0 := by decide +kernel
    exact (Option.some.inj (h0.symm.trans ho)).symm
  refine ⟨[.lockCalled 0 0 false, .acquired 0 0], [.dispatched 1, .lockCalled 1 0 true, .dispatched 0], ?_, ?_⟩
  · decide +kernel
  · decide +kernel

theorem mutex_safety_handOver :
    (∃ m, (run call State.start handOver).mutexInfos 0 = some m ∧ m.locked = true ∧
      acquisitions 0 (run call State.start handOver).trace =
        releases 0 (run call State.start handOver).trace + if m.locked then 1 else 0) ∧
    (∀ t t', Holds t 0 (run call State.start handOver).trace →
      Holds t' 0 (run call State.start handOver).trace → t = t') := by
  have hsafe := mutex_safety handOver (by decide +kernel)
  refine ⟨⟨⟨true, true, []⟩, ?_, rfl, hsafe.1 0 _ ?_⟩, hsafe.2.2.2 handOver_holderUnlocks 0⟩
  · decide +kernel
  · decide +kernel

end EC440.ThreadSync
