import EC440.ThreadSync.Effects
import EC440.ThreadSync.Preempt

/-!
# The contexts of the threads under preemption

Between `unlock` and `longjmp` in `schedule` the processor is still on the stack of the thread that
is given up, while `curr` is already the next one.  An alarm there saves the context of the one in the
control block of the other, over the context that was to be resumed (`preemptDispatch_lost`).  The
same comes of a search that finds nobody and leaves `curr` at another thread.  In a run without the
two (`Careful`) every context is where it belongs (`run_intact`).

`lock` and `unlock` do what they are for in every run: `Typed` says with which mask the rest of the
code of a thread can be run, and `runs_blocked` that the statements between them are run with
`SIGALRM` blocked.
-/

namespace EC440.ThreadSync

open EC440.Lib

variable {s s' : State} {m m' : Machine} {r code : List Stmt} {st : Stmt} {w : Write} {cl : Call}
  {b g again : Bool} {c d x y i k : Nat}

/-! ### What the statements leave alone -/

/-- The same threads, with the same one at work. -/
structure Still (s s' : State) : Prop where
  live : s'.live = s.live
  curr : s'.curr = s.curr
  exec : s'.exec = s.exec
  nextTcb : s'.nextTcb = s.nextTcb
  first : s'.isFirstCall = s.isFirstCall

theorem Still.refl (s : State) : Still s s := ⟨rfl, rfl, rfl, rfl, rfl⟩

theorem perform_still (h : perform s w = some s') : Still s s' := by
  cases w <;> simp only [perform, Option.bind_eq_bind, Option.bind_eq_some_iff, Option.some.injEq] at h
  case countUp => subst h; exact ⟨rfl, rfl, rfl, rfl, rfl⟩
  all_goals
    obtain ⟨z, -, rfl⟩ := h
    exact ⟨rfl, rfl, rfl, rfl, rfl⟩

theorem wakeAll_still {ws : List Nat} (h : wakeAll s ws = some s') : Still s s' := by
  induction ws generalizing s with
  | nil =>
    obtain rfl : s = s' := by simpa [wakeAll] using h
    exact Still.refl s
  | cons x ws ih =>
    simp only [wakeAll, Option.bind_eq_bind, Option.bind_eq_some_iff] at h
    obtain ⟨z, -, hws⟩ := h
    have hz : Still (s.setStatus z .ready) s' := ih hws
    exact ⟨hz.live, hz.curr, hz.exec, hz.nextTcb, hz.first⟩

theorem lockBody_still {o : Nat} (h : lockBody s o = some (again, s')) : Still s s' := by
  unfold lockBody at h
  cases hobj : s.mutexObj o with
  | none =>
    obtain ⟨-, rfl⟩ : false = again ∧ s = s' := by simpa [hobj] using h
    exact Still.refl s
  | some i =>
    simp only [hobj, Option.bind_eq_bind, Option.bind_eq_some_iff] at h
    obtain ⟨m, -, h⟩ := h
    split at h
    · split at h
      · simp only [Option.bind_eq_some_iff, Option.some.injEq, Prod.mk.injEq] at h
        obtain ⟨c, -, -, rfl⟩ := h
        exact ⟨rfl, rfl, rfl, rfl, rfl⟩
      · cases h
        exact ⟨rfl, rfl, rfl, rfl, rfl⟩
    · cases h
      exact Still.refl s

theorem waitBody_still {o : Nat} (h : waitBody s o = some (again, s')) : Still s s' := by
  unfold waitBody at h
  cases hobj : s.barrierObj o with
  | none =>
    obtain ⟨-, rfl⟩ : false = again ∧ s = s' := by simpa [hobj] using h
    exact Still.refl s
  | some i =>
    simp only [hobj, Option.bind_eq_bind, Option.bind_eq_some_iff] at h
    obtain ⟨b, -, h⟩ := h
    split at h
    · split at h
      · simp only [Option.bind_eq_some_iff, Option.some.injEq, Prod.mk.injEq] at h
        obtain ⟨c, -, -, rfl⟩ := h
        exact ⟨rfl, rfl, rfl, rfl, rfl⟩
      · split at h
        · simp only [Option.bind_eq_some_iff, Option.some.injEq, Prod.mk.injEq] at h
          obtain ⟨z, hz, -, rfl⟩ := h
          have hz := wakeAll_still hz
          exact ⟨hz.live, hz.curr, hz.exec, hz.nextTcb, hz.first⟩
        · cases h
          exact ⟨rfl, rfl, rfl, rfl, rfl⟩
    · cases h
      exact Still.refl s

theorem exitBody_still (h : exitBody s = some (again, s')) : Still s s' := by
  simp only [exitBody, Option.bind_eq_bind, Option.bind_eq_some_iff, Option.some.injEq,
    Prod.mk.injEq] at h
  obtain ⟨c, -, -, rfl⟩ := h
  exact ⟨rfl, rfl, rfl, rfl, rfl⟩

theorem pthreadMutexDestroy_still {o : Nat} {ret : Option Int}
    (h : pthreadMutexDestroy s o = some (ret, s')) : Still s s' := by
  unfold pthreadMutexDestroy at h
  split at h
  · cases h
    exact Still.refl s
  · simp only [Option.bind_eq_bind, Option.bind_eq_some_iff, Option.some.injEq, Prod.mk.injEq] at h
    obtain ⟨m, -, -, rfl⟩ := h
    exact ⟨rfl, rfl, rfl, rfl, rfl⟩

theorem pthreadBarrierDestroy_still {o : Nat} {ret : Option Int}
    (h : pthreadBarrierDestroy s o = some (ret, s')) : Still s s' := by
  unfold pthreadBarrierDestroy at h
  split at h
  · cases h
    exact Still.refl s
  · simp only [Option.bind_eq_bind, Option.bind_eq_some_iff, Option.some.injEq, Prod.mk.injEq] at h
    obtain ⟨b, -, -, rfl⟩ := h
    exact ⟨rfl, rfl, rfl, rfl, rfl⟩

theorem pthreadMutexUnlock_still {o : Nat} {ret : Option Int}
    (h : pthreadMutexUnlock s o = some (ret, s')) : Still s s' := by
  unfold pthreadMutexUnlock at h
  split at h
  · cases h
    exact Still.refl s
  · simp only [Option.bind_eq_bind, Option.bind_eq_some_iff] at h
    obtain ⟨m, -, h⟩ := h
    split at h
    · split at h
      · split at h
        · cases h
          exact ⟨rfl, rfl, rfl, rfl, rfl⟩
        · simp only [Option.bind_eq_some_iff, Option.some.injEq, Prod.mk.injEq] at h
          obtain ⟨x, -, -, rfl⟩ := h
          exact ⟨rfl, rfl, rfl, rfl, rfl⟩
      · cases h
        exact Still.refl s
    · cases h
      exact Still.refl s

theorem pthreadBarrierInit_still {o : Nat} {count : UInt32} {ret : Option Int}
    (h : pthreadBarrierInit s o count = some (ret, s')) : Still s s' := by
  unfold pthreadBarrierInit at h
  split at h
  · cases h
    exact Still.refl s
  · cases h
    exact ⟨rfl, rfl, rfl, rfl, rfl⟩

/-- What is done between `lock` and `unlock` moves no thread. -/
theorem callBody_still (h : callBody s cl = some (again, s')) : Still s s' := by
  cases cl with
  | exit => exact exitBody_still h
  | lock o => exact lockBody_still h
  | wait o => exact waitBody_still h
  | create => cases h; exact Still.refl s
  | alarm => cases h; exact Still.refl s
  | mutexInit o => cases h; exact ⟨rfl, rfl, rfl, rfl, rfl⟩
  | mutexDestroy o =>
    obtain ⟨⟨ret, t⟩, ht, heq⟩ := Option.map_eq_some_iff.mp h
    cases heq
    exact pthreadMutexDestroy_still ht
  | unlock o =>
    obtain ⟨⟨ret, t⟩, ht, heq⟩ := Option.map_eq_some_iff.mp h
    cases heq
    exact pthreadMutexUnlock_still ht
  | barrierInit o count =>
    obtain ⟨⟨ret, t⟩, ht, heq⟩ := Option.map_eq_some_iff.mp h
    cases heq
    exact pthreadBarrierInit_still ht
  | barrierDestroy o =>
    obtain ⟨⟨ret, t⟩, ht, heq⟩ := Option.map_eq_some_iff.mp h
    cases heq
    exact pthreadBarrierDestroy_still ht

/-- Before the search only the thread that exits is taken away. -/
theorem leaveCurr_keeps (h : leaveCurr s c = some s') :
    (∀ x, s'.live x = true → s.live x = true) ∧ s'.exec = s.exec ∧ s'.nextTcb = s.nextTcb ∧
      s'.isFirstCall = s.isFirstCall := by
  have hdemote : ∀ {t t' : State}, demoteCurr t = some t' → Still t t' := by
    intro t t' ht
    simp only [demoteCurr, Option.bind_eq_bind, Option.bind_eq_some_iff, Option.some.injEq] at ht
    obtain ⟨d, -, rfl⟩ := ht
    split
    · exact ⟨rfl, rfl, rfl, rfl, rfl⟩
    · exact Still.refl t
  unfold leaveCurr at h
  split at h
  · simp only [Option.bind_eq_bind, Option.bind_eq_some_iff] at h
    obtain ⟨t, hunlink, ht⟩ := h
    simp only [unlinkCurr, Option.bind_eq_bind, Option.bind_eq_some_iff, Option.some.injEq] at hunlink
    obtain ⟨p, -, n, -, p', -, n', -, rfl⟩ := hunlink
    have hd := hdemote ht
    refine ⟨fun x hx => ?_, hd.exec, hd.nextTcb, hd.first⟩
    rw [hd.live] at hx
    have hx' : Function.update s.live c false x = true := hx
    rw [Function.update_apply] at hx'
    split at hx'
    · cases hx'
    · exact hx'
  · have hd := hdemote h
    exact ⟨fun x hx => by rwa [hd.live] at hx, hd.exec, hd.nextTcb, hd.first⟩
  · cases h
    exact ⟨fun x hx => hx, rfl, rfl, rfl⟩
  · cases h
    exact ⟨fun x hx => hx, rfl, rfl, rfl⟩

/-- The three ways through the `switch` of `schedule`. -/
inductive SwitchTo (m : Machine) (r : List Stmt) (c : Nat) : Machine → Prop
  | ready (hst : m.mem.status c = .ready) : SwitchTo m r c (m.goOn r)
  | thread {s : State} {d x : Nat} (hst : m.mem.status c ≠ .ready) (hs : leaveCurr m.mem c = some s)
      (hd : s.curr = some d) (hx : search s (maxThreads + 1) d = some (.thread x)) :
      SwitchTo m r c
        { m with
          mem := { s.setStatus x .running with curr := some x }
          code := .unlockQuery :: .longjmp :: r }
  | nobody {s : State} {d : Nat} {c' : Option Nat} (hst : m.mem.status c ≠ .ready)
      (hs : leaveCurr m.mem c = some s) (hd : s.curr = some d)
      (hn : search s (maxThreads + 1) d = some (.nobody c')) :
      SwitchTo m r c (Machine.goOn { m with mem := { s with curr := c' } } r)

theorem Machine.switch_cases (h : m.switch r = some m') :
    ∃ c, m.mem.deref m.mem.curr = some c ∧ SwitchTo m r c m' := by
  simp only [Machine.switch, Option.bind_eq_bind, Option.bind_eq_some_iff] at h
  obtain ⟨c, hc, h⟩ := h
  refine ⟨c, hc, ?_⟩
  split at h
  · rename_i hst
    cases h
    exact .ready hst
  · rename_i hst
    simp only [Option.bind_eq_some_iff] at h
    obtain ⟨s, hs, d, hd, found, hfound, h⟩ := h
    cases found with
    | thread x =>
      cases h
      exact .thread hst hs hd hfound
    | nobody c' =>
      cases h
      exact .nobody hst hs hd hfound

/-! ### The mask -/

/-- The code can be run when `SIGALRM` is blocked as `b` says and is in `sig_mask` as `g` says: what
stands between `lock` and `unlock` is reached with `SIGALRM` blocked, and `unlock` lets it through again. -/
def Typed : Bool → Bool → List Stmt → Prop
  | b, _, [] => b = false
  | b, g, .lockQuery :: r => (b = true → g = true) ∧ Typed true true r
  | b, g, .lockTest was :: r => was = b ∧ (b = true → g = true) ∧ Typed true true r
  | b, _, .lockEmpty :: r => b = false ∧ Typed false false r
  | b, _, .lockAdd :: r => Typed b true r
  | _, g, .lockBlock :: r => g = true ∧ Typed true true r
  | b, g, .unlockQuery :: r => (b = true → g = true) ∧ Typed false g r
  | b, g, .unlockTest was :: r => was = b ∧ (b = true → g = true) ∧ Typed false g r
  | b, g, .unlockUnblock :: r => b = true ∧ g = true ∧ Typed false true r
  | b, g, .schedule :: r => (b = true → g = true) ∧ Typed false true r ∧ Typed true true r
  | b, g, .setjmp :: r => b = true ∧ g = true ∧ Typed false true r ∧ Typed true true r
  | b, g, .switch :: r => b = true ∧ g = true ∧ Typed false true r ∧ Typed true true r
  | b, g, .body _ :: r => b = true ∧ g = true ∧ Typed false true r ∧ Typed true true r
  | b, g, .longjmp :: _ => b = false ∧ g = true
  | _, g, .sigreturn :: r => Typed false g r
  | b, g, .init :: r => Typed b g r
  | b, g, .alloc :: r => Typed b g r
  | b, g, .linkTest _ :: r => Typed b g r
  | b, g, .write _ :: r => Typed b g r
  | _, _, .quit :: _ => True
  | _, _, .stale :: _ => True

/-- Once `SIGALRM` is in `sig_mask` the code can only be better off. -/
theorem Typed.mono (h : Typed b g code) : Typed b true code := by
  induction code generalizing b g with
  | nil => exact h
  | cons st r ih =>
    cases st with
    | lockQuery => exact ⟨fun _ => rfl, h.2⟩
    | lockTest was => exact ⟨h.1, fun _ => rfl, h.2.2⟩
    | lockBlock => exact ⟨rfl, h.2⟩
    | unlockQuery => exact ⟨fun _ => rfl, ih h.2⟩
    | unlockTest was => exact ⟨h.1, fun _ => rfl, ih h.2.2⟩
    | unlockUnblock => exact ⟨h.1, rfl, h.2.2⟩
    | schedule => exact ⟨fun _ => rfl, h.2⟩
    | setjmp => exact ⟨h.1, rfl, h.2.2⟩
    | switch => exact ⟨h.1, rfl, h.2.2⟩
    | body cl => exact ⟨h.1, rfl, h.2.2⟩
    | longjmp => exact ⟨h.1, rfl⟩
    | sigreturn => exact ih (g := g) h
    | init => exact ih (g := g) h
    | alloc => exact ih (g := g) h
    | linkTest y => exact ih (g := g) h
    | write w => exact ih (g := g) h
    | lockEmpty => exact h
    | lockAdd => exact h
    | quit => trivial
    | stale => trivial

/-- Every thread can go on with what it has to do. -/
structure Disciplined (m : Machine) : Prop where
  code : Typed m.blocked m.sigMask m.code
  env : ∀ x, Typed false true (m.env x).rest

theorem typed_writes (h : Typed b g r) (ws : List Write) : Typed b g (ws.map .write ++ r) := by
  induction ws with
  | nil => exact h
  | cons w ws ih => exact ih

theorem typed_callCode (cl : Call) (h : cl ≠ .alarm) : Typed false g (callCode cl) := by
  cases cl with
  | alarm => exact absurd rfl h
  | barrierInit o count =>
    by_cases hcount : count = 0 <;> simp [callCode, hcount, Typed]
  | _ => simp [callCode, Typed]

theorem typed_setjmp (h : m.setjmp r = some m') (hr : Typed false true r ∧ Typed true true r)
    (hb : m.blocked = true ∧ m.sigMask = true) (henv : ∀ x, Typed false true (m.env x).rest) :
    Disciplined m' := by
  simp only [Machine.setjmp, Option.bind_eq_bind, Option.bind_eq_some_iff, Option.some.injEq] at h
  obtain ⟨c, -, rfl⟩ := h
  refine ⟨⟨hb.1, hb.2, hr⟩, fun x => ?_⟩
  simp only [Function.update_apply]
  split
  · exact hr.1
  · exact henv x

theorem Disciplined.exec (h : Disciplined m) (hcode : m.code = st :: r) (he : m.exec r st = some m') :
    Disciplined m' := by
  obtain ⟨ht, henv⟩ := h
  rw [hcode] at ht
  cases st with
  | lockQuery =>
    cases he
    exact ⟨⟨rfl, ht⟩, henv⟩
  | lockTest was =>
    obtain ⟨rfl, hg, hr⟩ := ht
    cases hb : m.blocked <;> simp only [hb] at he <;> cases he
    · exact ⟨⟨hb, rfl, hr⟩, henv⟩
    · exact ⟨by rw [hb, hg hb]; exact hr, henv⟩
  | lockEmpty =>
    cases he
    exact ⟨by rw [ht.1]; exact ht.2, henv⟩
  | lockAdd =>
    cases he
    exact ⟨ht, henv⟩
  | lockBlock =>
    cases he
    exact ⟨by simpa [ht.1] using ht.2, henv⟩
  | unlockQuery =>
    cases he
    exact ⟨⟨rfl, ht⟩, henv⟩
  | unlockTest was =>
    obtain ⟨rfl, hg, hr⟩ := ht
    cases hb : m.blocked <;> simp only [hb] at he <;> cases he
    · exact ⟨by rw [hb]; exact hr, henv⟩
    · exact ⟨⟨hb, hg hb, hr.mono⟩, henv⟩
  | unlockUnblock =>
    cases he
    exact ⟨by simpa [ht.2.1] using ht.2.2, henv⟩
  | schedule =>
    cases he
    exact ⟨⟨ht.1, rfl, rfl, ht.2⟩, henv⟩
  | setjmp => exact typed_setjmp he ht.2.2 ⟨ht.1, ht.2.1⟩ henv
  | switch =>
    obtain ⟨c, -, hsw⟩ := Machine.switch_cases he
    obtain ⟨hb, hg, -, hr⟩ := ht
    cases hsw with
    | ready => exact ⟨by simpa [Machine.goOn, hb, hg] using hr, henv⟩
    | thread => exact ⟨⟨fun _ => hg, rfl, hg⟩, henv⟩
    | nobody => exact ⟨by simpa [Machine.goOn, hb, hg] using hr, henv⟩
  | longjmp =>
    simp only [Machine.exec, Machine.longjmp, Option.bind_eq_bind, Option.bind_eq_some_iff,
      Option.some.injEq] at he
    obtain ⟨c, -, rfl⟩ := he
    exact ⟨by simpa [ht.1, ht.2] using henv c, henv⟩
  | sigreturn =>
    cases he
    exact ⟨ht, henv⟩
  | init =>
    cases he
    split
    · refine ⟨ht, fun x => ?_⟩
      simp only [Machine.schedulerInit, Function.update_apply]
      split
      · trivial
      · exact henv x
    · exact ⟨ht, henv⟩
  | alloc =>
    cases he
    refine ⟨ht, fun x => ?_⟩
    simp only [Machine.allocTcb, Function.update_apply]
    split
    · rfl
    · exact henv x
  | linkTest y =>
    cases he
    have hr : Typed m.blocked m.sigMask r := ht
    exact ⟨typed_writes hr _, henv⟩
  | write w =>
    obtain ⟨s, -, rfl⟩ := Option.map_eq_some_iff.mp he
    exact ⟨ht, henv⟩
  | body cl =>
    obtain ⟨⟨again, s⟩, -, rfl⟩ := Option.map_eq_some_iff.mp he
    obtain ⟨hb, hg, hr⟩ := ht
    refine ⟨?_, henv⟩
    cases again with
    | true => exact ⟨fun _ => hg, hr⟩
    | false => simpa [hb, hg] using hr.2
  | quit =>
    cases he
    exact ⟨by rw [hcode]; trivial, henv⟩
  | stale => cases he

/-- The moves that change something. -/
inductive Moves (m : Machine) : Move → Machine → Prop
  | alarm (hfirst : m.mem.isFirstCall = false) (hb : m.blocked = false) :
      Moves m (.call .alarm) { m with code := .schedule :: .sigreturn :: m.code }
  | call {cl : Call} (hcl : cl ≠ .alarm) (hcode : m.code = []) :
      Moves m (.call cl) { m with code := callCode cl }
  | step {st : Stmt} {r : List Stmt} {m' : Machine} (hcode : m.code = st :: r)
      (he : m.exec r st = some m') : Moves m .step m'
  | crash : Moves m .step { m with mem := { m.mem with life := .undefined } }
  | none (mv : Move) : Moves m mv m

theorem move_cases (m : Machine) (mv : Move) : Moves m mv (move m mv).2 := by
  unfold move
  split
  · cases mv with
    | call cl =>
      by_cases hacc : m.accepts cl = true
      · simp only [if_pos hacc]
        by_cases hcl : cl = .alarm
        · subst hcl
          obtain ⟨hfirst, hb⟩ := (Bool.and_eq_true _ _).mp hacc
          exact .alarm (by simpa using hfirst) (by simpa using hb)
        · have hcode : m.code = [] := by
            cases cl <;> first | exact absurd rfl hcl | exact List.isEmpty_iff.mp hacc
          rw [hcode, List.append_nil]
          exact .call hcl hcode
      · simp only [if_neg hacc]
        exact .none _
    | step =>
      cases hcode : m.code with
      | nil => exact .none _
      | cons st r =>
        cases he : m.exec r st with
        | none =>
          simp only [he]
          rw [← hcode]
          exact .crash
        | some m' =>
          simp only [he]
          exact .step hcode he
  · exact .none _

theorem Disciplined.move {mv : Move} (h : Disciplined m) (hmv : Moves m mv m') : Disciplined m' := by
  cases hmv with
  | alarm hfirst hb =>
    have ht : Typed false m.sigMask m.code := by rw [← hb]; exact h.code
    exact ⟨⟨fun hb' => absurd (hb.symm.trans hb') (by decide), ht.mono, ht.mono⟩, h.env⟩
  | call hcl hcode =>
    have hb : m.blocked = false := by
      have ht := h.code
      rwa [hcode] at ht
    exact ⟨by rw [hb]; exact typed_callCode _ hcl, h.env⟩
  | step hcode he => exact h.exec hcode he
  | crash => exact ⟨h.code, h.env⟩
  | none => exact h

theorem disciplined_start (junk : State) : Disciplined (Machine.start junk) :=
  ⟨rfl, fun _ => trivial⟩

theorem run_disciplined (junk : State) (ms : List Move) :
    Disciplined (run move (Machine.start junk) ms) := by
  have hrun : RunOk move (fun _ _ => True) (Machine.start junk) ms :=
    runOk_of_forall_mem (fun _ _ _ => trivial) _
  exact run_invariant (fun m mv h _ => h.move (move_cases m mv)) ms _ (disciplined_start junk) hrun

/-- **What stands between `lock` and `unlock` is run with `SIGALRM` blocked**, in every run. -/
theorem runs_blocked (junk : State) (ms : List Move) (hm : m = run move (Machine.start junk) ms)
    (hcode : m.code = st :: r) (hst : (∃ cl, st = .body cl) ∨ st = .setjmp ∨ st = .switch) :
    m.blocked = true := by
  have ht : Typed m.blocked m.sigMask (st :: r) := by
    rw [← hcode, hm]
    exact (run_disciplined junk ms).code
  rcases hst with ⟨cl, rfl⟩ | rfl | rfl <;> exact ht.1

/-! ### The searches -/

/-- One of the next `MAX_THREADS + 1` threads is ready, or the last of them is the thread that
searches, or the links end in a null pointer before. -/
def lands (s : State) : Bool :=
  readyAhead s false ||
    match s.curr with
    | none => true
    | some c =>
      match walk s.next (maxThreads + 1) c with
      | none => true
      | some d => d = s.exec

/-- No search of `schedule` leaves `curr` at another thread. -/
def searchLands (s : State) : Bool :=
  match s.deref s.curr with
  | none => true
  | some c =>
    match leaveCurr s c with
    | none => true
    | some s' => s.status c = .ready || lands s'

/-- A search that finds nobody goes all the way and meets nobody who is ready. -/
theorem search_nobody (h : search s k c = some (.nobody (some d))) :
    walk s.next k c = some d ∧
      ∀ j y, j < k → walk s.next (j + 1) c = some y → s.status y ≠ .ready := by
  induction k generalizing c with
  | zero =>
    simp only [search, Option.some.injEq, Found.nobody.injEq] at h
    exact ⟨by rw [walk, h], fun j y hj => absurd hj (Nat.not_lt_zero j)⟩
  | succ k ih =>
    rw [search] at h
    split at h
    · cases h
    · rename_i n hn
      split at h
      · split at h
        · cases h
        · rename_i hst
          obtain ⟨hwalk, hnot⟩ := ih h
          refine ⟨by rw [walk, hn]; exact hwalk, fun j y hj hy => ?_⟩
          rw [walk, hn] at hy
          cases j with
          | zero =>
            obtain rfl : n = y := by simpa [walk] using hy
            exact hst
          | succ j => exact hnot j y (by omega) hy
      · cases h

theorem lands_nobody (h : lands s = true) (hc : s.curr = some c)
    (hn : search s (maxThreads + 1) c = some (.nobody (some d))) : d = s.exec := by
  obtain ⟨hwalk, hnot⟩ := search_nobody hn
  rw [lands, Bool.or_eq_true] at h
  rcases h with hready | hend
  · obtain ⟨j, y, hj, hy, hst | ⟨hagain, -⟩⟩ := (readyAhead_iff hc).mp hready
    · exact absurd hst (hnot j y hj hy)
    · cases hagain
  · simpa [hc, hwalk] using hend

theorem searchLands_leave (h : searchLands s = true) (hc : s.deref s.curr = some c)
    (hst : s.status c ≠ .ready) (hs : leaveCurr s c = some s') : lands s' = true := by
  simpa [searchLands, hc, hs, hst] using h

/-! ### The invariant -/

/-- No `schedule` is under way behind its `setjmp`. -/
def Plain (code : List Stmt) : Prop := .switch ∉ code ∧ .longjmp ∉ code

theorem Plain.tail (h : Plain (st :: r)) : Plain r :=
  ⟨fun hr => h.1 (List.mem_cons_of_mem _ hr), fun hr => h.2 (List.mem_cons_of_mem _ hr)⟩

/-- The thread that has the processor is `curr`, and its context is not to be resumed. -/
def Here (m : Machine) : Prop :=
  m.mem.curr = none ∨
    m.mem.curr = some m.mem.exec ∧ m.mem.exec < m.mem.nextTcb ∧ m.pending m.mem.exec = false

/-- How far the thread that has the processor is in giving it up. -/
inductive Phase (m : Machine) : Prop
  | calm (plain : Plain m.code) (here : Here m)
  | chosen {r : List Stmt} (code : m.code = .switch :: r) (plain : Plain r)
      (curr : m.mem.curr = some m.mem.exec) (lt : m.mem.exec < m.mem.nextTcb)
  | unlocking {st : Stmt} {r : List Stmt} (code : m.code = st :: .longjmp :: r)
      (unlock : st = .unlockQuery ∨ st = .unlockTest true ∨ st = .unlockUnblock)
      (blocked : m.blocked = true)
  | jumping {r : List Stmt} (code : m.code = .longjmp :: r)

structure Sound (m : Machine) : Prop where
  lt : ∀ x, m.mem.live x = true → x < m.mem.nextTcb
  own : ∀ x, m.mem.live x = true →
    m.env x = m.saved x ∧ (m.env x).owner = x ∧ Plain (m.env x).rest
  kept : m.overwritten = false
  first : m.mem.isFirstCall = true →
    m.mem.curr = none ∧ m.mem.exec = m.mem.nextTcb ∧ .alloc ∉ m.code
  phase : Phase m

/-- A statement that moves no thread. -/
theorem Sound.proceed (h : Sound m) (hhere : Here m) (hs : Still m.mem s') (hplain : Plain code)
    (halloc : .alloc ∈ code → .alloc ∈ m.code) (b g : Bool) :
    Sound { m with mem := s', blocked := b, sigMask := g, code := code } := by
  refine ⟨fun x hx => ?_, fun x hx => ?_, h.kept, fun hfirst => ?_, .calm hplain ?_⟩
  · rw [hs.live] at hx
    rw [hs.nextTcb]
    exact h.lt x hx
  · rw [hs.live] at hx
    exact h.own x hx
  · rw [hs.first] at hfirst
    obtain ⟨hcurr, hexec, hnot⟩ := h.first hfirst
    exact ⟨hs.curr.trans hcurr, by rw [hs.exec, hs.nextTcb]; exact hexec, fun hin => hnot (halloc hin)⟩
  · simpa only [Here, hs.curr, hs.exec, hs.nextTcb] using hhere

theorem Sound.setjmp (h : Sound m) (hplain : Plain r) (hhere : Here m)
    (he : m.setjmp r = some m') : Sound m' := by
  simp only [Machine.setjmp, Option.bind_eq_bind, Option.bind_eq_some_iff, Option.some.injEq] at he
  obtain ⟨c, hc, rfl⟩ := he
  obtain ⟨hcurr, -⟩ := Option.filter_eq_some_iff.mp hc
  rcases hhere with hnone | ⟨hexec, hlt, hpend⟩
  · rw [hnone] at hcurr
    cases hcurr
  · obtain rfl : c = m.mem.exec := Option.some.inj (hcurr.symm.trans hexec)
    refine ⟨h.lt, fun x hx => ?_, by simp [h.kept, hpend], fun hfirst => ?_, .chosen rfl hplain hexec hlt⟩
    · simp only [Function.update_apply]
      split
      · rename_i hx'
        exact ⟨rfl, hx'.symm, by simpa [Plain] using hplain⟩
      · exact h.own x hx
    · rw [(h.first hfirst).1] at hexec
      cases hexec

theorem Sound.longjmp (h : Sound m) (he : m.longjmp = some m') : Sound m' := by
  simp only [Machine.longjmp, Option.bind_eq_bind, Option.bind_eq_some_iff, Option.some.injEq] at he
  obtain ⟨c, hc, rfl⟩ := he
  obtain ⟨hcurr, hlive⟩ := Option.filter_eq_some_iff.mp hc
  obtain ⟨-, howner, hplain⟩ := h.own c hlive
  refine ⟨h.lt, h.own, h.kept, fun hfirst => ?_, .calm hplain (.inr ⟨?_, ?_, ?_⟩)⟩
  · rw [(h.first hfirst).1] at hcurr
    cases hcurr
  · simp only [howner, hcurr]
  · simpa only [howner] using h.lt c hlive
  · simp only [howner, Function.update_self]

theorem Sound.switch (h : Sound m) (hplain : Plain r)
    (hcurr : m.mem.curr = some m.mem.exec) (hlt : m.mem.exec < m.mem.nextTcb) (hb : m.blocked = true)
    (hlands : searchLands m.mem = true) (he : m.switch r = some m') : Sound m' := by
  have hfirst : ¬ m.mem.isFirstCall = true := by
    intro hfirst
    rw [(h.first hfirst).1] at hcurr
    cases hcurr
  obtain ⟨c, hc, hsw⟩ := Machine.switch_cases he
  cases hsw with
  | ready =>
    refine ⟨h.lt, h.own, h.kept, fun hf => absurd hf hfirst, .calm hplain (.inr ⟨hcurr, hlt, ?_⟩)⟩
    simp [Machine.goOn]
  | thread hst hs hd hx =>
    obtain ⟨hlive, hexec, hnext, hfst⟩ := leaveCurr_keeps hs
    refine ⟨fun x hx => ?_, fun x hx => h.own x (hlive x hx), h.kept, fun hf => ?_,
      .unlocking rfl (.inl rfl) hb⟩
    · exact hnext ▸ h.lt x (hlive x hx)
    · exact absurd (hfst ▸ hf) hfirst
  | @nobody s d c' hst hs hd hn =>
    obtain ⟨hlive, hexec, hnext, hfst⟩ := leaveCurr_keeps hs
    refine ⟨fun x hx => ?_, fun x hx => h.own x (hlive x hx), h.kept, fun hf => ?_, .calm hplain ?_⟩
    · exact hnext ▸ h.lt x (hlive x hx)
    · exact absurd (hfst ▸ hf) hfirst
    · cases c' with
      | none => exact .inl rfl
      | some e =>
        obtain rfl := lands_nobody (searchLands_leave hlands hc hst hs) hd hn
        refine .inr ⟨rfl, ?_, by simp [Machine.goOn]⟩
        simpa only [Machine.goOn, hexec, hnext] using hlt

theorem Sound.schedulerInit (h : Sound m) (hfirst : m.mem.isFirstCall = true) (hplain : Plain r) :
    Sound (m.schedulerInit r) := by
  obtain ⟨hcurr, hexec, -⟩ := h.first hfirst
  refine ⟨fun x hx => ?_, fun x hx => ?_, h.kept, fun hf => ?_, .calm hplain (.inr ⟨?_, ?_, ?_⟩)⟩
  · have hx' : Function.update m.mem.live m.mem.nextTcb true x = true := hx
    rw [Function.update_apply] at hx'
    have hle : x ≤ m.mem.nextTcb := by
      split at hx'
      · rename_i heq
        exact Nat.le_of_eq heq
      · exact Nat.le_of_lt (h.lt x hx')
    exact Nat.lt_succ_of_le hle
  · have hx' : Function.update m.mem.live m.mem.nextTcb true x = true := hx
    rw [Function.update_apply] at hx'
    simp only [Machine.schedulerInit, hexec, Function.update_apply]
    split at hx'
    · rename_i heq
      simp [heq, Plain]
    · rename_i hne
      rw [if_neg hne, if_neg hne]
      exact h.own x hx'
  · cases hf
  · exact congrArg some hexec.symm
  · exact Nat.lt_succ_of_le (Nat.le_of_eq hexec)
  · have hexec' : (m.schedulerInit r).mem.exec = m.mem.nextTcb := hexec
    rw [hexec']
    simp [Machine.schedulerInit]

theorem Sound.allocTcb (h : Sound m) (hfirst : m.mem.isFirstCall = false) (hhere : Here m)
    (hplain : Plain r) : Sound (m.allocTcb r) := by
  refine ⟨fun x hx => ?_, fun x hx => ?_, h.kept, fun hf => ?_, .calm ?_ ?_⟩
  · have hx' : Function.update m.mem.live m.mem.nextTcb true x = true := hx
    rw [Function.update_apply] at hx'
    have hle : x ≤ m.mem.nextTcb := by
      split at hx'
      · rename_i heq
        exact Nat.le_of_eq heq
      · exact Nat.le_of_lt (h.lt x hx')
    exact Nat.lt_succ_of_le hle
  · have hx' : Function.update m.mem.live m.mem.nextTcb true x = true := hx
    rw [Function.update_apply] at hx'
    simp only [Machine.allocTcb, Function.update_apply]
    split at hx'
    · rename_i heq
      simp [heq, Plain]
    · rename_i hne
      rw [if_neg hne, if_neg hne]
      exact h.own x hx'
  · exact absurd (hfirst.symm.trans hf) (by decide)
  · simpa [Plain, Machine.allocTcb] using hplain
  · rcases hhere with hnone | ⟨hcurr, hlt, hpend⟩
    · exact .inl hnone
    · refine .inr ⟨hcurr, Nat.lt_succ_of_lt hlt, ?_⟩
      have hne : m.mem.exec ≠ m.mem.nextTcb := Nat.ne_of_lt hlt
      simpa [Machine.allocTcb, ThreadSync.allocTcb, State.setEnv, Function.update_of_ne hne] using hpend

theorem plain_writes (h : Plain r) (ws : List Write) : Plain (ws.map .write ++ r) := by
  simpa [Plain] using h

theorem alloc_writes {ws : List Write} (h : .alloc ∈ ws.map .write ++ r) : .alloc ∈ r := by
  simpa using h

/-- A statement of a thread that is not giving up the processor. -/
theorem Sound.exec_calm (h : Sound m) (hcode : m.code = st :: r) (hplain : Plain m.code)
    (hhere : Here m) (he : m.exec r st = some m') : Sound m' := by
  have hp : Plain r := by
    rw [hcode] at hplain
    exact hplain.tail
  have halloc : .alloc ∈ r → .alloc ∈ m.code := by
    rw [hcode]
    exact List.mem_cons_of_mem _
  have hstill := Still.refl m.mem
  cases st with
  | lockQuery =>
    cases he
    exact h.proceed hhere hstill (by simpa [Plain] using hp) (by simpa using halloc) _ _
  | lockTest was =>
    cases was <;> cases he
    · exact h.proceed hhere hstill (by simpa [Plain] using hp) (by simpa using halloc) _ _
    · exact h.proceed hhere hstill hp halloc _ _
  | unlockQuery =>
    cases he
    exact h.proceed hhere hstill (by simpa [Plain] using hp) (by simpa using halloc) _ _
  | unlockTest was =>
    cases was <;> cases he
    · exact h.proceed hhere hstill hp halloc _ _
    · exact h.proceed hhere hstill (by simpa [Plain] using hp) (by simpa using halloc) _ _
  | schedule =>
    cases he
    exact h.proceed hhere hstill (by simpa [Plain] using hp) (by simpa using halloc) _ _
  | setjmp => exact h.setjmp hp hhere he
  | switch => exact absurd (by rw [hcode]; exact List.mem_cons_self) hplain.1
  | longjmp => exact absurd (by rw [hcode]; exact List.mem_cons_self) hplain.2
  | init =>
    cases he
    have hp' : Plain (.alloc :: r) := by simpa [Plain] using hp
    split
    · rename_i hfirst
      exact h.schedulerInit hfirst hp'
    · rename_i hfirst
      refine ⟨h.lt, h.own, h.kept, fun hf => absurd hf hfirst, .calm hp' hhere⟩
  | alloc =>
    cases he
    cases hfirst : m.mem.isFirstCall with
    | true => exact absurd (by rw [hcode]; exact List.mem_cons_self) (h.first hfirst).2.2
    | false => exact h.allocTcb hfirst hhere hp
  | linkTest y =>
    cases he
    exact h.proceed hhere hstill (plain_writes hp _) (fun hin => halloc (alloc_writes hin)) _ _
  | write w =>
    obtain ⟨s, hs, rfl⟩ := Option.map_eq_some_iff.mp he
    exact h.proceed hhere (perform_still hs) hp halloc _ _
  | body cl =>
    obtain ⟨⟨again, s⟩, hs, rfl⟩ := Option.map_eq_some_iff.mp he
    cases again with
    | true =>
      exact h.proceed hhere (callBody_still hs) (by simpa [Plain] using hp) (by simpa using halloc) _ _
    | false => exact h.proceed hhere (callBody_still hs) hp halloc _ _
  | quit =>
    cases he
    have hs : Still m.mem { m.mem with life := .exited } := ⟨rfl, rfl, rfl, rfl, rfl⟩
    exact h.proceed hhere hs hplain id _ _
  | stale => cases he
  | _ =>
    cases he
    exact h.proceed hhere hstill hp halloc _ _

/-- `unlock` in `schedule`. -/
theorem Sound.exec_unlock (h : Sound m) (hcode : m.code = st :: .longjmp :: r)
    (hst : st = .unlockQuery ∨ st = .unlockTest true ∨ st = .unlockUnblock) (hb : m.blocked = true)
    (he : m.exec (.longjmp :: r) st = some m') : Sound m' := by
  have halloc : .alloc ∈ r → .alloc ∈ m.code := by
    rw [hcode]
    intro hin
    simp [hin]
  have hfirst : ∀ {code : List Stmt}, (.alloc ∈ code → .alloc ∈ r) → m.mem.isFirstCall = true →
      m.mem.curr = none ∧ m.mem.exec = m.mem.nextTcb ∧ .alloc ∉ code := by
    intro code hin hf
    obtain ⟨hcurr, hexec, hnot⟩ := h.first hf
    exact ⟨hcurr, hexec, fun hmem => hnot (halloc (hin hmem))⟩
  rcases hst with rfl | rfl | rfl <;> cases he
  · exact ⟨h.lt, h.own, h.kept, hfirst (by simp), .unlocking rfl (by rw [hb]; simp) hb⟩
  · exact ⟨h.lt, h.own, h.kept, hfirst (by simp), .unlocking rfl (by simp) hb⟩
  · exact ⟨h.lt, h.own, h.kept, hfirst (by simp), .jumping rfl⟩

/-- The alarm does not come between `unlock` and `longjmp` in `schedule`, and no search leaves
`curr` at another thread than the one that searches. -/
def Careful (m : Machine) : Move → Prop
  | .call .alarm => m.code.head? ≠ some .longjmp
  | .call _ => True
  | .step => m.code.head? = some .switch → searchLands m.mem = true

instance (m : Machine) : (mv : Move) → Decidable (Careful m mv)
  | .call .alarm => inferInstanceAs (Decidable (_ ≠ _))
  | .step => inferInstanceAs (Decidable (_ → _))
  | .call .create => inferInstanceAs (Decidable True)
  | .call .exit => inferInstanceAs (Decidable True)
  | .call (.mutexInit _) => inferInstanceAs (Decidable True)
  | .call (.mutexDestroy _) => inferInstanceAs (Decidable True)
  | .call (.lock _) => inferInstanceAs (Decidable True)
  | .call (.unlock _) => inferInstanceAs (Decidable True)
  | .call (.barrierInit _ _) => inferInstanceAs (Decidable True)
  | .call (.barrierDestroy _) => inferInstanceAs (Decidable True)
  | .call (.wait _) => inferInstanceAs (Decidable True)

theorem Sound.exec (h : Sound m) (hd : Disciplined m) (hok : Careful m .step)
    (hcode : m.code = st :: r) (he : m.exec r st = some m') : Sound m' := by
  cases h.phase with
  | calm hplain hhere => exact h.exec_calm hcode hplain hhere he
  | chosen hcode' hplain hcurr hlt =>
    obtain ⟨rfl, rfl⟩ := List.cons.inj (hcode.symm.trans hcode')
    have hb : m.blocked = true := by
      have ht := hd.code
      rw [hcode] at ht
      exact ht.1
    exact h.switch hplain hcurr hlt hb (hok (by rw [hcode]; rfl)) he
  | unlocking hcode' hst hb =>
    obtain ⟨rfl, rfl⟩ := List.cons.inj (hcode.symm.trans hcode')
    exact h.exec_unlock hcode hst hb he
  | jumping hcode' =>
    obtain ⟨rfl, rfl⟩ := List.cons.inj (hcode.symm.trans hcode')
    exact h.longjmp he

theorem Sound.alarm (h : Sound m) (hd : Disciplined m) (hok : Careful m (.call .alarm))
    (hfirst : m.mem.isFirstCall = false) (hb : m.blocked = false) :
    Sound { m with code := .schedule :: .sigreturn :: m.code } := by
  have hf : ¬ m.mem.isFirstCall = true := by simp [hfirst]
  cases h.phase with
  | calm hplain hhere =>
    exact ⟨h.lt, h.own, h.kept, fun hf' => absurd hf' hf, .calm (by simpa [Plain] using hplain) hhere⟩
  | chosen hcode =>
    have ht := hd.code
    rw [hcode] at ht
    exact absurd (hb.symm.trans ht.1) (by decide)
  | unlocking _ _ hb' => exact absurd (hb.symm.trans hb') (by decide)
  | jumping hcode => exact absurd (by rw [hcode]; rfl) hok

theorem plain_callCode (cl : Call) : Plain (callCode cl) ∧ .alloc ∉ callCode cl := by
  cases cl with
  | barrierInit o count =>
    by_cases hcount : count = 0 <;> simp [callCode, hcount, Plain]
  | _ => simp [callCode, Plain]

theorem Sound.move {mv : Move} (h : Sound m) (hd : Disciplined m) (hok : Careful m mv)
    (hmv : Moves m mv m') : Sound m' := by
  cases hmv with
  | alarm hfirst hb => exact h.alarm hd hok hfirst hb
  | @call cl hcl hcode =>
    have hhere : Here m := by
      cases h.phase with
      | calm _ hhere => exact hhere
      | chosen hcode' => rw [hcode] at hcode'; cases hcode'
      | unlocking hcode' => rw [hcode] at hcode'; cases hcode'
      | jumping hcode' => rw [hcode] at hcode'; cases hcode'
    exact h.proceed hhere (Still.refl _) (plain_callCode cl).1
      (fun hin => absurd hin (plain_callCode cl).2) _ _
  | step hcode he => exact h.exec hd hok hcode he
  | crash =>
    refine ⟨h.lt, h.own, h.kept, h.first, ?_⟩
    cases h.phase with
    | calm hplain hhere => exact .calm hplain hhere
    | chosen hcode hplain hcurr hlt => exact .chosen hcode hplain hcurr hlt
    | unlocking hcode hst hb => exact .unlocking hcode hst hb
    | jumping hcode => exact .jumping hcode
  | none => exact h

theorem sound_start (junk : State) : Sound (Machine.start junk) := by
  refine ⟨fun x hx => ?_, fun x hx => ?_, rfl, fun _ => ⟨rfl, rfl, by simp [Machine.start]⟩,
    .calm (by simp [Plain, Machine.start]) (.inl rfl)⟩
  · cases hx
  · cases hx

theorem run_sound (junk : State) (ms : List Move)
    (hrun : RunOk move Careful (Machine.start junk) ms) :
    Sound (run move (Machine.start junk) ms) ∧ Disciplined (run move (Machine.start junk) ms) := by
  refine run_invariant (I := fun m => Sound m ∧ Disciplined m) ?_ ms _
    ⟨sound_start junk, disciplined_start junk⟩ hrun
  rintro m mv ⟨h, hd⟩ hok
  exact ⟨h.move hd hok (move_cases m mv), hd.move (move_cases m mv)⟩

/-! ### Contexts that are intact, and one that is not -/

/-- Every control block holds the context that its own thread saved last, or was built with; a thread
that is dispatched goes on there; and no context was written over before it was resumed. -/
structure Intact (m : Machine) : Prop where
  own : ∀ x, m.mem.live x = true → m.env x = m.saved x ∧ (m.env x).owner = x
  resumes : ∀ c r, m.mem.life = .active → m.code = .longjmp :: r →
    m.mem.deref m.mem.curr = some c →
    (move m .step).2.mem.exec = c ∧ (move m .step).2.code = (m.saved c).rest
  kept : m.overwritten = false

/-- **The contexts of the threads are intact** in a run in which no alarm comes between `unlock` and
`longjmp`, and no search leaves `curr` at another thread. -/
theorem run_intact (junk : State) (ms : List Move)
    (hrun : RunOk move Careful (Machine.start junk) ms) :
    Intact (run move (Machine.start junk) ms) := by
  obtain ⟨hsound, -⟩ := run_sound junk ms hrun
  generalize run move (Machine.start junk) ms = m at *
  refine ⟨fun x hx => ⟨(hsound.own x hx).1, (hsound.own x hx).2.1⟩, ?_, hsound.kept⟩
  intro c r hlife hcode hc
  obtain ⟨-, hlive⟩ := Option.filter_eq_some_iff.mp hc
  obtain ⟨hsaved, howner, -⟩ := hsound.own c hlive
  rw [← hsaved]
  simp [move, hlife, hcode, Machine.exec, Machine.longjmp, hc, howner]

/-- Calls, and how many statements are executed behind each. -/
def moves (l : List (Call × Nat)) : List Move :=
  l.flatMap fun p => .call p.1 :: List.replicate p.2 .step

/-- Main creates a thread; the alarm switches to it, and comes again before `longjmp`. -/
def preemptDispatch : List Move := moves [(.create, 10), (.alarm, 11), (.alarm, 7)]

/-- The context in which the new thread was to start is lost: its control block holds one on the stack of
main. -/
theorem preemptDispatch_lost : ¬ Intact (run move (Machine.start State.start) preemptDispatch) := by
  intro h
  have howner := (h.own 1 (by decide +kernel)).2
  revert howner
  decide +kernel

/-- Alarms in `pthread_create`, in `lock` and in the code of the user, and a mutex that main waits
for until the other thread unlocks it and exits. -/
def preemptElsewhere : List Move :=
  moves [(.create, 8), (.alarm, 12), (.mutexInit 0, 3), (.alarm, 16), (.alarm, 20), (.lock 0, 9),
    (.alarm, 14), (.lock 0, 17), (.unlock 0, 9), (.exit, 20)]

theorem run_intact_preemptElsewhere :
    Intact (run move (Machine.start State.start) preemptElsewhere) :=
  run_intact State.start preemptElsewhere (by decide +kernel)

end EC440.ThreadSync
