import EC440.ThreadSync.Contexts
import EC440.ThreadSync.Waiters

/-!
# `pthread_create` under preemption

`pthread_create` links the new block with a handful of assignments to shared data, and does not block
`SIGALRM` meanwhile.  Here each of them is a step (`assign`), and the alarm may come between any two
of them; `schedule` and `pthread_exit` are single steps.  `todo x` is what the thread `x` has
still to assign.  `unset x f` says that the field `f` of the block `x` has not been assigned since
`malloc`, and `misread` that the scheduler has read such a field.

When the alarm finds the new block linked to but without a status, the scheduler reads what `malloc`
left there (`newThread_misread`).  When no alarm comes before `num_curr_threads` counts the new
thread, the ring is whole again after every `pthread_create` (`run_linked`).
-/

namespace EC440.ThreadSync

open EC440.Lib

/-- The fields of a block that the scheduler reads. -/
inductive Field
  | next
  | prev
  | status
deriving DecidableEq, Repr

structure Weave where
  mem : State
  todo : Nat → List Write
  unset : Nat → Field → Bool
  misread : Bool

def Weave.start (junk : State) : Weave where
  mem := (Machine.start junk).mem
  todo := fun _ => []
  unset := fun _ _ => false
  misread := false

/-! ### What the scheduler reads -/

/-- The `for` loop of `schedule` reads only fields that are assigned. -/
def searchReads (unset : Nat → Field → Bool) (s : State) : Nat → Nat → Bool
  | 0, _ => true
  | k + 1, c =>
    !unset c .next &&
      match s.deref (s.next c) with
      | none => true
      | some n => !unset n .status && (s.status n = .ready || searchReads unset s k n)

/-- `schedule` reads only fields that are assigned. -/
def scheduleReads (unset : Nat → Field → Bool) (s : State) : Bool :=
  match s.deref s.curr with
  | none => true
  | some c =>
    !unset c .status && (s.status c ≠ .exited || !unset c .prev && !unset c .next) &&
      match leaveCurr s c with
      | none => true
      | some s' =>
        match s'.deref s'.curr with
        | none => true
        | some d => !unset d .status && searchReads unset s' (maxThreads + 1) d

/-- The same for the call of `schedule` in `pthread_exit`. -/
def exitReads (unset : Nat → Field → Bool) (s : State) : Bool :=
  match exitBody s with
  | some (true, s') => scheduleReads unset s'
  | _ => true

/-! ### The assignments -/

/-- The field that an assignment writes. -/
def assigned (s : State) : Write → Option (Nat × Field)
  | .newNext y => some (y, .next)
  | .newPrev y => some (y, .prev)
  | .newPrevHead y => some (y, .prev)
  | .newReady y => some (y, .status)
  | .currNext _ => s.curr.map fun c => (c, .next)
  | .currPrev _ => s.curr.map fun c => (c, .prev)
  | .currRunning => s.curr.map fun c => (c, .status)
  | .headNext _ => s.head.map fun h => (h, .next)
  | .readHead => none
  | .countUp => none
  | .newId _ => none

def mark (unset : Nat → Field → Bool) (a : Option (Nat × Field)) (x : Nat) (f : Field) : Bool :=
  if a = some (x, f) then false else unset x f

/-- The assignments of `pthread_create` behind the new block `y`. -/
def createWrites (s : State) (y : Nat) : List Write :=
  linkWrites s y ++ [.newReady y, .countUp, .newId y]

/-- `pthread_create` up to the assignments. -/
def Weave.begin (m : Weave) : Weave :=
  let s := if m.mem.isFirstCall then m.mem.initialised else m.mem
  let y := s.nextTcb
  { m with
    mem := allocTcb s
    todo := Function.update m.todo s.exec (createWrites s y)
    unset := Function.update m.unset y fun _ => true }

inductive Turn
  | create
  | exit
  | alarm
  | assign
deriving DecidableEq, Repr

def Weave.assign (m : Weave) : Weave :=
  match m.todo m.mem.exec with
  | [] => m
  | w :: ws =>
    match perform m.mem w with
    | none => { m with mem := { m.mem with life := .undefined } }
    | some s =>
      { m with
        mem := s
        todo := Function.update m.todo m.mem.exec ws
        unset := mark m.unset (assigned m.mem w) }

/-- One step of the thread that has the processor, or the alarm. -/
def turn (m : Weave) (t : Turn) : Unit × Weave :=
  if m.mem.life = .active then
    match t with
    | .assign => ((), m.assign)
    | .create => ((), if m.todo m.mem.exec = [] then m.begin else m)
    | .exit =>
      ((), if m.todo m.mem.exec = [] then
        { m with
          mem := (call m.mem .exit).2
          misread := m.misread || !exitReads m.unset m.mem }
      else m)
    | .alarm =>
      ((), { m with
        mem := (call m.mem .alarm).2
        misread := m.misread || !(m.mem.isFirstCall || scheduleReads m.unset m.mem) })
  else
    ((), m)

/-- No field of a block is read before it is assigned, and when no `pthread_create` is under way the
ring has every thread once. -/
structure Linked (m : Weave) : Prop where
  reads : m.misread = false
  ring : m.mem.life = .active → m.mem.isFirstCall = false →
    (∀ x, m.mem.live x = true → m.todo x = []) →
    ∃ l c, m.mem.curr = some c ∧ Ring m.mem.next m.mem.prev l c ∧
      ∀ x, m.mem.live x = true ↔ x ∈ l ++ [c]

/-- No alarm comes before the new thread is linked and counted. -/
def Unbroken (m : Weave) : Turn → Prop
  | .alarm => .countUp ∉ m.todo m.mem.exec
  | _ => True

instance (m : Weave) : (t : Turn) → Decidable (Unbroken m t)
  | .alarm => inferInstanceAs (Decidable (¬ _))
  | .create => inferInstanceAs (Decidable True)
  | .exit => inferInstanceAs (Decidable True)
  | .assign => inferInstanceAs (Decidable True)

variable {m m' : Weave} {s s' : State} {u u' : Nat → Field → Bool} {l L : List Nat} {c x y k : Nat}
  {ws : List Write} {w : Write}

/-! ### The reads of the scheduler -/

/-- Every field of the threads is assigned. -/
def AllSet (u : Nat → Field → Bool) (s : State) : Prop := ∀ x f, s.live x = true → u x f = false

theorem live_of_deref {p : Option Nat} (h : s.deref p = some x) : s.live x = true :=
  (Option.filter_eq_some_iff.mp h).2

theorem AllSet.searchReads (h : AllSet u s) (hc : s.live c = true) : searchReads u s k c = true := by
  induction k generalizing c with
  | zero => rfl
  | succ k ih =>
    rw [ThreadSync.searchReads, h c .next hc]
    cases hn : s.deref (s.next c) with
    | none => rfl
    | some n =>
      have hlive := live_of_deref hn
      simp [h n .status hlive, ih hlive]

theorem AllSet.scheduleReads (h : AllSet u s) : scheduleReads u s = true := by
  unfold ThreadSync.scheduleReads
  cases hc : s.deref s.curr with
  | none => rfl
  | some c =>
    have hlive := live_of_deref hc
    simp only [h c _ hlive, Bool.not_false, Bool.and_true, Bool.or_true, Bool.true_and]
    cases hs : leaveCurr s c with
    | none => rfl
    | some s' =>
      have h' : AllSet u s' := fun x f hx => h x f ((leaveCurr_keeps hs).1 x hx)
      cases hd : s'.deref s'.curr with
      | none => simp only [hd]
      | some d =>
        have hlive' := live_of_deref hd
        simp [hd, h' d .status hlive', h'.searchReads hlive']

theorem AllSet.exitReads (h : AllSet u s) : exitReads u s = true := by
  unfold ThreadSync.exitReads
  split
  · rename_i s' hs
    refine AllSet.scheduleReads fun x f hx => h x f ?_
    rw [← (exitBody_still hs).live]
    exact hx
  · rfl

/-! ### The assignments of one `pthread_create` -/

/-- A run of assignments, with the fields they assign. -/
def assignAll (p : State × (Nat → Field → Bool)) (ws : List Write) :
    Option (State × (Nat → Field → Bool)) :=
  ws.foldlM (fun p w => (perform p.1 w).map fun s => (s, mark p.2 (assigned p.1 w))) p

theorem assignAll_concat {p q : State × (Nat → Field → Bool)} (h : assignAll p ws = some q)
    (hw : perform q.1 w = some s) : assignAll p (ws ++ [w]) = some (s, mark q.2 (assigned q.1 w)) := by
  unfold assignAll at h ⊢
  rw [List.foldlM_append, h]
  simp [hw]

theorem assignAll_still {p q : State × (Nat → Field → Bool)} (h : assignAll p ws = some q) :
    Still p.1 q.1 := by
  induction ws generalizing p with
  | nil =>
    obtain rfl : p = q := by simpa [assignAll] using h
    exact Still.refl _
  | cons w ws ih =>
    simp only [assignAll, List.foldlM_cons, Option.bind_eq_bind, Option.bind_eq_some_iff,
      Option.map_eq_some_iff] at h
    obtain ⟨p', ⟨s, hs, rfl⟩, hrest⟩ := h
    have h₁ := perform_still hs
    have h₂ := ih hrest
    exact ⟨h₂.live.trans h₁.live, h₂.curr.trans h₁.curr, h₂.exec.trans h₁.exec,
      h₂.nextTcb.trans h₁.nextTcb, h₂.first.trans h₁.first⟩

/-- What is assigned stays so, and every assignment assigns its field. -/
theorem assignAll_set {p q : State × (Nat → Field → Bool)} (h : assignAll p ws = some q) {f : Field}
    (hset : p.2 x f = false ∨ ∃ w ∈ ws, ∀ s, assigned s w = some (x, f)) : q.2 x f = false := by
  induction ws generalizing p with
  | nil =>
    obtain rfl : p = q := by simpa [assignAll] using h
    simpa using hset
  | cons w ws ih =>
    simp only [assignAll, List.foldlM_cons, Option.bind_eq_bind, Option.bind_eq_some_iff,
      Option.map_eq_some_iff] at h
    obtain ⟨p', ⟨s, -, rfl⟩, hrest⟩ := h
    refine ih hrest ?_
    rcases hset with hfalse | ⟨w', hw', hassigned⟩
    · exact .inl (by simp [mark, hfalse])
    · rcases List.mem_cons.mp hw' with rfl | hmem
      · exact .inl (by simp [mark, hassigned])
      · exact .inr ⟨w', hmem, hassigned⟩

theorem exists_assignAll (h : ws.foldlM perform s = some s') (u : Nat → Field → Bool) :
    ∃ u', assignAll (s, u) ws = some (s', u') := by
  induction ws generalizing s u with
  | nil =>
    obtain rfl : s = s' := by simpa using h
    exact ⟨u, rfl⟩
  | cons w ws ih =>
    simp only [List.foldlM_cons, Option.bind_eq_bind, Option.bind_eq_some_iff] at h
    obtain ⟨t, ht, hrest⟩ := h
    obtain ⟨u', hu'⟩ := ih hrest (mark u (assigned s w))
    exact ⟨u', by simpa [assignAll, ht] using hu'⟩

/-- The assignments of the linking section are `linkNew`. -/
theorem linkWrites_eq (hy : s.live y = true) (h : linkNew s y = some s') :
    (linkWrites s y).foldlM perform s = some s' := by
  simp only [linkNew, Option.bind_eq_bind, Option.bind_eq_some_iff] at h
  obtain ⟨c, hc, h⟩ := h
  have hcurr : s.curr = some c := (Option.filter_eq_some_iff.mp hc).1
  have hlive : s.live c = true := live_of_deref hc
  split at h
  · rename_i hnum
    cases h
    simp [linkWrites, hnum, perform, State.deref, Option.filter_some, hy, hcurr, hlive, State.setNext, State.setPrev]
  · rename_i hnum
    simp only [Option.bind_eq_some_iff, Option.some.injEq] at h
    obtain ⟨p, hp, rfl⟩ := h
    have hprev : s.prev c = some p := (Option.filter_eq_some_iff.mp hp).1
    have hlivep : s.live p = true := live_of_deref hp
    simp [linkWrites, hnum, perform, State.deref, Option.filter_some, hy, hcurr, hlive, hprev, hlivep, State.setNext,
      State.setPrev]

/-- **The new thread is linked and counted** when its assignments are not interrupted. -/
theorem Linkable.assignAll (h : Linkable s l c) (hready : ∀ x ∈ l, s.status x = .ready) (hset : AllSet u s) :
    ∃ s' u', ThreadSync.assignAll (allocTcb s, Function.update u s.nextTcb fun _ => true)
        (linkWrites s s.nextTcb ++ [Write.newReady s.nextTcb, Write.countUp]) = some (s', u') ∧
      Sched s' (l ++ [s.nextTcb]) c ∧ (∀ x ∈ l ++ [s.nextTcb], s'.status x = .ready) ∧ AllSet u' s' := by
  obtain ⟨next, prev, head, hcreate, hs⟩ := h.create
  have hnew : (allocTcb s).live s.nextTcb = true := by simp [allocTcb, State.setEnv]
  simp only [createThread, Option.bind_eq_bind, Option.bind_eq_some_iff, Option.some.injEq,
    Prod.mk.injEq, true_and] at hcreate
  obtain ⟨s₁, hlink, hspawned⟩ := hcreate
  have hlive₁ : s₁.live s.nextTcb = true := by
    have hlive : (s.spawned next prev head).live s.nextTcb = true := by simp [State.spawned]
    rw [← hspawned] at hlive
    exact hlive
  let s₂ : State := { s₁.setStatus s.nextTcb .ready with numCurrThreads := s₁.numCurrThreads + 1 }
  have hall : (linkWrites s s.nextTcb ++ [Write.newReady s.nextTcb, Write.countUp]).foldlM perform
      (allocTcb s) = some s₂ := by
    have hw : (linkWrites s s.nextTcb).foldlM perform (allocTcb s) = some s₁ := linkWrites_eq hnew hlink
    rw [List.foldlM_append, hw]
    simp [perform, State.deref, Option.filter_some, hlive₁, s₂, State.setStatus]
  obtain ⟨u', hu'⟩ := exists_assignAll hall (Function.update u s.nextTcb fun _ => true)
  have hsame : SameThreads (s.spawned next prev head) s₂ := by
    rw [← hspawned]
    exact ⟨rfl, rfl, rfl, rfl, rfl, rfl, rfl, rfl, rfl, rfl⟩
  have hsched := hsame.sched hs
  refine ⟨s₂, u', hu', hsched, ?_, ?_⟩
  · intro x hx
    rw [hsame.status]
    simp only [State.spawned, State.setStatus, State.setEnv, Function.update_apply]
    split
    · rfl
    · rename_i hne
      exact hready x (by simpa [hne] using hx)
  · intro x f hx
    refine assignAll_set hu' ?_
    by_cases hxy : x = s.nextTcb
    · subst hxy
      right
      cases f with
      | next =>
        refine ⟨.newNext s.nextTcb, List.mem_append_left _ ?_, fun _ => rfl⟩
        by_cases hnum : s.numCurrThreads = 1 <;> simp [linkWrites, hnum]
      | prev =>
        by_cases hnum : s.numCurrThreads = 1
        · exact ⟨.newPrev s.nextTcb, by simp [linkWrites, hnum], fun _ => rfl⟩
        · exact ⟨.newPrevHead s.nextTcb, by simp [linkWrites, hnum], fun _ => rfl⟩
      | status => exact ⟨.newReady s.nextTcb, by simp, fun _ => rfl⟩
    · left
      rw [hsame.live] at hx
      simp only [State.spawned, Function.update_of_ne hxy] at hx
      simpa only [Function.update_of_ne hxy] using hset x f hx

/-! ### The invariant -/

/-- A thread that is not linking has at most the number of a new thread to assign. -/
def Idle (ws : List Write) : Prop := ws = [] ∨ ∃ y, ws = [.newId y]

/-- The states between the steps.  While `c` links a new block, no other thread gets the processor:
the memory is the one in which it began, with the assignments it has made. -/
inductive Woven (m : Weave) : Prop
  | idle (first : m.mem.isFirstCall = true) (curr : m.mem.curr = none) (exec : m.mem.exec = 0)
      (new : m.mem.nextTcb = 0) (live : ∀ x, m.mem.live x = false) (todo : ∀ x, m.todo x = [])
      (set : ∀ x f, m.unset x f = false)
  | settled {l : List Nat} {c : Nat} (sched : Sched m.mem l c)
      (ready : ∀ x ∈ l, m.mem.status x = .ready) (set : AllSet m.unset m.mem)
      (todo : ∀ x, Idle (m.todo x))
  | linking {s : State} {u : Nat → Field → Bool} {l : List Nat} {c : Nat} {done rest : List Write}
      (linkable : Linkable s l c) (ready : ∀ x ∈ l, s.status x = .ready) (set : AllSet u s)
      (writes : done ++ rest = linkWrites s s.nextTcb ++ [.newReady s.nextTcb, .countUp])
      (left : rest ≠ [])
      (mem : assignAll (allocTcb s, Function.update u s.nextTcb fun _ => true) done =
        some (m.mem, m.unset))
      (todo : ∀ x, m.todo x = rest ++ [.newId s.nextTcb] ∧ x = c ∨ Idle (m.todo x) ∧ x ≠ c)

/-- All threads that can go on are ready, and the first one does. -/
theorem Switch.settled (h : Switch s L s') (hready : ∀ x ∈ L, s.status x = .ready) :
    s'.live = s.live ∧ ∃ l c, Sched s' l c ∧ ∀ x ∈ l, s'.status x = .ready := by
  obtain ⟨rfl, hp, hx⟩ := h
  rename_i l c x A B
  refine ⟨rfl, B ++ A, x, hp.resume hx.split, fun y hy => ?_⟩
  have hsched := hp.resume hx.split
  have hyx : y ≠ x := hsched.ne_of_mem hy
  have hmem : y ∈ l ++ [c] := by
    rw [hx.split]
    simp only [List.mem_append, List.mem_cons] at hy ⊢
    tauto
  simp only [State.resume, State.setStatus, Function.update_of_ne hyx]
  exact hready y hmem

/-- With all other threads ready, the next one is found at once. -/
theorem Sched.findsReady (h : Sched s l c) (hready : ∀ x ∈ l, s.status x = .ready) :
    FindsReady s .alarm := by
  refine fun _ => ⟨by simp [blocks], fun _ _ => (readyAhead_iff h.curr).mpr ?_⟩
  cases l with
  | nil => exact ⟨0, c, by decide, h.ring.walk_round, .inr ⟨rfl, rfl⟩⟩
  | cons a l =>
    refine ⟨0, a, by decide, ?_, .inl (hready a (by simp))⟩
    rw [h.ring.walk_eq (by simp)]
    rfl

theorem Sched.alarm_settled (h : Sched s l c) (hready : ∀ x ∈ l, s.status x = .ready)
    (hlife : s.life = .active) (hlife' : (call s .alarm).2.life = .active) :
    (∀ x, (call s .alarm).2.live x = true → s.live x = true) ∧
      ∃ l c, Sched (call s .alarm).2 l c ∧ ∀ x ∈ l, (call s .alarm).2.status x = .ready := by
  obtain ⟨r, hbody⟩ := call_of_body hlife hlife'
  generalize (call s .alarm).2 = s' at *
  have heff := alarm_effect (.sched h) hlife (h.findsReady hready) hbody
  cases heff with
  | same => exact ⟨fun _ hx => hx, l, c, h, hready⟩
  | undefined => cases hlife'
  | alarm hsw =>
    obtain ⟨hlive, hsettled⟩ := hsw.settled fun x hx => by
      simp only [State.suspend, State.setStatus, State.setEnv, Function.update_apply]
      split
      · rfl
      · rename_i hne
        exact hready x (by simpa [hne] using hx)
    exact ⟨fun x hx => by rw [hlive] at hx; exact hx, hsettled⟩

theorem Sched.exit_settled (h : Sched s l c) (hready : ∀ x ∈ l, s.status x = .ready)
    (hlife : s.life = .active) (hlife' : (call s .exit).2.life = .active) :
    (∀ x, (call s .exit).2.live x = true → s.live x = true) ∧
      ∃ l c, Sched (call s .exit).2 l c ∧ ∀ x ∈ l, (call s .exit).2.status x = .ready := by
  obtain ⟨r, hbody⟩ := call_of_body hlife hlife'
  generalize (call s .exit).2 = s' at *
  have heff := exit_effect (.sched h) hbody
  cases heff with
  | same => exact ⟨fun _ hx => hx, l, c, h, hready⟩
  | undefined => cases hlife'
  | ended hover => rw [hover] at hlife'; cases hlife'
  | exit hl hsw =>
    obtain ⟨hlive, hsettled⟩ := hsw.settled fun x hx => by
      have hxc : x ≠ c := h.ne_of_mem hx
      simp only [State.unlinked, State.setNext, State.setStatus, State.setEnv,
        Function.update_of_ne hxc]
      exact hready x hx
    refine ⟨fun x hx => ?_, hsettled⟩
    rw [hlive] at hx
    simp only [State.unlinked, Function.update_apply] at hx
    split at hx
    · cases hx
    · exact hx

/-- `pthread_create` begins. -/
theorem Linkable.woven (h : Linkable s l c) (hready : ∀ x ∈ l, s.status x = .ready)
    (hset : AllSet u s) (htodo : ∀ x, Idle (m.todo x)) :
    Woven
      { m with
        mem := allocTcb s
        todo := Function.update m.todo s.exec (createWrites s s.nextTcb)
        unset := Function.update u s.nextTcb fun _ => true } := by
  refine .linking h hready hset (List.nil_append _) (by simp) rfl fun x => ?_
  simp only [Function.update_apply, h.exec]
  split
  · rename_i hxc
    exact .inl ⟨by simp [createWrites], hxc⟩
  · rename_i hxc
    exact .inr ⟨htodo x, hxc⟩

theorem Woven.begin (h : Woven m) (hnone : m.todo m.mem.exec = []) : Woven m.begin := by
  cases h with
  | idle hfirst hcurr hexec hnew hlive htodo hset =>
    have hlink := linkable_initialised hexec hnew hlive
    have hw := hlink.woven (m := m) (by simp) (fun x f _ => hset x f) fun x => .inl (htodo x)
    simpa [Weave.begin, hfirst] using hw
  | settled hs hready hset htodo =>
    have hw := hs.linkable.woven (m := m) hready hset htodo
    simpa [Weave.begin, hs.first] using hw
  | @linking s u l c done rest hl hready hset hwrites hleft hmem htodo =>
    have hexec : m.mem.exec = c := (assignAll_still hmem).exec.trans hl.exec
    rcases htodo c with ⟨hc, -⟩ | ⟨-, hc⟩
    · rw [hexec, hc] at hnone
      simp at hnone
    · exact absurd rfl hc

theorem Woven.assign (h : Woven m) (hlife : m.assign.mem.life = .active) : Woven m.assign := by
  unfold Weave.assign at hlife ⊢
  cases hw : m.todo m.mem.exec with
  | nil => exact h
  | cons w ws =>
    cases hs : perform m.mem w with
    | none => simp [hw, hs] at hlife
    | some s' =>
      simp only [hs]
      cases h with
      | idle _ _ _ _ _ htodo => rw [htodo] at hw; cases hw
      | settled hsched hready hset htodo =>
        -- only the number of the new thread is left
        obtain ⟨y, hy⟩ : ∃ y, m.todo m.mem.exec = [.newId y] :=
          (htodo m.mem.exec).resolve_left (by rw [hw]; simp)
        rw [hw] at hy
        obtain ⟨rfl, rfl⟩ := List.cons.inj hy
        simp only [perform, Option.bind_eq_bind, Option.bind_eq_some_iff, Option.some.injEq] at hs
        obtain ⟨z, -, rfl⟩ := hs
        refine .settled (SameThreads.sched (s := m.mem) (by constructor <;> rfl) hsched) hready ?_ ?_
        · intro x f hx
          simpa [mark, assigned] using hset x f hx
        · intro x
          simp only [Function.update_apply]
          split
          · exact .inl rfl
          · exact htodo x
      | @linking s u l c done rest hl hready hset hwrites hleft hmem htodo =>
        have hexec : m.mem.exec = c := (assignAll_still hmem).exec.trans hl.exec
        have htodoc : m.todo c = rest ++ [Write.newId s.nextTcb] := by
          rcases htodo c with ⟨hc, -⟩ | ⟨-, hc⟩
          · exact hc
          · exact absurd rfl hc
        obtain ⟨w', rest', rfl⟩ := List.exists_cons_of_ne_nil hleft
        rw [hexec, htodoc, List.cons_append] at hw
        obtain ⟨rfl, rfl⟩ := List.cons.inj hw
        have hmem' := assignAll_concat hmem hs
        rw [hexec]
        cases rest' with
        | nil =>
          obtain ⟨s₂, u₂, hall, hsched, hready', hset'⟩ := hl.assignAll hready hset
          rw [hwrites, hall, Option.some.injEq, Prod.mk.injEq] at hmem'
          obtain ⟨rfl, rfl⟩ := hmem'
          refine .settled hsched hready' hset' fun x => ?_
          simp only [Function.update_apply]
          split
          · exact .inr ⟨_, rfl⟩
          · rename_i hxc
            exact ((htodo x).resolve_left fun hx => hxc hx.2).1
        | cons w'' rest'' =>
          refine .linking hl hready hset ?_ (List.cons_ne_nil w'' rest'') hmem' fun x => ?_
          · simpa using hwrites
          · simp only [Function.update_apply]
            split
            · rename_i hxc
              exact .inl ⟨rfl, hxc⟩
            · rename_i hxc
              exact .inr ((htodo x).resolve_left fun hx => hxc hx.2)

/-- When the thread at work links no block, nobody does. -/
theorem Woven.free (h : Woven m) (hok : .countUp ∉ m.todo m.mem.exec) :
    m.mem.isFirstCall = true ∧ m.mem.curr = none ∧ (∀ x f, m.unset x f = false) ∨
      ∃ l c, Sched m.mem l c ∧ (∀ x ∈ l, m.mem.status x = .ready) ∧ AllSet m.unset m.mem ∧
        ∀ x, Idle (m.todo x) := by
  cases h with
  | idle hfirst hcurr _ _ _ _ hset => exact .inl ⟨hfirst, hcurr, hset⟩
  | settled hs hready hset htodo => exact .inr ⟨_, _, hs, hready, hset, htodo⟩
  | @linking s u l c done rest hl hready hset hwrites hleft hmem htodo =>
    have hexec : m.mem.exec = c := (assignAll_still hmem).exec.trans hl.exec
    rcases htodo c with ⟨hc, -⟩ | ⟨-, hc⟩
    · -- what is left to assign ends with `countUp`
      have hlast : rest.getLast? = some .countUp := by
        have hall : (done ++ rest).getLast? = some .countUp := by
          rw [hwrites]
          simp
        rwa [List.getLast?_append_of_ne_nil done hleft] at hall
      refine absurd ?_ hok
      rw [hexec, hc]
      exact List.mem_append_left _ (List.mem_of_getLast? hlast)
    · exact absurd rfl hc

theorem Woven.allSet (h : Woven m) (hok : .countUp ∉ m.todo m.mem.exec) : AllSet m.unset m.mem := by
  rcases h.free hok with ⟨-, -, hset⟩ | ⟨l, c, -, -, hset, -⟩
  · exact fun x f _ => hset x f
  · exact hset

theorem Woven.congr (h : Woven m) (r : Bool) : Woven { m with misread := r } := by
  cases h with
  | idle hfirst hcurr hexec hnew hlive htodo hset =>
    exact .idle hfirst hcurr hexec hnew hlive htodo hset
  | settled hs hready hset htodo => exact .settled hs hready hset htodo
  | linking hl hready hset hwrites hleft hmem htodo =>
    exact .linking hl hready hset hwrites hleft hmem htodo

theorem Woven.alarm (h : Woven m) (hok : .countUp ∉ m.todo m.mem.exec) (hlife : m.mem.life = .active)
    (hlife' : (call m.mem .alarm).2.life = .active) (r : Bool) :
    Woven { m with mem := (call m.mem .alarm).2, misread := r } := by
  rcases h.free hok with ⟨hfirst, -, -⟩ | ⟨l, c, hs, hready, hset, htodo⟩
  · have hsame : (call m.mem .alarm).2 = m.mem := by simp [call, hlife, body, ThreadSync.alarm, hfirst]
    rw [hsame]
    exact h.congr r
  · obtain ⟨hlive, l', c', hs', hready'⟩ := hs.alarm_settled hready hlife hlife'
    exact .settled hs' hready' (fun x f hx => hset x f (hlive x hx)) htodo

theorem Woven.exit (h : Woven m) (hok : .countUp ∉ m.todo m.mem.exec) (hlife : m.mem.life = .active)
    (hlife' : (call m.mem .exit).2.life = .active) (r : Bool) :
    Woven { m with mem := (call m.mem .exit).2, misread := r } := by
  rcases h.free hok with ⟨-, hcurr, -⟩ | ⟨l, c, hs, hready, hset, htodo⟩
  · simp [call, hlife, body, pthreadExit, hcurr, State.deref] at hlife'
  · obtain ⟨hlive, l', c', hs', hready'⟩ := hs.exit_settled hready hlife hlife'
    exact .settled hs' hready' (fun x f hx => hset x f (hlive x hx)) htodo

/-! ### Runs -/

theorem turn_woven {t : Turn} (h : m.misread = false ∧ (m.mem.life = .active → Woven m))
    (hok : Unbroken m t) :
    (turn m t).2.misread = false ∧ ((turn m t).2.mem.life = .active → Woven (turn m t).2) := by
  obtain ⟨hmis, hw⟩ := h
  unfold turn
  split
  · rename_i hlife
    have hw := hw hlife
    cases t with
    | assign =>
      refine ⟨?_, fun hlife' => hw.assign hlife'⟩
      simp only [Weave.assign]
      split
      · exact hmis
      · split <;> exact hmis
    | create =>
      simp only
      split
      · rename_i hnone
        exact ⟨hmis, fun _ => hw.begin hnone⟩
      · exact ⟨hmis, fun _ => hw⟩
    | exit =>
      simp only
      split
      · rename_i hnone
        have hok' : .countUp ∉ m.todo m.mem.exec := by simp [hnone]
        refine ⟨by simp [hmis, (hw.allSet hok').exitReads], fun hlife' => hw.exit hok' hlife hlife' _⟩
      · exact ⟨hmis, fun _ => hw⟩
    | alarm =>
      refine ⟨by simp [hmis, (hw.allSet hok).scheduleReads], fun hlife' => hw.alarm hok hlife hlife' _⟩
  · exact ⟨hmis, hw⟩

theorem woven_start (junk : State) : Woven (Weave.start junk) :=
  .idle rfl rfl rfl rfl (fun _ => rfl) (fun _ => rfl) fun _ _ => rfl

theorem Woven.linked (h : m.misread = false ∧ (m.mem.life = .active → Woven m)) : Linked m := by
  refine ⟨h.1, fun hlife hfirst hnone => ?_⟩
  cases h.2 hlife with
  | idle hfirst' => rw [hfirst] at hfirst'; cases hfirst'
  | settled hs => exact ⟨_, _, hs.curr, hs.ring, hs.live⟩
  | @linking s u l c done rest hl hready hset hwrites hleft hmem htodo =>
    have hlive : m.mem.live c = true := by
      rw [(assignAll_still hmem).live]
      have hlive : s.live c = true := (hl.live c).mpr (by simp)
      simp only [allocTcb, State.setEnv, Function.update_apply]
      split
      · rfl
      · exact hlive
    rcases htodo c with ⟨hc, -⟩ | ⟨-, hc⟩
    · rw [hnone c hlive] at hc
      simp at hc
    · exact absurd rfl hc

/-- **The ring survives every `pthread_create`** that no alarm interrupts before the new thread is linked
and counted. -/
theorem run_linked (junk : State) (ts : List Turn) (hrun : RunOk turn Unbroken (Weave.start junk) ts) :
    Linked (run turn (Weave.start junk) ts) :=
  Woven.linked (run_invariant (I := fun m => m.misread = false ∧ (m.mem.life = .active → Woven m))
    (fun _ _ h hok => turn_woven h hok) ts _ ⟨rfl, fun _ => woven_start junk⟩ hrun)

/-- The alarm comes when `curr->next_thread` is the new block, which has no status yet. -/
def newThread : List Turn := [.create, .assign, .assign, .assign, .alarm]

theorem newThread_misread : ¬ Linked (run turn (Weave.start State.start) newThread) := by
  intro h
  have hreads := h.reads
  revert hreads
  decide +kernel

/-- Two threads are created and one of them exits, with alarms behind the assignments of each. -/
def newThreads : List Turn :=
  [Turn.create] ++ List.replicate 6 Turn.assign ++ [Turn.alarm, Turn.create] ++ List.replicate 8 Turn.assign ++
    [Turn.alarm, Turn.assign, Turn.exit]

theorem run_linked_newThreads : Linked (run turn (Weave.start State.start) newThreads) :=
  run_linked State.start newThreads (by decide +kernel)

end EC440.ThreadSync
