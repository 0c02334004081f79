import EC440.ThreadSync.Invariant

/-!
# How long a ready thread waits

While a thread `X` is ready, the threads that the search of `schedule` meets before it form a list
`P`.  New threads are linked in behind it and threads that are suspended go behind it,
so `P` only shrinks: each dispatch of another thread takes that thread and all in front of it out of
`P` (`Effect.passed`).  So the dispatches before that of `X` are a sublist of `P`.
-/

namespace EC440.ThreadSync

open EC440.Lib

variable {s s' : State} {l L P Q ws : List Nat} {c d x X : Nat} {cl : Call} {T : List Event}

/-- The threads that were dispatched, in order. -/
def dispatches (es : List Event) : List Nat :=
  es.filterMap fun
    | .dispatched t => some t
    | _ => none

theorem dispatches_append (es es' : List Event) :
    dispatches (es ++ es') = dispatches es ++ dispatches es' := List.filterMap_append

theorem dispatches_returns (t : Nat) (p : Point) : dispatches (returns t p) = [] := by
  cases p <;> rfl

/-- `X` is ready, and the search meets the threads `P` before it. -/
def Ahead (s : State) (P : List Nat) (X : Nat) : Prop :=
  ∃ l c Q, Sched s l c ∧ l = P ++ X :: Q ∧ s.status X = .ready

/-- What one call does to the threads in front of `X`: nothing, or one of them is dispatched, or `X`
itself. -/
inductive Passed (s' : State) (P : List Nat) (X : Nat) : List Nat → Prop
  | nobody (h : s'.life = .active → Ahead s' P X) : Passed s' P X []
  | other {A : List Nat} {x : Nat} {P' : List Nat} (hx : x ≠ X) (hP : P = A ++ x :: P')
      (h : Ahead s' P' X) : Passed s' P X [x]
  | itself : Passed s' P X [X]

theorem split_before {A B : List Nat} (h : P ++ X :: Q = A ++ x :: B) (hX : X ∉ A) :
    x = X ∨ ∃ P', P = A ++ x :: P' ∧ B = P' ++ X :: Q := by
  induction A generalizing P with
  | nil =>
    cases P with
    | nil =>
      simp only [List.nil_append, List.cons.injEq] at h
      exact .inl h.1.symm
    | cons y P =>
      simp only [List.nil_append, List.cons_append, List.cons.injEq] at h
      obtain ⟨rfl, rfl⟩ := h
      exact .inr ⟨P, rfl, rfl⟩
  | cons a A ih =>
    cases P with
    | nil =>
      simp only [List.nil_append, List.cons_append, List.cons.injEq] at h
      exact absurd (List.mem_cons.mpr (.inl h.1)) hX
    | cons y P =>
      simp only [List.cons_append, List.cons.injEq] at h
      obtain ⟨rfl, h⟩ := h
      rcases ih h (fun hmem => hX (List.mem_cons_of_mem y hmem)) with hx | ⟨P', rfl, hB⟩
      · exact .inl hx
      · exact .inr ⟨P', rfl, hB⟩

/-- The dispatched thread is `X` or in front of it. -/
theorem Switch.passed (h : Switch s L s') (hL : L = P ++ X :: Q) (hX : s.status X = .ready) :
    ∃ T, s'.trace = s.trace ++ T ∧ Passed s' P X (dispatches T) := by
  obtain ⟨hlc, hp, hx⟩ := h
  rename_i l c x A B
  refine ⟨.dispatched x :: returns x (s.env x).point, rfl, ?_⟩
  have hdis : dispatches (.dispatched x :: returns x (s.env x).point) = [x] := by
    rw [← List.singleton_append, dispatches_append, dispatches_returns]
    rfl
  rw [hdis]
  have hXA : X ∉ A := fun hmem => hx.before X hmem hX
  rcases split_before (hL.symm.trans hx.split) hXA with rfl | ⟨P', hP, hB⟩
  · exact .itself
  · have hs := hp.resume (hlc ▸ hx.split)
    have hXne : X ≠ x := by
      rintro rfl
      refine hs.ne_of_mem ?_ rfl
      rw [hB]
      simp
    refine .other hXne.symm hP ⟨_, _, Q ++ A, hs, by rw [hB]; simp, ?_⟩
    simp only [State.resume, State.setStatus, Function.update_of_ne hXne]
    exact hX

theorem SameThreads.ahead (h : SameThreads s s') (ha : Ahead s P X) : Ahead s' P X := by
  obtain ⟨l, c, Q, hs, hl, hX⟩ := ha
  exact ⟨l, c, Q, h.sched hs, hl, by rw [h.status]; exact hX⟩

theorem Ahead.wake (ha : Ahead s P X) (hws : ∀ x ∈ ws, s.live x = true ∧ s.status x = .blocked) :
    Ahead (s.wake ws) P X := by
  obtain ⟨l, c, Q, hs, hl, hX⟩ := ha
  refine ⟨l, c, Q, hs.wake hws, hl, ?_⟩
  simp only [State.wake]
  split
  · rfl
  · exact hX

theorem passed_nobody (htrace : s'.trace = s.trace ++ T) (hT : dispatches T = [])
    (h : s'.life = .active → Ahead s' P X) :
    ∃ T, s'.trace = s.trace ++ T ∧ Passed s' P X (dispatches T) :=
  ⟨T, htrace, by rw [hT]; exact .nobody h⟩

theorem passed_switch {s₁ : State} (h : Switch s₁ L s') (htrace : s₁.trace = s.trace ++ T)
    (hT : dispatches T = []) (hL : L = P ++ X :: Q) (hX : s₁.status X = .ready) :
    ∃ T, s'.trace = s.trace ++ T ∧ Passed s' P X (dispatches T) := by
  obtain ⟨T', htrace', hpassed⟩ := h.passed hL hX
  refine ⟨T ++ T', by rw [htrace', htrace, List.append_assoc], ?_⟩
  rw [dispatches_append, hT, List.nil_append]
  exact hpassed

/-- **One call** dispatches nobody, or a thread in front of `X`, or `X`. -/
theorem Effect.passed (h : Effect s l c cl s') (hs : Sched s l c) (hq : Queued s)
    (hl : l = P ++ X :: Q) (hX : s.status X = .ready) :
    ∃ T, s'.trace = s.trace ++ T ∧ Passed s' P X (dispatches T) := by
  have ha : Ahead s P X := ⟨l, c, Q, hs, hl, hX⟩
  have hmem : X ∈ l := by rw [hl]; simp
  have hXc : X ≠ c := hs.ne_of_mem hmem
  have hlc : l ++ [c] = P ++ X :: (Q ++ [c]) := by rw [hl]; simp
  have hsus : ∀ st p, (s.suspend c st p).status X = .ready := by
    intro st p
    simp only [State.suspend, State.setStatus, State.setEnv, Function.update_of_ne hXc]
    exact hX
  cases h with
  | same => exact passed_nobody (List.append_nil _).symm rfl fun _ => ha
  | undefined => exact passed_nobody (List.append_nil _).symm rfl fun hlife => by cases hlife
  | createFirst hfirst => rw [hs.first] at hfirst; cases hfirst
  | create next prev head hs' =>
    refine passed_nobody (List.append_nil _).symm rfl fun _ =>
      ⟨_, _, Q ++ [s.nextTcb], hs', by rw [hl]; simp, ?_⟩
    have hne : X ≠ s.nextTcb := Nat.ne_of_lt (hs.fresh X (List.mem_append_left _ hmem))
    simp only [State.spawned, State.setStatus, Function.update_of_ne hne]
    exact hX
  | exit _ h =>
    refine passed_switch h (List.append_nil _).symm rfl hl ?_
    simp only [State.unlinked, State.setNext, State.setStatus, State.setEnv, Function.update_of_ne hXc]
    exact hX
  | ended hover htrace =>
    refine passed_nobody (by rw [htrace, List.append_nil]) rfl fun hlife => ?_
    rw [hover] at hlife
    cases hlife
  | alarm h => exact passed_switch h (List.append_nil _).symm rfl hlc (hsus _ _)
  | mutexInit o =>
    exact passed_nobody (List.append_nil _).symm rfl fun _ =>
      SameThreads.ahead (s := s) (by constructor <;> rfl) ha
  | mutexDestroy o i =>
    exact passed_nobody (List.append_nil _).symm rfl fun _ =>
      SameThreads.ahead (s := s) (by constructor <;> rfl) ha
  | lockFree => exact passed_nobody rfl rfl fun _ => (sameThreads_setMutex _ _).ahead ha
  | lockBusy _ _ _ h => exact passed_switch h rfl rfl hlc (hsus _ _)
  | unlockLast => exact passed_nobody rfl rfl fun _ => (sameThreads_setMutex _ _).ahead ha
  | unlockNext _ hm _ hnext =>
    exact passed_nobody rfl rfl fun _ =>
      (sameThreads_setMutex _ _).ahead (ha.wake (hq.blocked (inQueue_head hm hnext)))
  | barrierInit o =>
    exact passed_nobody rfl rfl fun _ => SameThreads.ahead (s := s) (by constructor <;> rfl) ha
  | barrierDestroy o i =>
    exact passed_nobody (List.append_nil _).symm rfl fun _ =>
      SameThreads.ahead (s := s) (by constructor <;> rfl) ha
  | waitBlocks _ _ _ h => exact passed_switch h rfl rfl hlc (hsus _ _)
  | waitLast _ hb =>
    exact passed_nobody rfl rfl fun _ =>
      (sameThreads_setBarrier _ _).ahead (ha.wake (hq.blocked fun x hx => .barrier hb hx))
  | waitOver => exact passed_nobody rfl rfl fun _ => (sameThreads_setBarrier _ _).ahead ha

/-- **The dispatches before that of `X`** are some of the threads in front of it, in order. -/
theorem run_ahead : ∀ (cs : List Call) (s : State) (P : List Nat), Good s →
    (s.life = .active → Ahead s P X) → RunOk call FindsReady s cs →
    ∃ T, (run call s cs).trace = s.trace ++ T ∧ ((dispatches T).takeWhile (· ≠ X)).Sublist P := by
  intro cs
  induction cs with
  | nil =>
    intro s P _ _ _
    exact ⟨[], (List.append_nil _).symm, List.nil_sublist P⟩
  | cons cl cs ih =>
    intro s P hg ha hok
    by_cases hlife : s.life = .active
    · obtain ⟨l, c, Q, hs, hl, hX⟩ := ha hlife
      have hq := hg.queued hlife
      have hg' : Good (call s cl).2 := hg.call hok.1
      obtain ⟨T, htrace, hpassed⟩ := (call_effect (.sched hs) hq hok.1 hlife).passed hs hq hl hX
      -- the first call, and then the others
      have hjoin : ∀ T', (run call (call s cl).2 cs).trace = (call s cl).2.trace ++ T' →
          (run call s (cl :: cs)).trace = s.trace ++ (T ++ T') := by
        intro T' hT'
        rw [run, hT', htrace, List.append_assoc]
      generalize hD : dispatches T = D at hpassed
      cases hpassed with
      | nobody h =>
        obtain ⟨T', hT', hsub⟩ := ih _ P hg' h hok.2
        refine ⟨T ++ T', hjoin T' hT', ?_⟩
        rw [dispatches_append, hD]
        exact hsub
      | @other A x P' hx hP h =>
        obtain ⟨T', hT', hsub⟩ := ih _ P' hg' (fun _ => h) hok.2
        refine ⟨T ++ T', hjoin T' hT', ?_⟩
        rw [dispatches_append, hD, List.singleton_append, List.takeWhile_cons_of_pos (by simpa using hx), hP]
        exact (hsub.cons_cons x).trans (List.sublist_append_right A _)
      | itself =>
        obtain ⟨T', hT'⟩ := run_trace_grows cs _ hg' hok.2
        refine ⟨T ++ T', hjoin T' hT'.symm, ?_⟩
        rw [dispatches_append, hD, List.singleton_append, List.takeWhile_cons_of_neg (by simp)]
        exact List.nil_sublist P
    · rw [run_of_dead hlife]
      exact ⟨[], (List.append_nil _).symm, List.nil_sublist P⟩

/-- The threads in front of `X` are fewer than the links from `curr` to it. -/
theorem Sched.ahead_of_walk (hs : Sched s l c) (hlive : s.live X = true) (hready : s.status X = .ready)
    (hd : walk s.next d c = some X) : ∃ P, Ahead s P X ∧ P.Nodup ∧ P.length < d := by
  have hmem := (hs.live X).mp hlive
  have hXc : X ≠ c := by
    rintro rfl
    rw [hs.running] at hready
    cases hready
  obtain ⟨P, Q, hl⟩ := List.append_of_mem (show X ∈ l by simpa [hXc] using hmem)
  have hnodup : P.Nodup := by
    have h := hs.ring.nodup
    rw [hl, List.append_assoc] at h
    exact h.sublist (List.sublist_append_left _ _)
  refine ⟨P, ⟨l, c, Q, hs, hl, hready⟩, hnodup, ?_⟩
  -- a walk that is not longer would meet `X` twice in one round
  by_contra hlong
  have hlen : P.length < l.length := by rw [hl]; simp
  have hP : walk s.next (P.length + 1) c = some X := by
    rw [hs.ring.walk_eq (by omega), List.getElem?_cons_succ, List.getElem?_append_left hlen, hl,
      List.getElem?_append_right (Nat.le_refl _), Nat.sub_self, List.getElem?_cons_zero]
  have hunique := hs.ring.existsUnique_walk hmem
  have heq := hunique.unique ⟨(by omega : d < l.length + 1), hd⟩
    ⟨(by omega : P.length + 1 < l.length + 1), hP⟩
  omega

/-- **Bounded bypass.**  From any state of a run in which the thread `X` is ready, `d` links behind
`curr`, no other thread is dispatched twice before `X` is, and fewer than `d` are. -/
theorem ready_bypass_lt (cs cs' : List Call) (hrun : RunOk call Ok State.start (cs ++ cs'))
    {c d X : Nat} (hlife : (run call State.start cs).life = .active)
    (hcurr : (run call State.start cs).curr = some c)
    (hlive : (run call State.start cs).live X = true)
    (hready : (run call State.start cs).status X = .ready)
    (hd : walk (run call State.start cs).next d c = some X) :
    ∃ T, (run call State.start (cs ++ cs')).trace = (run call State.start cs).trace ++ T ∧
      ((dispatches T).takeWhile (· ≠ X)).Nodup ∧ ((dispatches T).takeWhile (· ≠ X)).length < d := by
  obtain ⟨hcs, hcs'⟩ := (runOk_append _ _ _).mp (findsReady_of_ok _ hrun)
  have hg := run_good cs hcs
  rw [run_append]
  generalize run call State.start cs = s at *
  obtain ⟨l, c', hst⟩ := hg.stage hlife
  cases hst with
  | idle _ _ _ _ hidle => rw [hidle] at hlive; cases hlive
  | sched hs =>
    obtain rfl : c' = c := by simpa [hs.curr] using hcurr
    obtain ⟨P, ha, hnodup, hlt⟩ := hs.ahead_of_walk hlive hready hd
    obtain ⟨T, htrace, hsub⟩ := run_ahead cs' s P hg (fun _ => ha) hcs'
    exact ⟨T, htrace, hsub.nodup hnodup, hsub.length_le.trans_lt hlt⟩

/-- A third thread is created, waits for its turn behind the second, and gets it. -/
theorem ready_bypass_lt_third :
    ∃ T, (run call State.start ([.create, .create] ++ [.alarm, .create, .alarm, .alarm, .exit])).trace =
        (run call State.start [.create, .create]).trace ++ T ∧
      ((dispatches T).takeWhile (· ≠ 2)).Nodup ∧ ((dispatches T).takeWhile (· ≠ 2)).length < 2 :=
  ready_bypass_lt (c := 0) [.create, .create] [.alarm, .create, .alarm, .alarm, .exit]
    (by decide +kernel) (by decide +kernel) (by decide +kernel) (by decide +kernel) (by decide +kernel)
    (by decide +kernel)

end EC440.ThreadSync
