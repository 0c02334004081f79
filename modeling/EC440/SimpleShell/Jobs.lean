import EC440.SimpleShell.Main
import Mathlib.Data.Finset.Card
import Mathlib.Logic.Relation
import Mathlib.Tactic.Common

/-!
# Waiting for the children

The end of a round of `main`: a pipeline in front is waited for with one `wait` for each command, and one
in the background installs `handle_child` for `SIGCHLD`, which stays installed.  `JobStep` is one step of
the shell, or the end of a child, which may come at any time.

`wait` takes any child that has ended, of whichever pipeline, and a signal interrupts it, because
`sa_flags` is `0`.  So the loop is over when all children of the pipeline have ended only as long as
nothing was started in the background before (`joins_iff`).
-/

namespace EC440.SimpleShell

open EC440.Lib
open Relation (ReflTransGen)

/-- Where `main` is: the fork loop with some commands to go, or the loop of `wait`. -/
inductive Stage
  | prompt
  | forking (left : Nat)
  | waiting (left : Nat)
  | returned
deriving DecidableEq

/-- A pipeline: the number of its commands, and `is_background`. -/
abbrev Job := Nat × Bool

/-- The shell and its children.  A child is known by the number of its line and by how many commands
were left when it was forked. -/
structure Jobs where
  script : List Job
  current : Job
  line : Nat
  running : Finset (Nat × Nat)
  ended : Finset (Nat × Nat)
  caught : Bool
  pending : Bool
  stage : Stage

/-- `caught` says that `handle_child` is installed.  Where it is not, `SIGCHLD` is ignored. -/
inductive JobStep : Jobs → Jobs → Prop
  | read {s : Jobs} {j : Job} {js : List Job} (hstage : s.stage = .prompt) (hscript : s.script = j :: js) :
      JobStep s { s with script := js, current := j, line := s.line + 1, stage := .forking j.1 }
  | eof {s : Jobs} (hstage : s.stage = .prompt) (hscript : s.script = []) :
      JobStep s { s with stage := .returned }
  | fork {s : Jobs} {k : Nat} (hstage : s.stage = .forking (k + 1)) :
      JobStep s { s with running := insert (s.line, k) s.running, stage := .forking k }
  | background {s : Jobs} (hstage : s.stage = .forking 0) (hbg : s.current.2 = true) :
      JobStep s { s with caught := true, stage := .prompt }
  | foreground {s : Jobs} (hstage : s.stage = .forking 0) (hbg : s.current.2 = false) :
      JobStep s { s with stage := .waiting s.current.1 }
  | wait {s : Jobs} {k : Nat} {c : Nat × Nat} (hstage : s.stage = .waiting (k + 1)) (hc : c ∈ s.ended) :
      JobStep s { s with ended := s.ended.erase c, stage := .waiting k }
  /-- `ECHILD`. -/
  | noChild {s : Jobs} {k : Nat} (hstage : s.stage = .waiting (k + 1)) (hrunning : s.running = ∅)
      (hended : s.ended = ∅) : JobStep s { s with stage := .waiting k }
  | waited {s : Jobs} (hstage : s.stage = .waiting 0) : JobStep s { s with stage := .prompt }
  | exit {s : Jobs} {c : Nat × Nat} (hc : c ∈ s.running) :
      JobStep s
        { s with
          running := s.running.erase c
          ended := insert c s.ended
          pending := s.pending || s.caught }
  /-- `handle_child` reaps every child that has ended. -/
  | handle {s : Jobs} (hpending : s.pending = true) : JobStep s { s with ended := ∅, pending := false }
  /-- `EINTR` in `wait`. -/
  | interruptWait {s : Jobs} {k : Nat} (hpending : s.pending = true) (hstage : s.stage = .waiting (k + 1)) :
      JobStep s { s with ended := ∅, pending := false, stage := .waiting k }
  /-- `EINTR` in `fgets`, which returns `NULL`. -/
  | interruptRead {s : Jobs} (hpending : s.pending = true) (hstage : s.stage = .prompt) :
      JobStep s { s with ended := ∅, pending := false, stage := .returned }

/-- The shell before it reads the pipelines `js`. -/
def Jobs.start (js : List Job) : Jobs := ⟨js, (0, false), 0, ∅, ∅, false, false, .prompt⟩

/-- Whenever the loop of `wait` is over, no child of its pipeline is running. -/
def Joins (js : List Job) : Prop :=
  ∀ s, ReflTransGen JobStep (Jobs.start js) s → s.stage = .waiting 0 → ∀ k, (s.line, k) ∉ s.running

/-- Behind a pipeline in the background there are only others in the background. -/
def BackgroundLast (js : List Job) : Prop := js.Pairwise fun j j' => j.2 = true → j'.2 = true

instance (js : List Job) : Decidable (BackgroundLast js) := inferInstanceAs (Decidable (List.Pairwise _ _))

variable {s s' : Jobs} {js : List Job} {j : Job} {k : Nat}

/-! ### Nothing in the background -/

/-- As long as all pipelines were in front: how many children are left, at each place. -/
inductive Tidy (s : Jobs) : Prop
  | prompt (hstage : s.stage = .prompt) (hrunning : s.running = ∅) (hended : s.ended = ∅)
  | forking (k : Nat) (hstage : s.stage = .forking k) (hfront : s.current.2 = false)
      (hle : s.running.card + s.ended.card + k = s.current.1) (hnew : ∀ c ∈ s.running ∪ s.ended, k ≤ c.2)
  | waiting (k : Nat) (hstage : s.stage = .waiting k) (hleft : s.running.card + s.ended.card = k)
  | returned (hstage : s.stage = .returned)

/-- Once a pipeline was in the background, nothing is waited for. -/
inductive Loose (s : Jobs) : Prop
  | prompt (hstage : s.stage = .prompt)
  | forking (k : Nat) (hstage : s.stage = .forking k) (hback : s.current.2 = true)
  | returned (hstage : s.stage = .returned)

/-- The invariant of a script that ends with its background pipelines. -/
inductive JobInv (s : Jobs) : Prop
  | front (htidy : Tidy s) (hlast : BackgroundLast s.script) (hcaught : s.caught = false)
      (hpending : s.pending = false) (hdisjoint : Disjoint s.running s.ended)
  | back (hloose : Loose s) (hback : ∀ j ∈ s.script, j.2 = true)

theorem JobInv.start (h : BackgroundLast js) : JobInv (Jobs.start js) :=
  .front (.prompt rfl rfl rfl) h rfl rfl (Finset.disjoint_empty_left _)

/-- A child that ends is still there. -/
theorem card_exit {c : Nat × Nat} (hdisjoint : Disjoint s.running s.ended) (hc : c ∈ s.running) :
    (s.running.erase c).card + (insert c s.ended).card = s.running.card + s.ended.card := by
  have hnot : c ∉ s.ended := Finset.disjoint_left.mp hdisjoint hc
  have hpos := Finset.card_pos.mpr ⟨c, hc⟩
  rw [Finset.card_insert_of_notMem hnot, Finset.card_erase_of_mem hc]
  omega

theorem union_exit {c : Nat × Nat} (hc : c ∈ s.running) :
    s.running.erase c ∪ insert c s.ended = s.running ∪ s.ended := by
  ext d
  simp only [Finset.mem_union, Finset.mem_erase, Finset.mem_insert]
  by_cases hd : d = c
  · simp [hd, hc]
  · simp [hd]

theorem Tidy.exit {c : Nat × Nat} {p : Bool} (h : Tidy s) (hdisjoint : Disjoint s.running s.ended)
    (hc : c ∈ s.running) :
    Tidy { s with running := s.running.erase c, ended := insert c s.ended, pending := p } := by
  have hcard := card_exit hdisjoint hc
  cases h with
  | prompt _ hrunning _ =>
    rw [hrunning] at hc
    cases hc
  | forking k hstage hfront hle hnew =>
    refine .forking k hstage hfront ?_ ?_
    · dsimp only
      omega
    · dsimp only
      rw [union_exit hc]
      exact hnew
  | waiting k hstage hleft =>
    refine .waiting k hstage ?_
    dsimp only
    omega
  | returned hstage => exact .returned hstage

theorem Tidy.of_prompt (h : Tidy s) (hstage : s.stage = .prompt) : s.running = ∅ ∧ s.ended = ∅ := by
  cases h with
  | prompt _ hrunning hended => exact ⟨hrunning, hended⟩
  | forking _ h => rw [h] at hstage; cases hstage
  | waiting _ h => rw [h] at hstage; cases hstage
  | returned h => rw [h] at hstage; cases hstage

theorem Tidy.of_forking (h : Tidy s) (hstage : s.stage = .forking k) :
    s.current.2 = false ∧ s.running.card + s.ended.card + k = s.current.1 ∧
      ∀ c ∈ s.running ∪ s.ended, k ≤ c.2 := by
  cases h with
  | prompt h => rw [h] at hstage; cases hstage
  | forking _ h hfront hle hnew =>
    rw [h, Stage.forking.injEq] at hstage
    subst hstage
    exact ⟨hfront, hle, hnew⟩
  | waiting _ h => rw [h] at hstage; cases hstage
  | returned h => rw [h] at hstage; cases hstage

theorem Tidy.of_waiting (h : Tidy s) (hstage : s.stage = .waiting k) : s.running.card + s.ended.card = k := by
  cases h with
  | prompt h => rw [h] at hstage; cases hstage
  | forking _ h => rw [h] at hstage; cases hstage
  | waiting _ h hleft =>
    rw [h, Stage.waiting.injEq] at hstage
    exact hleft.trans hstage
  | returned h => rw [h] at hstage; cases hstage

/-- **One step** of a shell that has nothing in the background. -/
theorem JobStep.front (hstep : JobStep s s') (htidy : Tidy s) (hlast : BackgroundLast s.script)
    (hcaught : s.caught = false) (hpending : s.pending = false) (hdisjoint : Disjoint s.running s.ended) :
    JobInv s' := by
  cases hstep with
  | @read j js hst hscript =>
    obtain ⟨hrunning, hended⟩ := htidy.of_prompt hst
    rw [BackgroundLast, hscript, List.pairwise_cons] at hlast
    cases hj : j.2 with
    | true => exact .back (.forking j.1 rfl hj) fun j' hj' => hlast.1 j' hj' hj
    | false =>
      refine .front (.forking j.1 rfl hj ?_ ?_) hlast.2 hcaught hpending hdisjoint
      · simp [hrunning, hended]
      · simp [hrunning, hended]
  | eof => exact .front (.returned rfl) hlast hcaught hpending hdisjoint
  | @fork k hst =>
    obtain ⟨hfront, hle, hnew⟩ := htidy.of_forking hst
    have hfresh : (s.line, k) ∉ s.running ∪ s.ended := fun hmem => by
      have hk := hnew _ hmem
      simp only at hk
      omega
    rw [Finset.mem_union, not_or] at hfresh
    refine .front (.forking k rfl hfront ?_ ?_) hlast hcaught hpending ?_
    · dsimp only
      rw [Finset.card_insert_of_notMem hfresh.1]
      omega
    · dsimp only
      rw [Finset.insert_union]
      intro c hc
      rcases Finset.mem_insert.mp hc with rfl | hc
      · exact Nat.le_refl k
      · have hk := hnew c hc
        omega
    · exact Finset.disjoint_insert_left.mpr ⟨hfresh.2, hdisjoint⟩
  | background hst hbg =>
    obtain ⟨hfront, -, -⟩ := htidy.of_forking hst
    rw [hfront] at hbg
    cases hbg
  | foreground hst hbg =>
    obtain ⟨-, hle, -⟩ := htidy.of_forking hst
    exact .front (.waiting _ rfl hle) hlast hcaught hpending hdisjoint
  | @wait k c hst hc =>
    have hleft := htidy.of_waiting hst
    have hpos := Finset.card_pos.mpr ⟨c, hc⟩
    refine .front (.waiting k rfl ?_) hlast hcaught hpending ?_
    · dsimp only
      rw [Finset.card_erase_of_mem hc]
      omega
    · exact hdisjoint.mono_right (Finset.erase_subset c _)
  | @noChild k hst hrunning hended =>
    have hleft := htidy.of_waiting hst
    rw [hrunning, hended] at hleft
    cases hleft
  | waited hst =>
    have hleft := htidy.of_waiting hst
    have hnone : s.running.card = 0 ∧ s.ended.card = 0 := by omega
    exact .front (.prompt rfl (Finset.card_eq_zero.mp hnone.1) (Finset.card_eq_zero.mp hnone.2)) hlast hcaught
      hpending hdisjoint
  | @exit c hc =>
    refine .front (htidy.exit hdisjoint hc) hlast hcaught (by simp [hcaught, hpending]) ?_
    refine Finset.disjoint_insert_right.mpr ⟨Finset.notMem_erase c _, ?_⟩
    exact hdisjoint.mono_left (Finset.erase_subset c _)
  | handle h => rw [hpending] at h; cases h
  | interruptWait h => rw [hpending] at h; cases h
  | interruptRead h => rw [hpending] at h; cases h

theorem Loose.not_waiting (h : Loose s) (k : Nat) : s.stage ≠ .waiting k := by
  intro hk
  cases h with
  | prompt h => rw [h] at hk; cases hk
  | forking _ h _ => rw [h] at hk; cases hk
  | returned h => rw [h] at hk; cases hk

theorem Loose.of_forking (h : Loose s) (hstage : s.stage = .forking k) : s.current.2 = true := by
  cases h with
  | prompt h => rw [h] at hstage; cases hstage
  | forking _ _ h => exact h
  | returned h => rw [h] at hstage; cases hstage

theorem Loose.congr (h : Loose s) (hstage : s'.stage = s.stage) (hcurrent : s'.current = s.current) :
    Loose s' := by
  cases h with
  | prompt h => exact .prompt (hstage.trans h)
  | forking k h hback => exact .forking k (hstage.trans h) (by rw [hcurrent]; exact hback)
  | returned h => exact .returned (hstage.trans h)

/-- **One step** of a shell that has only background pipelines to come. -/
theorem JobStep.back (hstep : JobStep s s') (hloose : Loose s) (hback : ∀ j ∈ s.script, j.2 = true) :
    JobInv s' := by
  cases hstep with
  | @read j js hst hscript =>
    rw [hscript, List.forall_mem_cons] at hback
    exact .back (.forking j.1 rfl hback.1) hback.2
  | eof => exact .back (.returned rfl) hback
  | fork hst => exact .back (.forking _ rfl (hloose.of_forking hst)) hback
  | background => exact .back (.prompt rfl) hback
  | foreground hst hbg =>
    rw [hloose.of_forking hst] at hbg
    cases hbg
  | wait hst => exact absurd hst (hloose.not_waiting _)
  | noChild hst => exact absurd hst (hloose.not_waiting _)
  | waited hst => exact absurd hst (hloose.not_waiting _)
  | exit => exact .back (hloose.congr rfl rfl) hback
  | handle => exact .back (hloose.congr rfl rfl) hback
  | interruptWait _ hst => exact absurd hst (hloose.not_waiting _)
  | interruptRead => exact .back (.returned rfl) hback

theorem JobInv.step (h : JobInv s) (hstep : JobStep s s') : JobInv s' := by
  cases h with
  | front htidy hlast hcaught hpending hdisjoint => exact hstep.front htidy hlast hcaught hpending hdisjoint
  | back hloose hback => exact hstep.back hloose hback

theorem JobInv.run (h : JobInv s) (hrun : ReflTransGen JobStep s s') : JobInv s' := by
  induction hrun with
  | refl => exact h
  | tail _ hstep ih => exact ih.step hstep

/-- At the end of the loop of `wait` nothing is running. -/
theorem JobInv.joined (h : JobInv s) (hstage : s.stage = .waiting 0) : s.running = ∅ := by
  cases h with
  | front htidy =>
    have hleft := htidy.of_waiting hstage
    exact Finset.card_eq_zero.mp (by omega)
  | back hloose => exact absurd hstage (hloose.not_waiting 0)

/-! ### A child in the background -/

/-- The children that are running go on running, those of the line `l` with a number below `k` left aside. -/
structure Goes (s s' : Jobs) (l k : Nat) : Prop where
  run : ReflTransGen JobStep s s'
  script : s'.script = s.script
  current : s'.current = s.current
  line : s'.line = s.line
  running : ∀ c ∈ s.running, (c.1 = l ∧ c.2 < k) ∨ c ∈ s'.running

/-- The fork loop. -/
theorem exists_forked (hstage : s.stage = .forking k) :
    ∃ s', Goes s s' 0 0 ∧ s'.stage = .forking 0 ∧ ∀ i, i < k → (s.line, i) ∈ s'.running := by
  induction k generalizing s with
  | zero => exact ⟨s, ⟨.refl, rfl, rfl, rfl, fun c hc => .inr hc⟩, hstage, by simp⟩
  | succ k ih =>
    obtain ⟨s', h, hdone, hforked⟩ :=
      @ih { s with running := insert (s.line, k) s.running, stage := .forking k } rfl
    have hkept : ∀ c ∈ insert (s.line, k) s.running, c ∈ s'.running := by
      intro c hc
      rcases h.running c hc with hlt | hc'
      · exact absurd hlt.2 (Nat.not_lt_zero _)
      · exact hc'
    refine ⟨s', ⟨.head (.fork hstage) h.run, h.script, h.current, h.line, ?_⟩, hdone, ?_⟩
    · exact fun c hc => .inr (hkept c (Finset.mem_insert_of_mem hc))
    · intro i hi
      by_cases hik : i = k
      · exact hik ▸ hkept _ (Finset.mem_insert_self _ _)
      · exact hforked i (by omega)

/-- The loop of `wait`, when each of the children `0` to `k - 1` of the line ends in front of its `wait`. -/
theorem exists_waited (hstage : s.stage = .waiting k) (hchildren : ∀ i, i < k → (s.line, i) ∈ s.running) :
    ∃ s', Goes s s' s.line k ∧ s'.stage = .waiting 0 := by
  induction k generalizing s with
  | zero => exact ⟨s, ⟨.refl, rfl, rfl, rfl, fun c hc => .inr hc⟩, hstage⟩
  | succ k ih =>
    have hc := hchildren k (Nat.lt_succ_self k)
    -- the child `k` ends, and is waited for
    let s₁ : Jobs :=
      { s with
        running := s.running.erase (s.line, k)
        ended := insert (s.line, k) s.ended
        pending := s.pending || s.caught }
    let s₂ : Jobs := { s₁ with ended := s₁.ended.erase (s.line, k), stage := .waiting k }
    have hstep₁ : JobStep s s₁ := .exit hc
    have hstep₂ : JobStep s₁ s₂ := .wait hstage (Finset.mem_insert_self _ _)
    obtain ⟨s', h, hdone⟩ := @ih s₂ rfl fun i hi =>
      Finset.mem_erase.mpr ⟨fun heq => absurd (Prod.mk.inj heq).2 (Nat.ne_of_lt hi), hchildren i (by omega)⟩
    refine ⟨s', ⟨.head hstep₁ (.head hstep₂ h.run), h.script, h.current, h.line, ?_⟩, hdone⟩
    intro c hmem
    by_cases heq : c = (s.line, k)
    · exact .inl (by rw [heq]; exact ⟨rfl, Nat.lt_succ_self k⟩)
    · rcases h.running c (Finset.mem_erase.mpr ⟨heq, hmem⟩) with hlt | hc'
      · exact .inl ⟨hlt.1, Nat.lt_succ_of_lt hlt.2⟩
      · exact .inr hc'

/-- A pipeline is read, and its children are forked. -/
theorem exists_started (hstage : s.stage = .prompt) (hscript : s.script = j :: js) :
    ∃ s', ReflTransGen JobStep s s' ∧ s'.stage = .forking 0 ∧ s'.script = js ∧ s'.current = j ∧
      s'.line = s.line + 1 ∧ (∀ c ∈ s.running, c ∈ s'.running) ∧
      ∀ i, i < j.1 → (s.line + 1, i) ∈ s'.running := by
  obtain ⟨s', h, hdone, hforked⟩ :=
    @exists_forked { s with script := js, current := j, line := s.line + 1, stage := .forking j.1 } j.1 rfl
  refine ⟨s', .head (.read hstage hscript) h.run, hdone, h.script, h.current, h.line, ?_, hforked⟩
  intro c hc
  rcases h.running c hc with hlt | hc'
  · exact absurd hlt.2 (Nat.not_lt_zero _)
  · exact hc'

/-- The shell gets to its next prompt, and children of earlier lines may go on running. -/
theorem exists_prompt (hstage : s.stage = .prompt) (hscript : s.script = j :: js) :
    ∃ s', ReflTransGen JobStep s s' ∧ s'.stage = .prompt ∧ s'.script = js ∧ s'.line = s.line + 1 ∧
      (∀ c ∈ s.running, c.1 ≤ s.line → c ∈ s'.running) ∧
      (j.2 = true → ∀ i, i < j.1 → (s.line + 1, i) ∈ s'.running) := by
  obtain ⟨s', hrun, hdone, hscript', hcurrent, hline, hkept, hforked⟩ := exists_started hstage hscript
  cases hj : j.2 with
  | true =>
    have hbg : s'.current.2 = true := by rw [hcurrent, hj]
    exact ⟨_, hrun.tail (.background hdone hbg), rfl, hscript', hline, fun c hc _ => hkept c hc,
      fun _ => hforked⟩
  | false =>
    have hbg : s'.current.2 = false := by rw [hcurrent, hj]
    have hchildren : ∀ i, i < s'.current.1 → (s'.line, i) ∈ s'.running := by
      rw [hcurrent, hline]
      exact hforked
    obtain ⟨s₂, h, hwaited⟩ :=
      @exists_waited { s' with stage := .waiting s'.current.1 } s'.current.1 rfl hchildren
    refine ⟨_, ((hrun.tail (.foreground hdone hbg)).trans h.run).tail (.waited hwaited), rfl,
      h.script.trans hscript', h.line.trans hline, ?_, by simp⟩
    intro c hc hle
    rcases h.running c (hkept c hc) with hlt | hc'
    · have heq := hlt.1
      dsimp only at heq
      omega
    · exact hc'

/-- The loop of `wait` takes a child of an earlier line, so it is over while one of its own is running. -/
theorem exists_not_joined (hstage : s.stage = .prompt) (hscript : s.script = j :: js) (hj : j.2 = false)
    (hpos : 0 < j.1) {c : Nat × Nat} (hc : c ∈ s.running) (hle : c.1 ≤ s.line) :
    ∃ s', ReflTransGen JobStep s s' ∧ s'.stage = .waiting 0 ∧ (s'.line, j.1 - 1) ∈ s'.running := by
  obtain ⟨s', hrun, hdone, -, hcurrent, hline, hkept, hforked⟩ := exists_started hstage hscript
  have hbg : s'.current.2 = false := by rw [hcurrent, hj]
  have hne : c.1 ≠ s'.line := by omega
  let s₁ : Jobs := { s' with stage := .waiting s'.current.1 }
  let s₂ : Jobs :=
    { s₁ with
      running := s₁.running.erase c
      ended := insert c s₁.ended
      pending := s₁.pending || s₁.caught }
  let s₃ : Jobs := { s₂ with ended := s₂.ended.erase c, stage := .waiting (j.1 - 1) }
  have hstep₁ : JobStep s' s₁ := .foreground hdone hbg
  have hstep₂ : JobStep s₁ s₂ := .exit (hkept c hc)
  have hstep₃ : JobStep s₂ s₃ := by
    refine .wait ?_ (Finset.mem_insert_self _ _)
    show Stage.waiting s'.current.1 = .waiting (j.1 - 1 + 1)
    rw [hcurrent, Nat.sub_add_cancel hpos]
  have hown : ∀ i, i < j.1 → (s'.line, i) ∈ s₃.running := by
    intro i hi
    refine Finset.mem_erase.mpr ⟨fun heq => hne ?_, hline ▸ hforked i hi⟩
    rw [← heq]
  obtain ⟨s₄, h, hwaited⟩ := @exists_waited s₃ (j.1 - 1) rfl fun i hi => hown i (by omega)
  refine ⟨s₄, (((hrun.tail hstep₁).tail hstep₂).tail hstep₃).trans h.run, hwaited, ?_⟩
  have hlast := h.running (s'.line, j.1 - 1) (hown _ (by omega))
  rw [h.line]
  rcases hlast with hlt | hmem
  · exact absurd hlt.2 (Nat.lt_irrefl _)
  · exact hmem

/-- From a prompt with a child of an earlier line, and a pipeline in front to come. -/
theorem exists_bad_of_running (hstage : s.stage = .prompt) (hscript : s.script = js)
    (hpos : ∀ j ∈ js, 0 < j.1) {c : Nat × Nat} (hc : c ∈ s.running) (hle : c.1 ≤ s.line)
    (hfront : ∃ j ∈ js, j.2 = false) :
    ∃ s', ReflTransGen JobStep s s' ∧ s'.stage = .waiting 0 ∧ ∃ k, (s'.line, k) ∈ s'.running := by
  induction js generalizing s with
  | nil => simp at hfront
  | cons j js ih =>
    rw [List.forall_mem_cons] at hpos
    cases hj : j.2 with
    | false =>
      obtain ⟨s', hrun, hwaited, hmem⟩ := exists_not_joined hstage hscript hj hpos.1 hc hle
      exact ⟨s', hrun, hwaited, _, hmem⟩
    | true =>
      obtain ⟨j', hj', hbg'⟩ := hfront
      have hmem : j' ∈ js := by
        rcases List.mem_cons.mp hj' with rfl | hmem
        · rw [hj] at hbg'
          cases hbg'
        · exact hmem
      obtain ⟨s₁, hrun₁, hprompt, hscript₁, hline, hkept, -⟩ := exists_prompt hstage hscript
      obtain ⟨s', hrun, hbad⟩ := ih hprompt hscript₁ hpos.2 (hkept c hc hle) (by omega) ⟨j', hmem, hbg'⟩
      exact ⟨s', hrun₁.trans hrun, hbad⟩

theorem exists_bad (hstage : s.stage = .prompt) (hscript : s.script = js) (hpos : ∀ j ∈ js, 0 < j.1)
    (hnot : ¬ BackgroundLast js) :
    ∃ s', ReflTransGen JobStep s s' ∧ s'.stage = .waiting 0 ∧ ∃ k, (s'.line, k) ∈ s'.running := by
  induction js generalizing s with
  | nil => exact absurd List.Pairwise.nil hnot
  | cons j js ih =>
    rw [List.forall_mem_cons] at hpos
    rw [BackgroundLast, List.pairwise_cons, not_and_or] at hnot
    obtain ⟨s₁, hrun₁, hprompt, hscript₁, hline, -, hforked⟩ := exists_prompt hstage hscript
    have hrest : ∃ s', ReflTransGen JobStep s₁ s' ∧ s'.stage = .waiting 0 ∧ ∃ k, (s'.line, k) ∈ s'.running := by
      rcases hnot with hfirst | hrest
      · push Not at hfirst
        obtain ⟨j', hj', hbg, hfront⟩ := hfirst
        exact exists_bad_of_running hprompt hscript₁ hpos.2 (hforked hbg 0 hpos.1) (by rw [hline])
          ⟨j', hj', by simpa using hfront⟩
      · exact ih hprompt hscript₁ hpos.2 hrest
    obtain ⟨s', hrun, hbad⟩ := hrest
    exact ⟨s', hrun₁.trans hrun, hbad⟩

theorem joins_iff (hpos : ∀ j ∈ js, 0 < j.1) : Joins js ↔ BackgroundLast js := by
  constructor
  · intro h
    by_contra hnot
    obtain ⟨s', hrun, hstage, k, hmem⟩ := @exists_bad (Jobs.start js) js rfl rfl hpos hnot
    exact h s' hrun hstage k hmem
  · intro h s hrun hstage k hmem
    rw [((JobInv.start h).run hrun).joined hstage] at hmem
    cases hmem

/-! ### The pipelines of the input -/

/-- What the loop of `wait` knows of the pipelines. -/
def jobsOf (rounds : List Round) : List Job := rounds.map fun r => (r.children.length, r.handler)

/-- The fork loop has forked a child. -/
theorem children_pos {heap : Nat → List Char} {openFile : Mode → Token → Option Nat} {contents : Nat → Nat}
    {line : List Char} {s s' : Shell} {r : Round}
    (h : shellLine heap openFile contents line s = some (r, s')) : 0 < r.children.length := by
  simp only [shellLine, Option.bind_eq_bind, Option.bind_eq_some_iff] at h
  obtain ⟨⟨n, p⟩, -, ⟨k, children⟩, hwalk, hr⟩ := h
  have hpos : 0 < children.length := by
    refine invariant_of_visitChain (I := fun r : Nat × List Child => 0 < r.2.length) ?_ ?_ hwalk
    · rintro c r₁ hvisit
      rw [← Option.some.inj hvisit]
      simp
    · rintro c r₁ r₂ - hvisit
      rw [← Option.some.inj hvisit]
      simp
  obtain ⟨rfl, -⟩ := Prod.mk.inj (Option.some.inj hr)
  split <;> exact hpos

theorem children_pos_of_mainLoop {w : World} {fuel i : Nat} {caught : Bool} {old : Option (List Char)}
    {input : List Char} {s : Shell} {rounds : List Round}
    (h : mainLoop w fuel i caught old input s = some rounds) : ∀ r ∈ rounds, 0 < r.children.length := by
  induction fuel generalizing i caught old input s rounds with
  | zero => cases h
  | succ fuel ih =>
    rw [mainLoop] at h
    cases hread : fgets (caught && w.signal i) input with
    | none =>
      rw [hread] at h
      obtain ⟨-, -, hrounds⟩ := Option.bind_eq_some_iff.mp h
      obtain rfl := Option.some.inj hrounds
      simp
    | some r =>
      rw [hread] at h
      simp only [Option.bind_eq_bind, Option.bind_eq_some_iff] at h
      obtain ⟨⟨r, s'⟩, hline, rs, hloop, hrounds⟩ := h
      obtain rfl := Option.some.inj hrounds
      exact List.forall_mem_cons.mpr ⟨children_pos hline, ih hloop⟩

/-- **A pipeline is waited for**: whatever the shell reads, and in whichever order the children end, the
loop of `wait` is over only when no child of its pipeline is running, just when no pipeline in front comes
behind one in the background. -/
theorem main_joins_iff (w : World) (input : List Char) (s : Shell) (rounds : List Round)
    (hmain : main w input s = some rounds) : Joins (jobsOf rounds) ↔ BackgroundLast (jobsOf rounds) := by
  refine joins_iff fun j hj => ?_
  obtain ⟨r, hr, rfl⟩ := List.mem_map.mp hj
  exact children_pos_of_mainLoop hmain r hr

/-- `a &` and then `b`. -/
theorem main_joins_false :
    ∃ rounds, main ⟨fun _ _ => [], fun _ _ => 0, fun _ _ _ => none, fun _ => false⟩ "a &\nb\n".toList
        freshShell = some rounds ∧ ¬ Joins (jobsOf rounds) := by
  have hjobs : (main ⟨fun _ _ => [], fun _ _ => 0, fun _ _ _ => none, fun _ => false⟩ "a &\nb\n".toList
      freshShell).map jobsOf = some [(1, true), (1, false)] := by decide
  obtain ⟨rounds, hmain, hrounds⟩ := Option.map_eq_some_iff.mp hjobs
  refine ⟨rounds, hmain, ?_⟩
  rw [main_joins_iff _ _ freshShell rounds hmain, hrounds]
  decide

end EC440.SimpleShell
