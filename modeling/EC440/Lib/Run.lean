import Mathlib.Tactic.Common

/-!
# Runs of a program with calls

A program is a function `call` from a state and a request to a reply and a new
state.  `run` answers a list of requests in order, and `RunOk ok s cs` says that
each request of the run from `s` meets `ok` in the state it is made in.  Every
state on the way is the end of the run of a prefix, so `run_invariant` covers
them all.

`replies` is what the requests were answered.  A relation between the states of two
programs that their calls keep, with the same replies, makes them indistinguishable
(`replies_eq_of_simulation`).
-/

namespace EC440.Lib

variable {σ ι ρ : Type}

/-- The state after the requests `cs`, made in order. -/
def run (call : σ → ι → ρ × σ) (s : σ) : List ι → σ
  | [] => s
  | c :: cs => run call (call s c).2 cs

/-- Each request meets `ok` in the state it is made in. -/
def RunOk (call : σ → ι → ρ × σ) (ok : σ → ι → Prop) (s : σ) : List ι → Prop
  | [] => True
  | c :: cs => ok s c ∧ RunOk call ok (call s c).2 cs

/-- The replies to the requests `cs`, in order. -/
def replies (call : σ → ι → ρ × σ) (s : σ) : List ι → List ρ
  | [] => []
  | c :: cs => (call s c).1 :: replies call (call s c).2 cs

/-- What `f` gives for the requests `cs`, in order, where it gives anything. -/
def yields {α : Type} (call : σ → ι → ρ × σ) (f : σ → ι → Option α) (s : σ) : List ι → List α
  | [] => []
  | c :: cs => (f s c).toList ++ yields call f (call s c).2 cs

variable {call : σ → ι → ρ × σ} {ok : σ → ι → Prop}

instance decidableRunOk [∀ s c, Decidable (ok s c)] :
    (s : σ) → (cs : List ι) → Decidable (RunOk call ok s cs)
  | _, [] => inferInstanceAs (Decidable True)
  | s, c :: cs =>
    have : Decidable (RunOk call ok (call s c).2 cs) := decidableRunOk _ cs
    inferInstanceAs (Decidable (ok s c ∧ RunOk call ok (call s c).2 cs))

theorem run_append (s : σ) (cs cs' : List ι) :
    run call s (cs ++ cs') = run call (run call s cs) cs' := by
  induction cs generalizing s with
  | nil => rfl
  | cons c cs ih => exact ih (call s c).2

theorem runOk_append (s : σ) (cs cs' : List ι) :
    RunOk call ok s (cs ++ cs') ↔ RunOk call ok s cs ∧ RunOk call ok (run call s cs) cs' := by
  induction cs generalizing s with
  | nil => simp [RunOk, run]
  | cons c cs ih =>
    simp only [List.cons_append, RunOk, run, and_assoc]
    exact and_congr_right' (ih (call s c).2)

/-- **What every call keeps, every run keeps.** -/
theorem run_invariant {I : σ → Prop} (hstep : ∀ s c, I s → ok s c → I (call s c).2) :
    ∀ (cs : List ι) (s : σ), I s → RunOk call ok s cs → I (run call s cs) := by
  intro cs
  induction cs with
  | nil => intro s hI _; exact hI
  | cons c cs ih => intro s hI h; exact ih _ (hstep s c hI h.1) h.2

theorem runOk_of_forall_mem {cs : List ι} (h : ∀ c ∈ cs, ∀ s, ok s c) (s : σ) : RunOk call ok s cs := by
  induction cs generalizing s with
  | nil => trivial
  | cons c cs ih =>
    exact ⟨h c List.mem_cons_self s, ih (fun d hd => h d (List.mem_cons_of_mem c hd)) _⟩

theorem RunOk.and {ok' : σ → ι → Prop} : ∀ (cs : List ι) (s : σ), RunOk call ok s cs →
    RunOk call ok' s cs → RunOk call (fun s c => ok s c ∧ ok' s c) s cs := by
  intro cs
  induction cs with
  | nil => intro s _ _; trivial
  | cons c cs ih => intro s h h'; exact ⟨⟨h.1, h'.1⟩, ih _ h.2 h'.2⟩

/-- A condition that follows from another in the states that a run can reach. -/
theorem RunOk.imp {ok' : σ → ι → Prop} {I : σ → Prop} (himp : ∀ s c, I s → ok s c → ok' s c)
    (hstep : ∀ s c, I s → ok s c → I (call s c).2) :
    ∀ (cs : List ι) (s : σ), I s → RunOk call ok s cs → RunOk call ok' s cs := by
  intro cs
  induction cs with
  | nil => intro s _ _; trivial
  | cons c cs ih => intro s hI h; exact ⟨himp s c hI h.1, ih _ (hstep s c hI h.1) h.2⟩

/-- **A relation that every call keeps**, with the same reply on both sides. -/
theorem replies_eq_of_simulation {τ : Type} {spec : τ → ι → ρ × τ} {R : σ → τ → Prop}
    (hstep : ∀ s t c, R s t → ok s c →
      (call s c).1 = (spec t c).1 ∧ R (call s c).2 (spec t c).2) :
    ∀ (cs : List ι) (s : σ) (t : τ), R s t → RunOk call ok s cs →
      replies call s cs = replies spec t cs ∧ R (run call s cs) (run spec t cs) := by
  intro cs
  induction cs with
  | nil => intro s t hR _; exact ⟨rfl, hR⟩
  | cons c cs ih =>
    intro s t hR h
    obtain ⟨hreply, hR'⟩ := hstep s t c hR h.1
    obtain ⟨hrest, hend⟩ := ih _ _ hR' h.2
    exact ⟨by rw [replies, replies, hreply, hrest], hend⟩

/-- **A relation that every call keeps**, when the other program is given what `label` makes of
each request in the state it is made in. -/
theorem replies_eq_of_labelled {τ κ : Type} {spec : τ → κ → ρ × τ} {label : σ → ι → κ}
    {R : σ → τ → Prop}
    (hstep : ∀ s t c, R s t → ok s c → (call s c).1 = (spec t (label s c)).1 ∧
      R (call s c).2 (spec t (label s c)).2) :
    ∀ (cs : List ι) (s : σ) (t : τ), R s t → RunOk call ok s cs →
      replies call s cs = replies spec t (yields call (fun s c => some (label s c)) s cs) ∧
        R (run call s cs) (run spec t (yields call (fun s c => some (label s c)) s cs)) := by
  intro cs
  induction cs with
  | nil => intro s t hR _; exact ⟨rfl, hR⟩
  | cons c cs ih =>
    intro s t hR h
    obtain ⟨hreply, hR'⟩ := hstep s t c hR h.1
    obtain ⟨hrest, hend⟩ := ih _ _ hR' h.2
    refine ⟨?_, hend⟩
    rw [replies, hreply, hrest]
    rfl

end EC440.Lib
