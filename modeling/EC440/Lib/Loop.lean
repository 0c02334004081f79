import Mathlib.Tactic.Common

/-!
# Loops that may return early

A C loop is a condition and a body on the loop variables `σ`; the body either
goes on with new variables or leaves the function, with what it leaves behind in
`ε`.  `loop` runs such a loop for at most `n` rounds.

`Ensures r P E` says what a piece of code establishes: `P` of the variables when
it falls through and `E` of what an early return leaves.  `loop_rule` is the
rule for loops: an invariant, a measure that every round lowers, and what an
early return establishes.  The measure starts at most `n` and is positive while
the loop goes on, so the bound on the rounds is never what ends it.
-/

namespace EC440.Lib

variable {σ ε : Type}

/-- `while (cond s) s = body s`, for at most `n` rounds. -/
def loop (cond : σ → Bool) (body : σ → Except ε σ) : Nat → σ → Except ε σ
  | 0, s => .ok s
  | n + 1, s =>
      if cond s then
        match body s with
        | .ok s' => loop cond body n s'
        | .error e => .error e
      else .ok s

/-- `P` holds of the result, or `E` of what an early return leaves. -/
def Ensures (r : Except ε σ) (P : σ → Prop) (E : ε → Prop) : Prop :=
  match r with
  | .ok s => P s
  | .error e => E e

@[simp] theorem ensures_ok (s : σ) (P : σ → Prop) (E : ε → Prop) :
    Ensures (.ok s) P E ↔ P s := Iff.rfl

@[simp] theorem ensures_error (e : ε) (P : σ → Prop) (E : ε → Prop) :
    Ensures (.error e : Except ε σ) P E ↔ E e := Iff.rfl

theorem Ensures.mono {r : Except ε σ} {P P' : σ → Prop} {E E' : ε → Prop}
    (h : Ensures r P E) (hP : ∀ s, P s → P' s) (hE : ∀ e, E e → E' e) : Ensures r P' E' := by
  cases r with
  | ok s => exact hP s h
  | error e => exact hE e h

theorem Ensures.and {r : Except ε σ} {P P' : σ → Prop} {E E' : ε → Prop} (h : Ensures r P E)
    (h' : Ensures r P' E') : Ensures r (fun s => P s ∧ P' s) (fun e => E e ∧ E' e) := by
  cases r with
  | ok s => exact ⟨h, h'⟩
  | error e => exact ⟨h, h'⟩

theorem Ensures.of_ok {r : Except ε σ} {P : σ → Prop} {E : ε → Prop} (h : Ensures r P E)
    {s : σ} (hr : r = .ok s) : P s := by
  subst hr
  exact h

theorem Ensures.of_error {r : Except ε σ} {P : σ → Prop} {E : ε → Prop} (h : Ensures r P E)
    {e : ε} (hr : r = .error e) : E e := by
  subst hr
  exact h

/-- A loop whose condition fails makes no round. -/
theorem loop_of_false {cond : σ → Bool} {body : σ → Except ε σ} {s : σ} (h : cond s = false)
    (n : Nat) : loop cond body n s = .ok s := by
  cases n with
  | zero => rfl
  | succ n =>
    rw [loop, h]
    rfl

/-- **The rule for loops.**  `I` is the invariant, `μ` the measure. -/
theorem loop_rule (cond : σ → Bool) (body : σ → Except ε σ) (I : σ → Prop) (E : ε → Prop)
    (μ : σ → Nat) (hpos : ∀ s, I s → cond s = true → 0 < μ s)
    (hbody : ∀ s, I s → cond s = true → Ensures (body s) (fun s' => I s' ∧ μ s' < μ s) E) :
    ∀ (n : Nat) (s : σ), I s → μ s ≤ n →
      Ensures (loop cond body n s) (fun s' => I s' ∧ cond s' = false) E := by
  intro n
  induction n with
  | zero =>
    intro s hI hμ
    refine ⟨hI, ?_⟩
    by_contra hc
    have := hpos s hI (by simpa using hc)
    omega
  | succ n ih =>
    intro s hI hμ
    rw [loop]
    by_cases hc : cond s = true
    · rw [if_pos hc]
      have hb := hbody s hI hc
      cases hr : body s with
      | ok s' =>
        rw [hr] at hb
        exact ih s' hb.1 (by have := hb.2; omega)
      | error e =>
        rw [hr] at hb
        exact hb
    · rw [if_neg hc]
      exact ⟨hI, by simpa using hc⟩

end EC440.Lib
