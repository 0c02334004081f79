import Mathlib.Data.List.ReduceOption
import Mathlib.Tactic.Common

/-!
# Chains in an array

An array of records that are chained by a pointer `next`, which is an index of the array, with `none` for
an element that was not assigned.  `visitChain` is the loop `while (curr) { ...; curr = curr->next; }`, where
reading an unassigned element fails.

When every element points to the one behind it (`Chained`), the loop visits all of them in order
(`visitChain_eq_foldlM`), and it succeeds only if all of them are assigned (`assigned_of_visitChain`).
`invariant_of_visitChain` is the rule for loops of which nothing is known.
-/

namespace EC440.Lib

variable {α σ : Type} {next : α → Option Nat} {visit : α → σ → Option σ} {array : List (Option α)} {n : Nat}

/-- The loop over a chain, for at most `fuel` rounds. -/
def visitChain (next : α → Option Nat) (visit : α → σ → Option σ) (array : List (Option α)) :
    Nat → Option Nat → σ → Option σ
  | _, none, s => some s
  | 0, some _, _ => none
  | fuel + 1, some i, s => do
    let a ← array[i]?.join
    visitChain next visit array fuel (next a) (← visit a s)

/-- Each element that is assigned points to the one behind it, and the last of the `n` to none. -/
structure Chained (next : α → Option Nat) (n : Nat) (array : List (Option α)) : Prop where
  length : array.length = n
  next_eq : ∀ m a, array[m]? = some (some a) → next a = if m + 1 < n then some (m + 1) else none

/-- Records that are chained in the same way as what they stand for. -/
theorem Chained.of_map {β : Type} {f : α → β} {next' : β → Option Nat}
    (h : Chained next' n (array.map (Option.map f))) (hf : ∀ a, next' (f a) = next a) :
    Chained next n array := by
  constructor
  · rw [← List.length_map (Option.map f), h.length]
  · intro m a ha
    have hget : (array.map (Option.map f))[m]? = some (some (f a)) := by
      rw [List.getElem?_map, ha]
      rfl
    rw [← hf, h.next_eq m (f a) hget]

theorem Chained.visitChain_from (h : Chained next n array) (hsome : ∀ a ∈ array, a ≠ none) (k m : Nat)
    (hm : m + k = n) (s : σ) :
    visitChain next visit array k (if m < n then some m else none) s =
      (array.drop m).reduceOption.foldlM (fun s a => visit a s) s := by
  have hlen := h.length
  induction k generalizing m s with
  | zero =>
    rw [if_neg (by omega), List.drop_of_length_le (by omega)]
    rfl
  | succ k ih =>
    have hlt : m < array.length := by omega
    obtain ⟨a, ha⟩ : ∃ a, array[m] = some a :=
      Option.ne_none_iff_exists'.mp (hsome _ (List.getElem_mem hlt))
    have hget : array[m]? = some (some a) := by rw [List.getElem?_eq_getElem hlt, ha]
    rw [if_pos (by omega), List.drop_eq_getElem_cons hlt, ha, List.reduceOption_cons_of_some, List.foldlM_cons]
    simp only [visitChain, hget, Option.join_some, Option.bind_eq_bind, Option.bind_some, h.next_eq m a hget]
    exact congrArg _ (funext fun s => ih (m + 1) (by omega) s)

/-- **All elements are visited, in order.** -/
theorem Chained.visitChain_eq_foldlM (h : Chained next n array) (hsome : ∀ a ∈ array, a ≠ none) (hn : 0 < n)
    (s : σ) :
    visitChain next visit array n (some 0) s = array.reduceOption.foldlM (fun s a => visit a s) s := by
  have hwalk := @Chained.visitChain_from _ _ _ visit _ _ h hsome n 0 (Nat.zero_add n) s
  rwa [if_pos hn, List.drop_zero] at hwalk

/-- A loop that gets to its end has met no unassigned element. -/
theorem Chained.assigned_of_visitChain (h : Chained next n array) {k m : Nat} {s s' : σ}
    (hwalk : visitChain next visit array k (some m) s = some s') :
    ∀ i, m ≤ i → i < n → ∃ a, array[i]? = some (some a) := by
  induction k generalizing m s with
  | zero => cases hwalk
  | succ k ih =>
    simp only [visitChain, Option.bind_eq_bind, Option.bind_eq_some_iff] at hwalk
    obtain ⟨a, ha, s₁, -, hwalk⟩ := hwalk
    have hget : array[m]? = some (some a) := Option.join_eq_some_iff.mp ha
    rw [h.next_eq m a hget] at hwalk
    intro i hle hlt
    by_cases heq : i = m
    · exact ⟨a, heq ▸ hget⟩
    · rw [if_pos (by omega)] at hwalk
      exact ih hwalk i (by omega) hlt

theorem Chained.forall_of_visitChain (h : Chained next n array) {k : Nat} {s s' : σ}
    (hwalk : visitChain next visit array k (some 0) s = some s') : ∀ a ∈ array, a ≠ none := by
  intro a ha
  obtain ⟨m, hm, rfl⟩ := List.getElem_of_mem ha
  obtain ⟨b, hb⟩ := h.assigned_of_visitChain hwalk m (Nat.zero_le m) (h.length ▸ hm)
  rw [List.getElem?_eq_getElem hm] at hb
  rw [Option.some.inj hb]
  exact Option.some_ne_none b

/-- What the first visit brings about and every visit keeps. -/
theorem invariant_of_visitChain {I : σ → Prop} {s s' : σ} (hfirst : ∀ a s₁, visit a s = some s₁ → I s₁)
    (hkeep : ∀ a s₁ s₂, I s₁ → visit a s₁ = some s₂ → I s₂) {k m : Nat}
    (hwalk : visitChain next visit array k (some m) s = some s') : I s' := by
  induction k generalizing m s with
  | zero => cases hwalk
  | succ k ih =>
    simp only [visitChain, Option.bind_eq_bind, Option.bind_eq_some_iff] at hwalk
    obtain ⟨a, -, s₁, hvisit, hwalk⟩ := hwalk
    have hs₁ := hfirst a s₁ hvisit
    cases hnext : next a with
    | none =>
      rw [hnext] at hwalk
      cases k <;> exact Option.some.inj hwalk ▸ hs₁
    | some m' =>
      rw [hnext] at hwalk
      exact ih (fun b s₂ h => hkeep b s₁ s₂ hs₁ h) hwalk

end EC440.Lib
