import Mathlib.Tactic.Common

/-!
# Histories

A history is the list of the events of a run, the latest last.

* `Along Q h` says that each event of `h` meets `Q` with the events before it.
* `Pending q stop h` says that `q` is in `h` and no later event is a `stop`.
* `Since q stop h R` says that `q` is in `h`, that no later event is a `stop`, and that
  `R` holds of what is before it and after it.
-/

namespace EC440.Lib

variable {α : Type}

def Along (Q : List α → α → Prop) (h : List α) : Prop := ∀ P e rest, h = P ++ e :: rest → Q P e

def Since (q : α) (stop : α → Prop) (h : List α) (R : List α → List α → Prop) : Prop :=
  ∃ P₁ P₂, h = P₁ ++ q :: P₂ ∧ (∀ e ∈ P₂, ¬ stop e) ∧ R P₁ P₂

def Pending (q : α) (stop : α → Prop) (h : List α) : Prop :=
  ∃ P₁ P₂, h = P₁ ++ q :: P₂ ∧ ∀ e ∈ P₂, ¬ stop e

variable {Q : List α → α → Prop} {q e : α} {stop : α → Prop} {h es : List α}
  {R R' : List α → List α → Prop}

theorem along_nil : Along Q [] := by
  intro P e rest h
  simp at h

/-- **One more event.** -/
theorem along_append_singleton : Along Q (h ++ [e]) ↔ Along Q h ∧ Q h e := by
  constructor
  · intro hQ
    exact ⟨fun P e' rest heq => hQ P e' (rest ++ [e]) (by rw [heq]; simp), hQ h e [] rfl⟩
  · rintro ⟨hQ, he⟩ P e' rest heq
    rcases List.eq_nil_or_concat rest with rfl | ⟨rest', d, rfl⟩
    · -- the event is the new one
      obtain ⟨rfl, hd⟩ := List.append_inj' heq rfl
      obtain rfl : e = e' := by simpa using hd
      exact he
    · have heq' : h ++ [e] = (P ++ e' :: rest') ++ [d] := by simpa using heq
      obtain ⟨rfl, -⟩ := List.append_inj' heq' rfl
      exact hQ P e' rest' rfl

/-- More events that meet `Q` whatever is before them. -/
theorem Along.append (hQ : Along Q h) (hes : ∀ e ∈ es, ∀ P, Q P e) : Along Q (h ++ es) := by
  induction es generalizing h with
  | nil => simpa using hQ
  | cons e es ih =>
    have hh : Along Q (h ++ [e]) := along_append_singleton.mpr ⟨hQ, hes e List.mem_cons_self h⟩
    have hrest := ih hh fun e' he' => hes e' (List.mem_cons_of_mem e he')
    simpa using hrest

theorem along_append_cons : Along Q (h ++ e :: es) ↔ Along Q ((h ++ [e]) ++ es) := by
  rw [List.append_assoc, List.singleton_append]

/-- Events that are no `stop` keep it pending. -/
theorem Since.append (hs : Since q stop h R) (hes : ∀ e ∈ es, ¬ stop e)
    (hR : ∀ P₁ P₂, R P₁ P₂ → R' P₁ (P₂ ++ es)) : Since q stop (h ++ es) R' := by
  obtain ⟨P₁, P₂, rfl, hstop, hP⟩ := hs
  refine ⟨P₁, P₂ ++ es, by simp, ?_, hR P₁ P₂ hP⟩
  intro e he
  rcases List.mem_append.mp he with he | he
  · exact hstop e he
  · exact hes e he

theorem not_pending_nil : ¬ Pending q stop [] := by
  rintro ⟨P₁, P₂, h, -⟩
  simp at h

theorem pending_append_singleton :
    Pending q stop (h ++ [e]) ↔ e = q ∨ Pending q stop h ∧ ¬ stop e := by
  constructor
  · rintro ⟨P₁, P₂, heq, hstop⟩
    rcases List.eq_nil_or_concat P₂ with rfl | ⟨P₂', d, rfl⟩
    · obtain ⟨-, hd⟩ := List.append_inj' heq rfl
      exact .inl (by simpa using hd)
    · have heq' : h ++ [e] = (P₁ ++ q :: P₂') ++ [d] := by simpa using heq
      obtain ⟨rfl, hd⟩ := List.append_inj' heq' rfl
      obtain rfl : e = d := by simpa using hd
      rw [List.concat_eq_append] at hstop
      refine .inr ⟨⟨P₁, P₂', rfl, ?_⟩, hstop e (by simp)⟩
      intro e' he'
      exact hstop e' (List.mem_append_left _ he')
  · rintro (rfl | ⟨⟨P₁, P₂, rfl, hstop⟩, he⟩)
    · exact ⟨h, [], rfl, by simp⟩
    · refine ⟨P₁, P₂ ++ [e], by simp, ?_⟩
      intro e' he'
      rcases List.mem_append.mp he' with he' | he'
      · exact hstop e' he'
      · rw [List.mem_singleton.mp he']
        exact he

/-- The last event of a kind is at one place. -/
theorem last_unique (stop : α → Prop) {q q' : α} {P₁ P₂ P₁' P₂' : List α}
    (h : P₁ ++ q :: P₂ = P₁' ++ q' :: P₂') (hq : stop q) (hq' : stop q')
    (hP₂ : ∀ e ∈ P₂, ¬ stop e) (hP₂' : ∀ e ∈ P₂', ¬ stop e) : P₁ = P₁' ∧ q = q' ∧ P₂ = P₂' := by
  rcases List.append_eq_append_iff.mp h with ⟨A, hA, hA'⟩ | ⟨A, hA, hA'⟩
  · cases A with
    | nil =>
      rw [List.nil_append, List.cons.injEq] at hA'
      exact ⟨by rw [hA, List.append_nil], hA'.1, hA'.2⟩
    | cons a A =>
      rw [List.cons_append, List.cons.injEq] at hA'
      exact absurd hq' (hP₂ q' (by rw [hA'.2]; simp))
  · cases A with
    | nil =>
      rw [List.nil_append, List.cons.injEq] at hA'
      exact ⟨by rw [hA, List.append_nil], hA'.1.symm, hA'.2.symm⟩
    | cons a A =>
      rw [List.cons_append, List.cons.injEq] at hA'
      exact absurd hq (hP₂' q (by rw [hA'.2]; simp))

end EC440.Lib
