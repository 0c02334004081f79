import Mathlib.Tactic.Common

/-!
# Taking turns

The members of a queue take turns: the first one that is ready is served, those behind it come next, and
those that were passed over go to the end (`firstTurn`).  This depends on nothing but who is ready
(`firstTurn_map`), and members that are never ready may be left out (`firstTurn_filter`).
-/

namespace EC440.Lib

variable {α β : Type} {ready : α → Bool} {l A B r : List α} {x : α}

/-- Who is served, and the queue behind it. -/
def firstTurn (ready : α → Bool) (l : List α) : Option (α × List α) :=
  match l.dropWhile fun x => !ready x with
  | [] => none
  | x :: B => some (x, B ++ l.takeWhile fun x => !ready x)

theorem firstTurn_of_forall (h : ∀ x ∈ l, ready x = false) : firstTurn ready l = none := by
  have hskip : ∀ x ∈ l, (!ready x) = true := fun x hx => by simp [h x hx]
  have hdrop := @List.dropWhile_append_of_pos _ (fun x => !ready x) l [] hskip
  rw [List.append_nil] at hdrop
  rw [firstTurn, hdrop]
  rfl

theorem firstTurn_append_cons (hA : ∀ y ∈ A, ready y = false) (hx : ready x = true) :
    firstTurn ready (A ++ x :: B) = some (x, B ++ A) := by
  have hskip : ∀ y ∈ A, (!ready y) = true := fun y hy => by simp [hA y hy]
  have hstop : (!ready x) = false := by simp [hx]
  rw [firstTurn, List.dropWhile_append_of_pos hskip, List.takeWhile_append_of_pos hskip]
  simp [hstop]

/-- Either nobody is ready, or somebody is the first. -/
theorem forall_or_exists_first (ready : α → Bool) (l : List α) :
    (∀ x ∈ l, ready x = false) ∨
      ∃ A x B, l = A ++ x :: B ∧ (∀ y ∈ A, ready y = false) ∧ ready x = true := by
  cases hfind : l.find? ready with
  | none =>
    rw [List.find?_eq_none] at hfind
    exact .inl fun x hx => by simpa using hfind x hx
  | some x =>
    obtain ⟨hx, A, B, hl, hA⟩ := List.find?_eq_some_iff_append.mp hfind
    exact .inr ⟨A, x, B, hl, fun y hy => by simpa using hA y hy, hx⟩

theorem firstTurn_eq_some_iff :
    firstTurn ready l = some (x, r) ↔
      ∃ A B, l = A ++ x :: B ∧ (∀ y ∈ A, ready y = false) ∧ ready x = true ∧ r = B ++ A := by
  constructor
  · intro h
    rcases forall_or_exists_first ready l with hnone | ⟨A, y, B, rfl, hA, hy⟩
    · rw [firstTurn_of_forall hnone] at h
      cases h
    · rw [firstTurn_append_cons hA hy] at h
      obtain ⟨rfl, rfl⟩ := Prod.mk.inj (Option.some.inj h)
      exact ⟨A, B, rfl, hA, hy, rfl⟩
  · rintro ⟨A, B, rfl, hA, hx, rfl⟩
    exact firstTurn_append_cons hA hx

theorem mem_of_firstTurn (h : firstTurn ready l = some (x, r)) : ∀ y, y ∈ l ↔ y = x ∨ y ∈ r := by
  obtain ⟨A, B, rfl, -, -, rfl⟩ := firstTurn_eq_some_iff.mp h
  intro y
  simp only [List.mem_append, List.mem_cons]
  tauto

/-- Only who is ready matters. -/
theorem firstTurn_map {ready' : β → Bool} {f : α → β} (h : ∀ x ∈ l, ready' (f x) = ready x) :
    firstTurn ready' (l.map f) = (firstTurn ready l).map fun r => (f r.1, r.2.map f) := by
  rcases forall_or_exists_first ready l with hnone | ⟨A, x, B, rfl, hA, hx⟩
  · rw [firstTurn_of_forall hnone, firstTurn_of_forall, Option.map_none]
    intro y hy
    obtain ⟨x, hx, rfl⟩ := List.mem_map.mp hy
    rw [h x hx, hnone x hx]
  · rw [firstTurn_append_cons hA hx, List.map_append, List.map_cons, firstTurn_append_cons]
    · simp
    · intro y hy
      obtain ⟨z, hz, rfl⟩ := List.mem_map.mp hy
      rw [h z (by simp [hz]), hA z hz]
    · rw [h x (by simp), hx]

/-- Members that are not ready may be left out. -/
theorem firstTurn_filter {keep : α → Bool} (h : ∀ x ∈ l, ready x = true → keep x = true) :
    firstTurn ready (l.filter keep) = (firstTurn ready l).map fun r => (r.1, r.2.filter keep) := by
  rcases forall_or_exists_first ready l with hnone | ⟨A, x, B, rfl, hA, hx⟩
  · rw [firstTurn_of_forall hnone, firstTurn_of_forall, Option.map_none]
    exact fun x hx => hnone x (List.mem_filter.mp hx).1
  · have hkeep : keep x = true := h x (by simp) hx
    rw [firstTurn_append_cons hA hx, List.filter_append, List.filter_cons_of_pos hkeep, firstTurn_append_cons]
    · simp
    · exact fun y hy => hA y (List.mem_filter.mp hy).1
    · exact hx

end EC440.Lib
