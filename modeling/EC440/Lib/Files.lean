import Mathlib.Data.Nat.Find
import Mathlib.Logic.Function.Basic
import Mathlib.Tactic.Common

/-!
# Descriptor tables

A process refers to open files by descriptors.  `Table α` says which file each descriptor refers
to; all but finitely many are closed, so there is always a lowest one to open a file at.
A table is known by its files (`Table.ext`).

`close`, `dup2` and `install`, which opens a file at a descriptor, are the calls; a call that
fails leaves the table.  `closeEach` is the loop that closes a row of descriptors.
-/

namespace EC440.Lib

/-- The files that the descriptors of a process refer to. -/
@[ext] structure Table (α : Type) where
  file : Nat → Option α
  finite : ∃ n, ∀ fd, n ≤ fd → file fd = none

namespace Table

variable {α : Type} (t : Table α)

/-- The lowest descriptor that is closed. -/
def lowest : Nat :=
  Nat.find (show ∃ fd, t.file fd = none from
    t.finite.elim fun n h => ⟨n, h n (Nat.le_refl n)⟩)

theorem file_lowest : t.file t.lowest = none := Nat.find_spec (p := fun fd => t.file fd = none) _

/-- The descriptor `fd` refers to the file `f`. -/
def install (fd : Nat) (f : α) : Table α where
  file := Function.update t.file fd (some f)
  finite := by
    obtain ⟨n, h⟩ := t.finite
    refine ⟨max n (fd + 1), fun d hd => ?_⟩
    rw [Function.update_of_ne (by omega)]
    exact h d (by omega)

/-- `close`, which fails on a descriptor that is closed. -/
def close (fd : Nat) : Table α where
  file := Function.update t.file fd none
  finite := by
    obtain ⟨n, h⟩ := t.finite
    refine ⟨n, fun d hd => ?_⟩
    by_cases hfd : d = fd
    · rw [hfd, Function.update_self]
    · rw [Function.update_of_ne hfd]
      exact h d hd

/-- `dup2`: the descriptor `new` refers to the file of `old`.  It fails when `old` is closed. -/
def dup2 (old new : Nat) : Option (Table α) := (t.file old).map (t.install new)

/-- `for (j = 0; j < m; j++) close(fds[j])`. -/
def closeEach (fds : Nat → Nat) : Nat → Table α → Table α
  | 0, t => t
  | j + 1, t => (closeEach fds j t).close (fds j)

@[simp] theorem file_install (fd d : Nat) (f : α) :
    (t.install fd f).file d = if d = fd then some f else t.file d :=
  Function.update_apply t.file fd (some f) d

@[simp] theorem file_close (fd d : Nat) :
    (t.close fd).file d = if d = fd then none else t.file d :=
  Function.update_apply t.file fd none d

theorem dup2_of_open {old : Nat} {f : α} (h : t.file old = some f) (new : Nat) :
    t.dup2 old new = some (t.install new f) := by
  rw [dup2, h, Option.map_some]

/-- A `dup2` that is made under a condition, of a descriptor that is open then. -/
theorem exists_dup2_if {P : Prop} [Decidable P] {old : Nat} {f : α} (new : Nat)
    (h : P → t.file old = some f) :
    ∃ t', (if P then t.dup2 old new else some t) = some t' ∧
      ∀ d, t'.file d = if d = new ∧ P then some f else t.file d := by
  by_cases hP : P
  · exact ⟨_, by rw [if_pos hP, t.dup2_of_open (h hP)], fun d => by simp [hP]⟩
  · exact ⟨t, if_neg hP, fun d => by simp [hP]⟩

theorem file_closeEach (fds : Nat → Nat) (m d : Nat) :
    (closeEach fds m t).file d = if ∃ j, j < m ∧ fds j = d then none else t.file d := by
  induction m with
  | zero => simp [closeEach]
  | succ m ih =>
    rw [closeEach, file_close, ih]
    by_cases hd : d = fds m
    · rw [if_pos hd, if_pos ⟨m, Nat.lt_succ_self m, hd.symm⟩]
    · have hiff : (∃ j, j < m + 1 ∧ fds j = d) ↔ ∃ j, j < m ∧ fds j = d := by
        constructor
        · rintro ⟨j, hj, hfd⟩
          have hne : j ≠ m := fun h => hd (h ▸ hfd.symm)
          exact ⟨j, by omega, hfd⟩
        · rintro ⟨j, hj, hfd⟩
          exact ⟨j, by omega, hfd⟩
      simp only [if_neg hd, hiff]

/-- A file is open after the loop just when it was and its descriptor is none of the row. -/
theorem file_closeEach_eq_some {fds : Nat → Nat} {m d : Nat} {f : α} :
    (closeEach fds m t).file d = some f ↔ t.file d = some f ∧ ∀ j, j < m → fds j ≠ d := by
  rw [file_closeEach]
  split
  · next h =>
    obtain ⟨j, hj, hfd⟩ := h
    exact iff_of_false (by simp) fun hopen => hopen.2 j hj hfd
  · next h => exact ⟨fun hopen => ⟨hopen, fun j hj hfd => h ⟨j, hj, hfd⟩⟩, And.left⟩

end Table

end EC440.Lib
