import Mathlib.Algebra.BigOperators.Group.Finset.Basic
import Mathlib.Algebra.Order.BigOperators.Group.Finset
import Mathlib.Data.Fintype.Basic
import Mathlib.Algebra.Order.Ring.Nat
import Mathlib.Tactic.Common

/-!
# Reference counts

Owners `ι` hold lists of cells, and `refs own c` is the number of places, over all
owners, that hold the cell `c`.  `refs_update` says how the number changes when one
owner's list does; a cell that two owners hold has two references (`two_le_refs`).
-/

namespace EC440.Lib

variable {ι κ : Type} [Fintype ι] [DecidableEq κ]

/-- The number of places that hold `c`. -/
def refs (own : ι → List κ) (c : κ) : Nat := ∑ i, (own i).count c

variable {own : ι → List κ} {c d : κ} {i j : ι}

theorem refs_eq_zero (h : ∀ i, c ∉ own i) : refs own c = 0 := by
  apply Finset.sum_eq_zero
  intro i _
  exact List.count_eq_zero.mpr (h i)

theorem count_le_refs (own : ι → List κ) (c : κ) (i : ι) : (own i).count c ≤ refs own c :=
  Finset.single_le_sum (f := fun i => (own i).count c) (fun _ _ => Nat.zero_le _)
    (Finset.mem_univ i)

theorem one_le_refs (h : c ∈ own i) : 1 ≤ refs own c :=
  le_trans (List.count_pos_iff.mpr h) (count_le_refs own c i)

/-- A reference is somebody's. -/
theorem exists_mem_of_refs (h : refs own c ≠ 0) : ∃ i, c ∈ own i := by
  by_contra hno
  push Not at hno
  exact h (refs_eq_zero hno)

variable [DecidableEq ι]

/-- **One owner's list changes.** -/
theorem refs_update (own : ι → List κ) (i : ι) (l : List κ) (c : κ) :
    refs (Function.update own i l) c + (own i).count c = refs own c + l.count c := by
  have hrest : ∀ f : ι → List κ, refs f c =
      (f i).count c + ∑ k ∈ Finset.univ.erase i, (f k).count c := by
    intro f
    exact (Finset.add_sum_erase _ (fun k => (f k).count c) (Finset.mem_univ i)).symm
  have hsame : ∑ k ∈ Finset.univ.erase i, (Function.update own i l k).count c =
      ∑ k ∈ Finset.univ.erase i, (own k).count c := by
    apply Finset.sum_congr rfl
    intro k hk
    rw [Function.update_of_ne (Finset.ne_of_mem_erase hk)]
  rw [hrest, hrest own, hsame, Function.update_self]
  omega

/-- An owner that held nothing gets a list. -/
theorem refs_update_of_nil (h : own i = []) (l : List κ) (c : κ) :
    refs (Function.update own i l) c = refs own c + l.count c := by
  have := refs_update own i l c
  rw [h, List.count_nil] at this
  omega

/-- One place of one owner moves from one cell to another. -/
theorem refs_update_set {n : Nat} (hn : (own i)[n]? = some c) (hcd : c ≠ d) (x : κ) :
    refs (Function.update own i ((own i).set n d)) x =
      if x = d then refs own d + 1 else if x = c then refs own c - 1 else refs own x := by
  obtain ⟨hlt, hget⟩ := List.getElem?_eq_some_iff.mp hn
  have hu := refs_update own i ((own i).set n d) x
  rw [List.count_set hlt, hget] at hu
  have hc : 1 ≤ (own i).count c := List.count_pos_iff.mpr (List.mem_of_getElem? hn)
  have hle := count_le_refs own x i
  by_cases hxd : x = d
  · subst hxd
    simp only [beq_iff_eq, hcd, if_false, if_true] at hu ⊢
    omega
  · by_cases hxc : x = c
    · subst hxc
      simp only [beq_iff_eq, if_true, Ne.symm hxd, hxd, if_false] at hu ⊢
      omega
    · simp only [beq_iff_eq, Ne.symm hxc, Ne.symm hxd, hxc, hxd, if_false] at hu ⊢
      omega

/-- Two owners of a cell are two references. -/
theorem two_le_refs (hij : i ≠ j) (hi : c ∈ own i) (hj : c ∈ own j) : 2 ≤ refs own c := by
  have hu := refs_update own i [] c
  have hpos : 1 ≤ refs (Function.update own i []) c := by
    apply one_le_refs (i := j)
    rwa [Function.update_of_ne (Ne.symm hij)]
  have hci : 1 ≤ (own i).count c := List.count_pos_iff.mpr hi
  rw [List.count_nil] at hu
  omega

end EC440.Lib
