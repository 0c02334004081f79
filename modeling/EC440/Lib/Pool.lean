import Mathlib.Data.Finset.Card
import Mathlib.Tactic.Common

/-!
# A pool of numbered cells

`used i` says whether cell `i` of a pool of `n` cells is taken.  `freeCells` are
the others; taking one of them lowers their number by one, and the first-fit
search `(List.range n).find?` fails only when there are none.  `freeList` are the same
cells in order: first fit takes the head of it and leaves the tail (`freeList_take`).
Used cells that are as many as those that are not free are all of them (`mem_of_card_freeCells`).
-/

namespace EC440.Lib

/-- The free cells of a pool of `n`. -/
def freeCells (used : Nat → Bool) (n : Nat) : Finset Nat :=
  (Finset.range n).filter (fun i => used i = false)

theorem mem_freeCells {used : Nat → Bool} {n i : Nat} :
    i ∈ freeCells used n ↔ i < n ∧ used i = false := by
  rw [freeCells, Finset.mem_filter, Finset.mem_range]

/-- **Taking a free cell** leaves one free cell fewer. -/
theorem card_freeCells_take {used used' : Nat → Bool} {n b : Nat} (hb : b < n)
    (hfree : used b = false) (htake : used' b = true)
    (hother : ∀ i, i ≠ b → used' i = used i) :
    (freeCells used' n).card + 1 = (freeCells used n).card := by
  have he : freeCells used' n = (freeCells used n).erase b := by
    ext i
    rw [Finset.mem_erase, mem_freeCells, mem_freeCells]
    by_cases hi : i = b
    · subst hi
      simp [htake]
    · rw [hother i hi]
      exact ⟨fun h => ⟨hi, h⟩, fun h => h.2⟩
  rw [he, Finset.card_erase_add_one]
  exact mem_freeCells.mpr ⟨hb, hfree⟩

/-- **No cell is lost**: cells that are used and as many as are not free are all the used ones. -/
theorem mem_of_card_freeCells {used : Nat → Bool} {n b : Nat} {cells : Finset Nat}
    (hcells : ∀ c ∈ cells, c < n ∧ used c = true) (hcard : n ≤ (freeCells used n).card + cells.card)
    (hb : b < n) (hused : used b = true) : b ∈ cells := by
  have hdisjoint : Disjoint (freeCells used n) cells := by
    refine Finset.disjoint_left.mpr fun c hfree hc => ?_
    have hclear := (mem_freeCells.mp hfree).2
    rw [(hcells c hc).2] at hclear
    cases hclear
  have hall : freeCells used n ∪ cells = Finset.range n := by
    refine Finset.eq_of_subset_of_card_le ?_ ?_
    · intro c hc
      rcases Finset.mem_union.mp hc with hfree | hc
      · exact Finset.mem_range.mpr (mem_freeCells.mp hfree).1
      · exact Finset.mem_range.mpr (hcells c hc).1
    · rwa [Finset.card_range, Finset.card_union_of_disjoint hdisjoint]
  rcases Finset.mem_union.mp (hall ▸ Finset.mem_range.mpr hb) with hfree | hc
  · have hclear := (mem_freeCells.mp hfree).2
    rw [hused] at hclear
    cases hclear
  · exact hc

/-- A pool with a free cell has a first one. -/
theorem exists_find_free {used : Nat → Bool} {n : Nat} (h : 0 < (freeCells used n).card) :
    ∃ b, (List.range n).find? (fun i => !used i) = some b := by
  obtain ⟨b, hb⟩ := Finset.card_pos.mp h
  rw [mem_freeCells] at hb
  cases hf : (List.range n).find? (fun i => !used i) with
  | some c => exact ⟨c, rfl⟩
  | none =>
    rw [List.find?_range_eq_none] at hf
    have := hf b hb.1
    rw [hb.2] at this
    exact absurd this (by decide)

/-! ### First fit -/

/-- The free cells of a pool of `n` in increasing order. -/
def freeList (used : Nat → Bool) (n : Nat) : List Nat := (List.range n).filter fun i => !used i

theorem mem_freeList {used : Nat → Bool} {n i : Nat} :
    i ∈ freeList used n ↔ i < n ∧ used i = false := by
  simp [freeList]

theorem pairwise_freeList (used : Nat → Bool) (n : Nat) : (freeList used n).Pairwise (· < ·) :=
  List.pairwise_lt_range.filter _

theorem find_free_eq_head? (used : Nat → Bool) (n : Nat) :
    (List.range n).find? (fun i => !used i) = (freeList used n).head? := by
  rw [freeList, List.head?_filter]

/-- **Taking the first free cell** leaves the others. -/
theorem freeList_take {used used' : Nat → Bool} {n b : Nat} {bs : List Nat}
    (hlist : freeList used n = b :: bs) (htake : used' b = true)
    (hother : ∀ i, i ≠ b → used' i = used i) : freeList used' n = bs := by
  have hafter : freeList used' n = (freeList used n).filter fun i => i ≠ b := by
    rw [freeList, freeList, List.filter_filter]
    refine List.filter_congr fun i _ => ?_
    by_cases hi : i = b
    · simp [hi, htake]
    · simp [hi, hother i hi]
  have hsorted := pairwise_freeList used n
  rw [hlist, List.pairwise_cons] at hsorted
  rw [hafter, hlist, List.filter_cons_of_neg (by simp)]
  refine List.filter_eq_self.mpr fun i hi => ?_
  simpa using (hsorted.1 i hi).ne'

end EC440.Lib
