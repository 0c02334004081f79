import Mathlib.Algebra.BigOperators.Group.Finset.Sigma
import Mathlib.Logic.Function.Basic
import Mathlib.Tactic.Common

/-!
# Ownership of numbered blocks

A family of references `ref : ι → ℕ` names blocks by number, with `0` for "no
block".  It is `Owned` by a set `used` of blocks when every reference is to a
used block and no block is referred to twice.  An allocator that hands out only
unused blocks keeps this (`Owned.claim`), and so does dropping references
together with the blocks they name (`Owned.drop`).  The first slots of some owners
name as many blocks as they are (`Owned.exists_card`).
-/

namespace EC440.Lib

variable {ι : Type} {ref ref' : ι → Nat} {used used' : Nat → Prop}

/-- Every reference is to a used block, and no two are to the same one. -/
structure Owned (ref : ι → Nat) (used : Nat → Prop) : Prop where
  used_of_ne : ∀ x, ref x ≠ 0 → used (ref x)
  inj : ∀ x y, ref x ≠ 0 → ref x = ref y → x = y

theorem Owned.mono (h : Owned ref used) (hu : ∀ b, used b → used' b) : Owned ref used' :=
  ⟨fun x hx => hu _ (h.used_of_ne x hx), h.inj⟩

theorem owned_zero : Owned (fun _ : ι => 0) used :=
  ⟨fun _ h => absurd rfl h, fun _ _ h => absurd rfl h⟩

/-- Two owned references to different slots name different blocks. -/
theorem Owned.ne (h : Owned ref used) {x y : ι} (hx : ref x ≠ 0) (hxy : x ≠ y) : ref x ≠ ref y :=
  fun he => hxy (h.inj x y hx he)

/-- An unused block is nobody's. -/
theorem Owned.ne_of_unused (h : Owned ref used) {b : Nat} (hb : ¬ used b) (hb0 : b ≠ 0) (x : ι) :
    ref x ≠ b := by
  intro he
  subst he
  exact hb (h.used_of_ne x hb0)

/-- **Claiming an unused block** for one slot. -/
theorem Owned.claim [DecidableEq ι] (h : Owned ref used) {b : Nat} (hb : ¬ used b) (hb0 : b ≠ 0)
    (hu : ∀ c, used c → used' c) (hub : used' b) (x : ι) :
    Owned (Function.update ref x b) used' := by
  have hne := h.ne_of_unused hb hb0
  constructor
  · intro y hy
    by_cases hyx : y = x
    · subst hyx
      rwa [Function.update_self]
    · rw [Function.update_of_ne hyx] at hy ⊢
      exact hu _ (h.used_of_ne y hy)
  · intro y z hy hyz
    by_cases hyx : y = x
    · by_cases hzx : z = x
      · rw [hyx, hzx]
      · rw [hyx, Function.update_self, Function.update_of_ne hzx] at hyz
        exact absurd hyz.symm (hne z)
    · by_cases hzx : z = x
      · rw [hzx, Function.update_self, Function.update_of_ne hyx] at hyz
        exact absurd hyz (hne y)
      · rw [Function.update_of_ne hyx] at hy hyz
        rw [Function.update_of_ne hzx] at hyz
        exact h.inj y z hy hyz

/-- **Dropping references**, when the blocks still referred to stay used. -/
theorem Owned.drop (h : Owned ref used) (hr : ∀ x, ref' x ≠ 0 → ref' x = ref x)
    (hu : ∀ x, ref' x ≠ 0 → used' (ref x)) : Owned ref' used' := by
  constructor
  · intro x hx
    rw [hr x hx]
    exact hu x hx
  · intro x y hx hxy
    have hy : ref' y ≠ 0 := by rwa [← hxy]
    apply h.inj x y
    · rwa [← hr x hx]
    · rw [← hr x hx, ← hr y hy, hxy]

/-- **Owners with several slots**: the first `size i` slots of all owners name as many blocks as they
are. -/
theorem Owned.exists_card {κ : Type} (h : Owned ref used) (owners : Finset κ) (size : κ → Nat)
    (slot : κ → Nat → ι) (hslot : ∀ i j i' j', slot i j = slot i' j' → i = i' ∧ j = j')
    (hne : ∀ i ∈ owners, ∀ j, j < size i → ref (slot i j) ≠ 0) :
    ∃ cells : Finset Nat, cells.card = ∑ i ∈ owners, size i ∧ ∀ b ∈ cells, b ≠ 0 ∧ ∃ x, ref x = b := by
  have hne' : ∀ x ∈ owners.sigma fun i => Finset.range (size i), ref (slot x.1 x.2) ≠ 0 := by
    intro x hx
    obtain ⟨hi, hj⟩ := Finset.mem_sigma.mp hx
    exact hne x.1 hi x.2 (Finset.mem_range.mp hj)
  refine ⟨(owners.sigma fun i => Finset.range (size i)).image fun x => ref (slot x.1 x.2), ?_, ?_⟩
  · rw [Finset.card_image_of_injOn, Finset.card_sigma]
    · simp only [Finset.card_range]
    · rintro ⟨i, j⟩ hx ⟨i', j'⟩ - heq
      obtain ⟨rfl, rfl⟩ := hslot i j i' j' (h.inj _ _ (hne' _ (Finset.mem_coe.mp hx)) heq)
      rfl
  · intro b hb
    obtain ⟨x, hx, rfl⟩ := Finset.mem_image.mp hb
    exact ⟨hne' x hx, _, rfl⟩

end EC440.Lib
