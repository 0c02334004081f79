import Mathlib.Data.Fin.Basic
import Mathlib.Tactic.Common

/-!
# C arrays of a fixed length

`Arr n α` is an array of `n` elements, addressed by natural numbers: `get` past
the end gives the default element and `set` past the end stores nothing.  Two
arrays are equal when they agree on `0, …, n - 1` (`Arr.ext_get`), so an
equation between arrays is an equation between everything the program can see
of them.

`blit` is `memcpy` into an array, and `blitAll` is the loop that lays `count`
records of `size` elements end to end.  `get_blitAll` reads such an array back
by quotient and remainder.
-/

namespace EC440.Lib

/-- An array of `n` elements. -/
def Arr (n : Nat) (α : Type) : Type := Fin n → α

namespace Arr

variable {n : Nat} {α : Type}

def get [Inhabited α] (a : Arr n α) (i : Nat) : α :=
  if h : i < n then a ⟨i, h⟩ else default

def set (a : Arr n α) (i : Nat) (x : α) : Arr n α :=
  fun k => if k.val = i then x else a k

/-- The array with `f i` at index `i`. -/
def ofFn (f : Nat → α) : Arr n α := fun k => f k.val

/-- The array with `x` everywhere, as `calloc` or a static initialiser leaves it. -/
def fill (x : α) : Arr n α := fun _ => x

/-- `memcpy (a + off) src len`. -/
def blit (a : Arr n α) (off : Nat) (src : Nat → α) (len : Nat) : Arr n α :=
  fun k => if off ≤ k.val ∧ k.val < off + len then src (k.val - off) else a k

/-- `for (i = 0; i < count; ++i) memcpy (a + i * size) (src i) size`. -/
def blitAll (a : Arr n α) (size : Nat) (src : Nat → Nat → α) : Nat → Arr n α
  | 0 => a
  | c + 1 => (blitAll a size src c).blit (c * size) (src c) size

variable [Inhabited α]

theorem get_of_lt (a : Arr n α) {i : Nat} (h : i < n) : a.get i = a ⟨i, h⟩ := by
  rw [get, dif_pos h]

theorem get_of_ge (a : Arr n α) {i : Nat} (h : n ≤ i) : a.get i = default := by
  rw [get, dif_neg (by omega)]

theorem ext_get {a b : Arr n α} (h : ∀ i, i < n → a.get i = b.get i) : a = b := by
  funext k
  have hk := h k.val k.isLt
  rwa [get_of_lt _ k.isLt, get_of_lt _ k.isLt] at hk

theorem get_set (a : Arr n α) (i j : Nat) (x : α) :
    (a.set i x).get j = if j = i ∧ i < n then x else a.get j := by
  by_cases hj : j < n
  · rw [get_of_lt _ hj, get_of_lt _ hj, set]
    by_cases hji : j = i
    · subst hji
      rw [if_pos rfl, if_pos ⟨rfl, hj⟩]
    · rw [if_neg hji, if_neg (fun h => hji h.1)]
  · rw [get_of_ge _ (by omega), get_of_ge _ (by omega), if_neg (by omega)]

theorem get_set_cases (a : Arr n α) (i j : Nat) (x : α) :
    (a.set i x).get j = x ∧ j = i ∨ (a.set i x).get j = a.get j := by
  rw [get_set]
  split
  · rename_i h
    exact Or.inl ⟨rfl, h.1⟩
  · exact Or.inr rfl

theorem get_set_self (a : Arr n α) {i : Nat} (h : i < n) (x : α) : (a.set i x).get i = x := by
  rw [get_set, if_pos ⟨rfl, h⟩]

theorem get_set_ne (a : Arr n α) {i j : Nat} (h : j ≠ i) (x : α) :
    (a.set i x).get j = a.get j := by
  rw [get_set, if_neg (fun hc => h hc.1)]

theorem set_set (a : Arr n α) (i : Nat) (x y : α) : (a.set i x).set i y = a.set i y := by
  apply ext_get
  intro j _
  rw [get_set, get_set, get_set]
  split
  · rfl
  · rfl

theorem set_comm (a : Arr n α) {i j : Nat} (h : i ≠ j) (x y : α) :
    (a.set i x).set j y = (a.set j y).set i x := by
  apply ext_get
  intro k _
  rw [get_set, get_set, get_set, get_set]
  split
  · rename_i hj
    rw [if_neg (fun hi => h (hi.1.symm.trans hj.1))]
  · rfl

/-- Storing what is there already changes nothing. -/
theorem set_get (a : Arr n α) (i : Nat) : a.set i (a.get i) = a := by
  apply ext_get
  intro j _
  rw [get_set]
  split
  · rename_i h
    rw [h.1]
  · rfl

theorem get_ofFn (f : Nat → α) {i : Nat} (h : i < n) : (ofFn f : Arr n α).get i = f i := by
  rw [get_of_lt _ h, ofFn]

theorem get_fill (x : α) {i : Nat} (h : i < n) : (fill x : Arr n α).get i = x := by
  rw [get_of_lt _ h, fill]

/-- An array of default elements reads as the default everywhere. -/
@[simp] theorem get_fill_default (i : Nat) : (fill default : Arr n α).get i = default := by
  by_cases h : i < n
  · exact get_fill default h
  · exact get_of_ge _ (by omega)

theorem get_blit (a : Arr n α) (off len : Nat) (src : Nat → α) {i : Nat} (h : i < n) :
    (a.blit off src len).get i =
      if off ≤ i ∧ i < off + len then src (i - off) else a.get i := by
  rw [get_of_lt _ h, get_of_lt _ h, blit]

theorem get_blitAll (a : Arr n α) {size : Nat} (hs : 0 < size) (src : Nat → Nat → α)
    (count : Nat) {i : Nat} (h : i < n) :
    (a.blitAll size src count).get i =
      if i < count * size then src (i / size) (i % size) else a.get i := by
  induction count with
  | zero => rw [blitAll, if_neg (by omega)]
  | succ c ih =>
    rw [blitAll, get_blit _ _ _ _ h, ih]
    have hmul : (c + 1) * size = c * size + size := Nat.succ_mul c size
    by_cases hlow : i < c * size
    · rw [if_neg (by omega), if_pos hlow, if_pos (by omega)]
    · by_cases hhigh : i < c * size + size
      · -- the record just laid down is the one `i` falls in
        have hdiv : i / size = c := by
          rw [Nat.div_eq_iff hs]
          omega
        have hmod : i % size = i - c * size := by
          have := Nat.div_add_mod i size
          rw [hdiv, Nat.mul_comm] at this
          omega
        rw [if_pos ⟨by omega, hhigh⟩, if_pos (by omega), hdiv, hmod]
      · rw [if_neg (by omega), if_neg hlow, if_neg (by omega)]

end Arr

end EC440.Lib
