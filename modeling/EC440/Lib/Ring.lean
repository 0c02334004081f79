import Mathlib.Data.List.Chain
import Mathlib.Data.List.Nodup
import Mathlib.Logic.Function.Basic
import Mathlib.Tactic.Common

/-!
# Circular doubly linked lists

`next` and `prev` are the two links of each node.  `Ring next prev l c` says that the
nodes `l ++ [c]` are distinct and form one circle: from `c` the `next` links lead
through `l` back to `c`, and the `prev` links lead the other way.

The nodes are listed in the order in which a search that starts behind `c` meets
them, with `c` last.  Moving on to another node (`rotate`), linking a new node in front
of `c` (`insert`) and unlinking `c` (`remove`) are list operations in this order.
-/

namespace EC440.Lib

variable {α : Type}

/-- `b` follows `a`, in both directions. -/
def Link (next prev : α → Option α) (a b : α) : Prop := next a = some b ∧ prev b = some a

structure Ring (next prev : α → Option α) (l : List α) (c : α) : Prop where
  nodup : (l ++ [c]).Nodup
  chain : List.IsChain (Link next prev) (c :: (l ++ [c]))

/-- The node `k` links after `x`. -/
def walk (next : α → Option α) : Nat → α → Option α
  | 0, x => some x
  | k + 1, x => (next x).bind (walk next k)

variable {next prev next' prev' : α → Option α} {l A B L : List α} {c p x y : α}

theorem walk_of_chain (h : List.IsChain (Link next prev) (c :: L)) {k : Nat} (hk : k ≤ L.length) :
    walk next k c = (c :: L)[k]? := by
  induction L generalizing c k with
  | nil =>
    have hk0 : k = 0 := Nat.le_zero.mp hk
    rw [hk0, walk, List.getElem?_cons_zero]
  | cons d L ih =>
    cases k with
    | zero => rw [walk, List.getElem?_cons_zero]
    | succ k =>
      obtain ⟨hlink, hrest⟩ := List.isChain_cons_cons.mp h
      rw [walk, hlink.1, Option.bind_some, List.getElem?_cons_succ]
      exact ih hrest (Nat.le_of_succ_le_succ hk)

/-- On a path from `c`, the `prev` link of `c` and the `next` link of the last node do not
matter. -/
theorem path_congr (h : List.IsChain (Link next prev) (c :: l))
    (hnext : ∀ x ∈ (c :: l).dropLast, next' x = next x) (hprev : ∀ x ∈ l, prev' x = prev x) :
    List.IsChain (Link next' prev') (c :: l) := by
  induction l generalizing c with
  | nil => exact List.isChain_singleton c
  | cons d l ih =>
    obtain ⟨hlink, hrest⟩ := List.isChain_cons_cons.mp h
    rw [List.dropLast_cons_of_ne_nil (List.cons_ne_nil d l)] at hnext
    refine List.isChain_cons_cons.mpr ⟨⟨?_, ?_⟩, ih hrest ?_ ?_⟩
    · exact (hnext c List.mem_cons_self).trans hlink.1
    · exact (hprev d List.mem_cons_self).trans hlink.2
    · intro x hx
      exact hnext x (List.mem_cons_of_mem c hx)
    · intro x hx
      exact hprev x (List.mem_cons_of_mem d hx)

namespace Ring

/-- Only the links of the nodes matter. -/
theorem congr (h : Ring next prev l c) (hnext : ∀ x ∈ l ++ [c], next' x = next x)
    (hprev : ∀ x ∈ l ++ [c], prev' x = prev x) : Ring next' prev' l c := by
  refine ⟨h.nodup, path_congr h.chain ?_ hprev⟩
  intro x hx
  rw [← List.cons_append, List.dropLast_concat] at hx
  exact hnext x ((List.perm_append_singleton c l).mem_iff.mpr hx)

/-- The same circle, seen from another of its nodes. -/
theorem rotate (h : Ring next prev l c) (hx : l ++ [c] = A ++ x :: B) :
    Ring next prev (B ++ A) x := by
  rcases List.eq_nil_or_concat B with rfl | ⟨B', d, rfl⟩
  · -- the node is `c` itself
    obtain ⟨rfl, hc⟩ := List.append_inj' hx rfl
    obtain rfl : c = x := by simpa using hc
    simpa using h
  · rw [List.concat_eq_append] at hx ⊢
    have hx' : l ++ [c] = (A ++ x :: B') ++ [d] := by simpa using hx
    obtain ⟨rfl, hc⟩ := List.append_inj' hx' rfl
    obtain rfl : c = d := by simpa using hc
    have hchain : List.IsChain (Link next prev) ((c :: A) ++ x :: (B' ++ [c])) := by
      simpa using h.chain
    obtain ⟨hleft, hright⟩ := List.isChain_split.mp hchain
    refine ⟨?_, ?_⟩
    · have hperm : ((B' ++ [c]) ++ (A ++ [x])).Perm ((A ++ [x]) ++ (B' ++ [c])) :=
        List.perm_append_comm
      have hnodup : ((A ++ [x]) ++ (B' ++ [c])).Nodup := by simpa using h.nodup
      simpa using hperm.nodup_iff.mpr hnodup
    · have hjoin : List.IsChain (Link next prev) ((x :: B') ++ c :: (A ++ [x])) :=
        List.isChain_split.mpr ⟨by simpa using hright, by simpa using hleft⟩
      simpa using hjoin

theorem next_eq (h : Ring next prev (x :: l) c) : Link next prev c x :=
  (List.isChain_cons_cons.mp h.chain).1

theorem prev_eq (h : Ring next prev (l ++ [p]) c) : Link next prev p c := by
  have hchain : List.IsChain (Link next prev) ((c :: l) ++ p :: [c]) := by simpa using h.chain
  exact List.isChain_pair.mp (List.isChain_split.mp hchain).2

/-- Every node has a successor, of which it is the predecessor. -/
theorem exists_next (h : Ring next prev l c) (hx : x ∈ l ++ [c]) :
    ∃ y ∈ l ++ [c], Link next prev x y := by
  obtain ⟨A, B, hAB⟩ := List.append_of_mem hx
  have hr := h.rotate hAB
  cases hBA : B ++ A ++ [x] with
  | nil => simp at hBA
  | cons y L =>
    refine ⟨y, ?_, ?_⟩
    · have hy : y ∈ B ++ A ++ [x] := by rw [hBA]; exact List.mem_cons_self
      rw [hAB]
      simp only [List.mem_append, List.mem_cons] at hy ⊢
      tauto
    · have hchain := hr.chain
      rw [hBA] at hchain
      exact (List.isChain_cons_cons.mp hchain).1

/-- Every node has a predecessor, of which it is the successor. -/
theorem exists_prev (h : Ring next prev l c) (hx : x ∈ l ++ [c]) :
    ∃ y ∈ l ++ [c], Link next prev y x := by
  obtain ⟨A, B, hAB⟩ := List.append_of_mem hx
  have hr := h.rotate hAB
  rcases List.eq_nil_or_concat (B ++ A) with hnil | ⟨L, y, hL⟩
  · rw [hnil] at hr
    exact ⟨x, hx, List.isChain_pair.mp hr.chain⟩
  · refine ⟨y, ?_, ?_⟩
    · have hy : y ∈ B ++ A := by rw [hL]; simp
      rw [hAB]
      simp only [List.mem_append, List.mem_cons] at hy ⊢
      tauto
    · rw [hL, List.concat_eq_append] at hr
      exact hr.prev_eq

/-- From `c` the links visit the nodes in order and come back to `c`. -/
theorem walk_eq (h : Ring next prev l c) {k : Nat} (hk : k ≤ l.length + 1) :
    walk next k c = (c :: (l ++ [c]))[k]? :=
  walk_of_chain h.chain (by simpa using hk)

/-- On the way round from `c` every node is met once. -/
theorem existsUnique_walk (h : Ring next prev l c) (hx : x ∈ l ++ [c]) :
    ∃! k, k < l.length + 1 ∧ walk next k c = some x := by
  have hnodup : (c :: l).Nodup := (List.perm_append_singleton c l).nodup_iff.mp h.nodup
  have hwalk : ∀ k < l.length + 1, walk next k c = (c :: l)[k]? := by
    intro k hk
    rw [h.walk_eq (Nat.le_of_lt hk), ← List.cons_append, List.getElem?_append_left (by simpa using hk)]
  obtain ⟨k, hk, hkx⟩ := List.getElem_of_mem ((List.perm_append_singleton c l).mem_iff.mp hx)
  have hk' : k < l.length + 1 := by simpa using hk
  refine ⟨k, ⟨hk', by rw [hwalk k hk', List.getElem?_eq_getElem hk, hkx]⟩, ?_⟩
  rintro j ⟨hj, hjx⟩
  rw [hwalk j hj] at hjx
  obtain ⟨hj', hjx'⟩ := List.getElem?_eq_some_iff.mp hjx
  exact (List.Nodup.getElem_inj_iff hnodup).mp (hjx'.trans hkx.symm)

/-- The walk does not leave the circle. -/
theorem walk_mem (h : Ring next prev l c) {k : Nat} (hx : x ∈ l ++ [c]) (hw : walk next k x = some y) :
    y ∈ l ++ [c] := by
  induction k generalizing x with
  | zero =>
    obtain rfl : x = y := by simpa [walk] using hw
    exact hx
  | succ k ih =>
    obtain ⟨n, hn, hlink⟩ := h.exists_next hx
    rw [walk, hlink.1, Option.bind_some] at hw
    exact ih hn hw

/-- After one round the walk is back at `c`. -/
theorem walk_round (h : Ring next prev l c) : walk next (l.length + 1) c = some c := by
  rw [h.walk_eq (Nat.le_refl _), List.getElem?_cons_succ, List.getElem?_concat_length]

/-- A round from `c` is not longer than another one. -/
theorem length_le (h : Ring next prev l c) (h' : Ring next prev L c) : l.length ≤ L.length := by
  by_contra hlong
  have hlt : L.length < l.length := by omega
  have hround := h'.walk_round
  rw [h.walk_eq (by omega), List.getElem?_cons_succ, List.getElem?_append_left hlt,
    List.getElem?_eq_getElem hlt] at hround
  have hmem : c ∈ l := Option.some.inj hround ▸ List.getElem_mem hlt
  exact (List.nodup_append.mp h.nodup).2.2 c hmem c (by simp) rfl

/-- The links determine the circle. -/
theorem unique (h : Ring next prev l c) (h' : Ring next prev L c) : l = L := by
  have hlen : l.length = L.length := Nat.le_antisymm (h.length_le h') (h'.length_le h)
  refine List.ext_getElem hlen fun k hk hk' => ?_
  have hwalk := h.walk_eq (show k + 1 ≤ l.length + 1 by omega)
  rw [h'.walk_eq (by omega), List.getElem?_cons_succ, List.getElem?_cons_succ, List.getElem?_append_left hk,
    List.getElem?_append_left hk', List.getElem?_eq_getElem hk, List.getElem?_eq_getElem hk'] at hwalk
  exact (Option.some.inj hwalk).symm

end Ring

variable [DecidableEq α]

/-- Linking `y` in front of `c`, behind the last node `p` of a path from `c`.  The links that
close the circle from `p` to `c` need not be there: they are overwritten. -/
theorem Ring.insert (hnodup : (l ++ [c]).Nodup) (hpath : List.IsChain (Link next prev) (c :: l))
    (hp : (c :: l).getLast? = some p) (hy : y ∉ l ++ [c]) :
    Ring (Function.update (Function.update next p (some y)) y (some c))
      (Function.update (Function.update prev y (some p)) c (some y)) (l ++ [y]) c := by
  obtain ⟨L, hL⟩ : ∃ L, c :: l = L ++ [p] := List.getLast?_eq_some_iff.mp hp
  have hcl : (c :: l).Nodup := (List.perm_append_singleton c l).nodup_iff.mp hnodup
  have hne : ∀ x ∈ c :: l, x ≠ y := by
    rintro x hx rfl
    exact hy ((List.perm_append_singleton c l).mem_iff.mpr hx)
  have hpy : p ≠ y := hne p (by rw [hL]; simp)
  have hcy : c ≠ y := hne c List.mem_cons_self
  refine ⟨?_, ?_⟩
  · have hperm : (l ++ y :: [c]).Perm (y :: (l ++ [c])) := List.perm_middle
    simpa using hperm.nodup_iff.mpr (List.nodup_cons.mpr ⟨hy, hnodup⟩)
  · have heq : c :: (l ++ [y] ++ [c]) = L ++ p :: [y, c] := by
      rw [List.append_assoc, ← List.cons_append, hL]
      simp
    rw [heq]
    refine List.isChain_split.mpr ⟨?_, ?_⟩
    · -- up to `p` no link of the path has changed
      rw [← hL]
      refine path_congr hpath ?_ ?_
      · intro x hx
        rw [hL, List.dropLast_concat] at hx
        have hxp : x ≠ p := by
          rintro rfl
          rw [hL] at hcl
          exact (List.nodup_append.mp hcl).2.2 x hx x (by simp) rfl
        have hxy : x ≠ y := hne x (by rw [hL]; exact List.mem_append_left _ hx)
        rw [Function.update_of_ne hxy, Function.update_of_ne hxp]
      · intro x hx
        have hxc : x ≠ c := by
          rintro rfl
          exact (List.nodup_cons.mp hcl).1 hx
        rw [Function.update_of_ne hxc, Function.update_of_ne (hne x (List.mem_cons_of_mem c hx))]
    · refine List.isChain_cons_cons.mpr ⟨⟨?_, ?_⟩, List.isChain_pair.mpr ⟨?_, ?_⟩⟩
      · rw [Function.update_of_ne hpy, Function.update_self]
      · rw [Function.update_of_ne hcy.symm, Function.update_self]
      · rw [Function.update_self]
      · rw [Function.update_self]

/-- Unlinking `c`: its neighbours `p` and `n` are joined, and the circle is seen from `p`. -/
theorem Ring.remove (h : Ring next prev (l ++ [p]) c) :
    ∃ n ∈ l ++ [p], Link next prev c n ∧
      Ring (Function.update next p (some n)) (Function.update prev n (some p)) l p := by
  cases hL : l ++ [p] with
  | nil => simp at hL
  | cons n L =>
    rw [hL] at h
    have hnodup : (n :: L).Nodup := h.nodup.sublist (List.sublist_append_left _ _)
    refine ⟨n, List.mem_cons_self, h.next_eq, ?_, ?_⟩
    · rw [hL]
      exact hnodup
    · rw [hL]
      have hpath : List.IsChain (Link next prev) (n :: L) :=
        (List.isChain_cons_cons.mp h.chain).2.left_of_append
      refine List.isChain_cons_cons.mpr ⟨⟨?_, ?_⟩, path_congr hpath ?_ ?_⟩
      · rw [Function.update_self]
      · rw [Function.update_self]
      · intro x hx
        rw [← hL, List.dropLast_concat] at hx
        have hxp : x ≠ p := by
          rintro rfl
          rw [← hL] at hnodup
          exact (List.nodup_append.mp hnodup).2.2 x hx x (by simp) rfl
        rw [Function.update_of_ne hxp]
      · intro x hx
        have hxn : x ≠ n := by
          rintro rfl
          exact (List.nodup_cons.mp hnodup).1 hx
        rw [Function.update_of_ne hxn]

end EC440.Lib
