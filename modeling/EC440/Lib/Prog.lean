import Mathlib.Tactic.Common

/-!
# Programs of atomic actions

A program is a tree of atomic actions: it is finished, or it does an action and
goes on with what the reply decides.  A machine says what an action does to the
shared state, when it can be taken (`ready`: a lock that is free) and when it
does no harm (`safe`: memory that is mapped and accessible).

* `exec` runs a program alone, `Steps` is part of such a run.
* `Interleaved` takes the actions of two programs in any order.
* `Triple P p Q` says where a run of the program alone ends when it starts in `P`.
* `SafeAmong R G` says that a program is never harmed when every step of the others
  is in `R`, and that all its own steps are in `G`.  `interleaved_safeAmong` puts two
  such programs together.
-/

namespace EC440.Lib

/-- The actions of a machine, with the type of the reply to each. -/
structure Sig where
  Act : Type
  Reply : Act → Type

inductive Prog (S : Sig) (α : Type) : Type
  | ret (x : α)
  | act (a : S.Act) (k : S.Reply a → Prog S α)

structure Machine (S : Sig) (σ : Type) where
  ready : S.Act → σ → Bool
  safe : S.Act → σ → Bool
  perform : (a : S.Act) → σ → S.Reply a × σ

namespace Machine

variable {S : Sig} {σ α β : Type}

/-- The run of a program alone, `none` when it gets stuck or is harmed. -/
def exec (M : Machine S σ) : Prog S α → σ → Option (α × σ)
  | .ret x, s => some (x, s)
  | .act a k, s =>
      if M.ready a s && M.safe a s then exec M (k (M.perform a s).1) (M.perform a s).2 else none

/-- A part of the run of a program alone. -/
inductive Steps (M : Machine S σ) : Prog S α → σ → Prog S α → σ → Prop
  | refl (p : Prog S α) (s : σ) : Steps M p s p s
  | act {a : S.Act} {k : S.Reply a → Prog S α} {s s' : σ} {p' : Prog S α}
      (hready : M.ready a s = true) (hsafe : M.safe a s = true)
      (h : Steps M (k (M.perform a s).1) (M.perform a s).2 p' s') : Steps M (.act a k) s p' s'

/-- The actions of two programs in any order, up to the first that does harm. -/
inductive Interleaved (M : Machine S σ) (p : Prog S α) (q : Prog S β) (s : σ) :
    Prog S α → Prog S β → σ → Prop
  | refl : Interleaved M p q s p q s
  | left {a : S.Act} {k : S.Reply a → Prog S α} {q' : Prog S β} {s' : σ}
      (h : Interleaved M p q s (.act a k) q' s') (hready : M.ready a s' = true)
      (hsafe : M.safe a s' = true) :
      Interleaved M p q s (k (M.perform a s').1) q' (M.perform a s').2
  | right {p' : Prog S α} {a : S.Act} {k : S.Reply a → Prog S β} {s' : σ}
      (h : Interleaved M p q s p' (.act a k) s') (hready : M.ready a s' = true)
      (hsafe : M.safe a s' = true) :
      Interleaved M p q s p' (k (M.perform a s').1) (M.perform a s').2

variable {M : Machine S σ} {p p' p'' : Prog S α} {q q' q'' : Prog S β} {s s' s'' : σ}

/-! ### Runs of one program -/

theorem Steps.single {a : S.Act} {k : S.Reply a → Prog S α} (hready : M.ready a s = true)
    (hsafe : M.safe a s = true) :
    M.Steps (.act a k) s (k (M.perform a s).1) (M.perform a s).2 :=
  .act hready hsafe (.refl _ _)

theorem Steps.trans (h : M.Steps p s p' s') (h' : M.Steps p' s' p'' s'') : M.Steps p s p'' s'' := by
  induction h with
  | refl => exact h'
  | act hready hsafe _ ih => exact .act hready hsafe (ih h')

theorem Steps.exec_eq (h : M.Steps p s p' s') : M.exec p s = M.exec p' s' := by
  induction h with
  | refl => rfl
  | act hready hsafe _ ih => rw [exec, hready, hsafe, Bool.and_self, if_pos rfl, ih]

/-- A run that ends in `ret` is the whole run. -/
theorem Steps.exec_ret {x : α} (h : M.Steps p s (.ret x) s') : M.exec p s = some (x, s') := by
  rw [h.exec_eq, exec]

theorem exec_of_not_safe {a : S.Act} {k : S.Reply a → Prog S α} (h : M.safe a s = false) :
    M.exec (.act a k) s = none := by
  rw [exec, h, Bool.and_false, if_neg (by decide)]

/-! ### Triples -/

/-- Started in `P`, a run of the program alone that ends, ends in `Q`. -/
def Triple (M : Machine S σ) (P : σ → Prop) (p : Prog S α) (Q : α → σ → Prop) : Prop :=
  ∀ s, P s → ∀ x s', M.exec p s = some (x, s') → Q x s'

section

variable {P P' : σ → Prop} {Q : α → σ → Prop}

theorem Triple.ret {x : α} (h : ∀ s, P s → Q x s) : M.Triple P (.ret x) Q := by
  intro s hs y s' he
  rw [exec] at he
  cases he
  exact h s hs

/-- An action, and the rest of the program from what the action leaves. -/
theorem Triple.act {a : S.Act} {k : S.Reply a → Prog S α} (R : S.Reply a → σ → Prop)
    (h : ∀ s, P s → R (M.perform a s).1 (M.perform a s).2) (hk : ∀ r, M.Triple (R r) (k r) Q) :
    M.Triple P (.act a k) Q := by
  intro s hs x s' he
  rw [exec] at he
  split at he
  · exact hk _ _ (h s hs) x s' he
  · cases he

theorem Triple.pre (h : M.Triple P' p Q) (hP : ∀ s, P s → P' s) : M.Triple P p Q :=
  fun s hs => h s (hP s hs)

end

/-! ### Interleavings -/

theorem Interleaved.trans (h : M.Interleaved p q s p' q' s')
    (h' : M.Interleaved p' q' s' p'' q'' s'') : M.Interleaved p q s p'' q'' s'' := by
  induction h' with
  | refl => exact h
  | left _ hready hsafe ih => exact .left ih hready hsafe
  | right _ hready hsafe ih => exact .right ih hready hsafe

theorem Steps.left (h : M.Steps p s p' s') (q : Prog S β) : M.Interleaved p q s p' q s' := by
  induction h with
  | refl => exact .refl
  | act hready hsafe _ ih => exact (Interleaved.left .refl hready hsafe).trans ih

theorem Steps.right (h : M.Steps q s q' s') (p : Prog S α) : M.Interleaved p q s p q' s' := by
  induction h with
  | refl => exact .refl
  | act hready hsafe _ ih => exact (Interleaved.right .refl hready hsafe).trans ih

/-! ### Programs among the steps of others -/

/-- Whatever the others do in `R` before each action, the action does no harm when it can be
taken, and it is a step in `G`. -/
def SafeAmong (M : Machine S σ) (R G : σ → σ → Prop) : Prog S α → σ → Prop
  | .ret _, _ => True
  | .act a k, s => ∀ s', R s s' → M.ready a s' = true →
      M.safe a s' = true ∧ G s' (M.perform a s').2 ∧
        SafeAmong M R G (k (M.perform a s').1) (M.perform a s').2

variable {R R' G G' : σ → σ → Prop}

theorem SafeAmong.stable (hR : ∀ s₁ s₂ s₃, R s₁ s₂ → R s₂ s₃ → R s₁ s₃)
    (h : M.SafeAmong R G p s) (hs : R s s') : M.SafeAmong R G p s' := by
  cases p with
  | ret x => trivial
  | act a k =>
    intro s'' hs'' hready
    exact h s'' (hR _ _ _ hs hs'') hready

/-- An action of a program whose precondition `P` the others keep. -/
theorem safeAmong_act {a : S.Act} {k : S.Reply a → Prog S α} {P : σ → Prop}
    (hP : ∀ s s', P s → R s s' → P s')
    (h : ∀ s, P s → M.ready a s = true → M.safe a s = true ∧ G s (M.perform a s).2 ∧
      M.SafeAmong R G (k (M.perform a s).1) (M.perform a s).2) (hs : P s) :
    M.SafeAmong R G (.act a k) s := by
  intro s' hs' hready
  exact h s' (hP s s' hs hs') hready

/-- **Two programs together.**  When the steps of each are among those the other allows,
neither is harmed in any interleaving. -/
theorem interleaved_safeAmong (hR : ∀ s₁ s₂ s₃, R s₁ s₂ → R s₂ s₃ → R s₁ s₃)
    (hR' : ∀ s₁ s₂ s₃, R' s₁ s₂ → R' s₂ s₃ → R' s₁ s₃) (hrefl : ∀ s, R s s)
    (hrefl' : ∀ s, R' s s) (hG : ∀ s s', G s s' → R' s s') (hG' : ∀ s s', G' s s' → R s s')
    (hp : M.SafeAmong R G p s) (hq : M.SafeAmong R' G' q s)
    (h : M.Interleaved p q s p' q' s') :
    M.SafeAmong R G p' s' ∧ M.SafeAmong R' G' q' s' := by
  induction h with
  | refl => exact ⟨hp, hq⟩
  | left _ hready _ ih =>
    obtain ⟨-, hg, hp'⟩ := ih.1 _ (hrefl _) hready
    exact ⟨hp', ih.2.stable hR' (hG _ _ hg)⟩
  | right _ hready _ ih =>
    obtain ⟨-, hg, hq'⟩ := ih.2 _ (hrefl' _) hready
    exact ⟨ih.1.stable hR (hG' _ _ hg), hq'⟩

theorem SafeAmong.safe_of_ready (hrefl : ∀ s, R s s) {a : S.Act} {k : S.Reply a → Prog S α}
    (h : M.SafeAmong R G (.act a k) s) (hready : M.ready a s = true) : M.safe a s = true :=
  (h s (hrefl s) hready).1

end Machine

end EC440.Lib
