import EC440.Lib.Chain
import EC440.SimpleShell.Wellformed
import Mathlib.Data.Finset.Image

/-!
# Freeing a pipeline

`pipeline_build` with the pointers it stores, and `pipeline_free`.  A pointer to a token is the index of
the token, since `find_tokens` allocates each one for itself, and what the parser returns with the tokens in
the place of their pointers is what the pointers lead to (`buildTokens_read`).  `free` fails on a block
that is not allocated, so a pipeline that is freed without a failure is freed without a block being freed
twice.

Each round of the parser stores a pointer to a token it has not passed yet, so no pointer is stored twice
(`Storing`, `parseCommands_distinct`).  What is left over are the tokens that no command points to.
-/

namespace EC440.SimpleShell

open EC440.Lib

/-! ### Pointers -/

/-- A pointer to a token is the index of the token. -/
instance : TokenRef Nat := ⟨fun j _ => j⟩

@[simp] theorem ref_pointer (j : Nat) (t : Token) : (TokenRef.ref j t : Nat) = j := rfl

/-- `pipeline_build`, on a heap, with the pointers that it stores. -/
def pipelineBuildAt (heap : Nat → List Char) (commandLine : List Char) : Option (Nat × Pipeline Nat) :=
  buildTokens (tokensIn heap commandLine)

/-! ### `pipeline_free` -/

/-- A block that is still allocated when `pipeline_build` returns. -/
inductive Block
  | token (j : Nat)
  | commands
  | pipeline
deriving DecidableEq

/-- The blocks that `pipeline_build` leaves; the array of the tokens is freed at its end. -/
def blocksLeft (tokens : List Token) : Finset Block :=
  insert .pipeline (insert .commands ((Finset.range tokens.length).image .token))

def free (b : Block) (live : Finset Block) : Option (Finset Block) :=
  if b ∈ live then some (live.erase b) else none

/-- `while (command_args[i]) free(command_args[i++])`. -/
def freeArgs : List (Option Nat) → Finset Block → Option (Finset Block)
  | [], _ => none
  | none :: _, live => some live
  | some j :: args, live => do freeArgs args (← free (.token j) live)

/-- `if (path) free(path)`. -/
def freePath (path : Option Nat) (live : Finset Block) : Option (Finset Block) :=
  match path with
  | none => some live
  | some j => free (.token j) live

/-- The body of the loop over the commands. -/
def freeCommand (c : PipelineCommand Nat) (live : Finset Block) : Option (Finset Block) := do
  let live ← freeArgs c.commandArgs live
  let live ← freePath c.redirectInPath live
  freePath c.redirectOutPath live

def pipelineFree (p : Pipeline Nat) (live : Finset Block) : Option (Finset Block) := do
  let live ← visitChain PipelineCommand.next freeCommand p.commands p.commands.length (some 0) live
  let live ← free .commands live
  free .pipeline live

/-! ### What the pointers lead to -/

variable {tokens : List Token} {next : Option Nat} {b b' : Build Nat} {n i : Nat} {c : PipelineCommand Nat}
  {cs : List (Option (PipelineCommand Nat))} {live : Finset Block}

def deref (tokens : List Token) (p : Option Nat) : Option Token := p.bind (tokens[·]?)

def PipelineCommand.read (tokens : List Token) (c : PipelineCommand Nat) : PipelineCommand :=
  ⟨c.commandArgs.map (deref tokens), deref tokens c.redirectInPath, deref tokens c.redirectOutPath, c.next⟩

def Pipeline.read (tokens : List Token) (p : Pipeline Nat) : Pipeline :=
  ⟨p.commands.map (Option.map (PipelineCommand.read tokens)), p.isBackground⟩

def Build.read (tokens : List Token) (b : Build Nat) : Build :=
  ⟨b.j, b.caught, b.args.map (deref tokens), deref tokens b.redirectIn, deref tokens b.redirectOut,
    b.cmd.map (PipelineCommand.read tokens)⟩

theorem storeArg_read (b : Build Nat) (a : Option Nat) :
    storeArg (b.read tokens) (deref tokens a) = (storeArg b a).map (Build.read tokens) := by
  simp only [storeArg, Build.read, List.length_map]
  split
  · simp [Build.read]
  · rfl

theorem readToken_read (tokens : List Token) (b : Build Nat) :
    readToken tokens (b.read tokens) = (readToken tokens b).map (Build.read tokens) := by
  simp only [readToken]
  change (tokens[b.j]?).bind _ = _
  cases ht : tokens[b.j]? with
  | none => rfl
  | some t =>
    have harg : storeArg (b.read tokens) (some t) = (storeArg b (some b.j)).map (Build.read tokens) := by
      rw [← storeArg_read, deref, Option.bind_some, ht]
    have hpath : b.j + 1 < tokens.length → ∃ path, tokens[b.j + 1]? = some path :=
      fun hlt => ⟨_, List.getElem?_eq_getElem hlt⟩
    simp only [Option.bind_some, Option.bind_eq_bind, ref_token, ref_pointer]
    change (if t = ['>'] ∧ b.j + 1 < tokens.length then _ else _) = _
    split
    · next hout =>
      obtain ⟨path, hpath⟩ := hpath hout.2
      simp only [hpath, Option.bind_some, Option.map_some, Build.read, deref]
      rfl
    · change (if t = ['<'] ∧ b.j + 1 < tokens.length then _ else _) = _
      split
      · next hin =>
        obtain ⟨path, hpath⟩ := hpath hin.2
        simp only [hpath, Option.bind_some, Option.map_some, Build.read, deref]
        rfl
      · split
        · exact harg
        · rfl

theorem finish_read (tokens : List Token) (next : Option Nat) (b : Build Nat) :
    finish tokens next (b.read tokens) = (finish tokens next b).map (Build.read tokens) := by
  simp only [finish]
  change (tokens[b.j]?).bind _ = _
  cases ht : tokens[b.j]? with
  | none => rfl
  | some t =>
    simp only [Option.bind_some, Option.bind_eq_bind]
    change (if t = ['|'] ∨ tokens.length < b.j + 2 ∨ b.caught = true then _ else _) = _
    split
    · have hstore : storeArg (b.read tokens) none = _ := storeArg_read b none
      rw [hstore]
      cases storeArg b none with
      | none => rfl
      | some b₁ => rfl
    · rfl

theorem parseToken_read (tokens : List Token) (next : Option Nat) (b : Build Nat) :
    parseToken tokens next (b.read tokens) = (parseToken tokens next b).map (Build.read tokens) := by
  simp only [parseToken, Option.bind_eq_bind, readToken_read]
  cases readToken tokens b with
  | none => rfl
  | some b₁ =>
    simp only [Option.map_some, Option.bind_some, finish_read]
    cases finish tokens next b₁ with
    | none => rfl
    | some b₂ => rfl

theorem parseCommand_read (tokens : List Token) (next : Option Nat) (fuel : Nat) (b : Build Nat) :
    parseCommand tokens next fuel (b.read tokens) =
      (parseCommand tokens next fuel b).map (Build.read tokens) := by
  induction fuel generalizing b with
  | zero => rfl
  | succ fuel ih =>
    have hcmd : (b.read tokens).cmd = none ↔ b.cmd = none := Option.map_eq_none_iff
    simp only [parseCommand, hcmd]
    change (if b.cmd = none ∧ b.j < tokens.length then _ else _) = _
    split
    · simp only [Option.bind_eq_bind, parseToken_read]
      cases parseToken tokens next b with
      | none => rfl
      | some b₁ => exact ih b₁
    · rfl

theorem parseCommands_read (tokens : List Token) (n k i : Nat) (b : Build Nat) :
    parseCommands tokens n k i (b.read tokens) =
      (parseCommands tokens n k i b).map (List.map (Option.map (PipelineCommand.read tokens))) := by
  induction k generalizing i b with
  | zero => rfl
  | succ k ih =>
    have hstart : ({ b.read tokens with redirectIn := none, redirectOut := none, cmd := none } : Build) =
        Build.read tokens { b with redirectIn := none, redirectOut := none, cmd := none } := rfl
    simp only [parseCommands, Option.bind_eq_bind, hstart, parseCommand_read]
    cases parseCommand tokens _ (tokens.length + 1)
      { b with redirectIn := none, redirectOut := none, cmd := none } with
    | none => rfl
    | some b₁ =>
      simp only [Option.map_some, Option.bind_some, ih]
      cases parseCommands tokens n k (i + 1) b₁ with
      | none => rfl
      | some rest => rfl

/-- The pointers lead to what the parser returns. -/
theorem buildTokens_read (tokens : List Token) :
    buildTokens tokens = (buildTokens tokens).map fun r : Nat × Pipeline Nat => (r.1, r.2.read tokens) := by
  have hparse := parseCommands_read tokens (findNumCmds tokens) (findNumCmds tokens) 0
    ⟨0, false, [], none, none, none⟩
  change parseCommands _ _ _ 0 ⟨0, false, [], none, none, none⟩ = _ at hparse
  simp only [buildTokens, hparse, Option.bind_eq_bind]
  split
  · rfl
  · cases (parseCommands tokens (findNumCmds tokens) (findNumCmds tokens) 0
      ⟨0, false, [], none, none, none⟩ : Option (List (Option (PipelineCommand Nat)))) with
    | none => rfl
    | some cs =>
      simp only [Option.map_some, Option.bind_some]
      cases tokens[tokens.length - 1]? with
      | none => rfl
      | some last => rfl

/-! ### No pointer is stored twice -/

/-- The pointers of a command, in the order in which they are freed. -/
def PipelineCommand.pointers (c : PipelineCommand Nat) : List Nat :=
  c.commandArgs.filterMap id ++ (c.redirectInPath.toList ++ c.redirectOutPath.toList)

/-- The pointers of the command that is being read. -/
def Build.pointers (b : Build Nat) : List Nat :=
  b.args.filterMap id ++ (b.redirectIn.toList ++ b.redirectOut.toList)

/-- Pointers to distinct tokens from the index `j₀` on, in front of the index `j₁`. -/
structure Distinct (tokens : List Token) (j₀ j₁ : Nat) (ps : List Nat) : Prop where
  nodup : ps.Nodup
  range : ∀ p ∈ ps, j₀ ≤ p ∧ p < j₁ ∧ p < tokens.length

/-- What the inner loop has stored since it was at the index `j₀`. -/
structure Storing (tokens : List Token) (j₀ j₁ : Nat) (b : Build Nat) : Prop where
  args : ∀ a ∈ b.args, a ≠ none
  le : j₀ ≤ b.j
  distinct : Distinct tokens j₀ j₁ b.pointers

/-- One more pointer, to a token behind the ones so far; some of these may be dropped. -/
theorem Distinct.store {j₀ j₁ q : Nat} {ps qs ps' : List Nat} (h : Distinct tokens j₀ j₁ ps)
    (hsub : qs.Sublist ps) (hperm : ps'.Perm (q :: qs)) (hle : j₀ ≤ q) (hge : j₁ ≤ q)
    (hlt : q < tokens.length) : Distinct tokens j₀ (q + 1) ps' := by
  constructor
  · rw [hperm.nodup_iff, List.nodup_cons]
    refine ⟨fun hmem => ?_, hsub.nodup h.nodup⟩
    have hrange := h.range q (hsub.subset hmem)
    omega
  · intro p hp
    rcases List.mem_cons.mp (hperm.mem_iff.mp hp) with rfl | hp
    · exact ⟨hle, Nat.lt_succ_self _, hlt⟩
    · have hrange := h.range p (hsub.subset hp)
      omega

theorem Distinct.mono {j₀ j₁ j₂ : Nat} {ps : List Nat} (h : Distinct tokens j₀ j₁ ps) (hle : j₁ ≤ j₂) :
    Distinct tokens j₀ j₂ ps := by
  refine ⟨h.nodup, fun p hp => ?_⟩
  have hrange := h.range p hp
  omega

theorem readToken_storing {j₀ : Nat} {b₁ : Build Nat} (h : Storing tokens j₀ b.j b)
    (hread : readToken tokens b = some b₁) : Storing tokens j₀ (b₁.j + 1) b₁ := by
  have hle := h.le
  simp only [readToken, Option.bind_eq_bind, Option.bind_eq_some_iff] at hread
  obtain ⟨t, ht, hread⟩ := hread
  have hj : b.j < tokens.length := (List.getElem?_eq_some_iff.mp ht).1
  split at hread
  · next hout =>
    obtain ⟨path, -, hread⟩ := Option.bind_eq_some_iff.mp hread
    obtain rfl := Option.some.inj hread
    refine ⟨h.args, Nat.le_succ_of_le hle, ?_⟩
    -- an earlier path is dropped
    have hsub : List.Sublist (b.args.filterMap id ++ b.redirectIn.toList) b.pointers :=
      List.Sublist.append_left (List.sublist_append_left _ _) _
    refine h.distinct.store hsub ?_ (Nat.le_succ_of_le hle) (Nat.le_succ _) hout.2
    simp only [Build.pointers, Option.toList_some, ← List.append_assoc]
    exact List.perm_append_singleton _ _
  · split at hread
    · next hin =>
      obtain ⟨path, -, hread⟩ := Option.bind_eq_some_iff.mp hread
      obtain rfl := Option.some.inj hread
      refine ⟨h.args, Nat.le_succ_of_le hle, ?_⟩
      have hsub : List.Sublist (b.args.filterMap id ++ b.redirectOut.toList) b.pointers :=
        List.Sublist.append_left (List.sublist_append_right _ _) _
      refine h.distinct.store hsub ?_ (Nat.le_succ_of_le hle) (Nat.le_succ _) hin.2
      exact List.perm_middle
    · split at hread
      · rw [storeArg] at hread
        split at hread
        · obtain rfl := Option.some.inj hread
          refine ⟨?_, hle, h.distinct.store (List.Sublist.refl _) ?_ hle (Nat.le_refl _) hj⟩
          · intro a ha
            rcases List.mem_append.mp ha with ha | ha
            · exact h.args a ha
            · simp [List.mem_singleton.mp ha]
          · simp only [Build.pointers, List.filterMap_append, List.filterMap_cons, List.filterMap_nil, id,
              List.append_assoc]
            exact List.perm_middle
        · cases hread
      · obtain rfl := Option.some.inj hread
        exact ⟨h.args, hle, h.distinct.mono (Nat.le_succ _)⟩

/-- A command whose arguments end with a `NULL`. -/
structure Complete (tokens : List Token) (j₀ j₁ : Nat) (c : PipelineCommand Nat) : Prop where
  args : ∃ ps : List Nat, c.commandArgs = ps.map some ++ [none]
  distinct : Distinct tokens j₀ j₁ c.pointers

theorem exists_map_some {α : Type} {l : List (Option α)} (h : ∀ a ∈ l, a ≠ none) :
    ∃ ps : List α, l = ps.map some := by
  refine ⟨l.filterMap id, ?_⟩
  induction l with
  | nil => rfl
  | cons a l ih =>
    rw [List.forall_mem_cons] at h
    obtain ⟨p, rfl⟩ := Option.ne_none_iff_exists'.mp h.1
    simpa using ih h.2

theorem parseToken_storing {j₀ : Nat} (h : Storing tokens j₀ b.j b)
    (hparse : parseToken tokens next b = some b') :
    j₀ ≤ b'.j ∧ (Storing tokens j₀ b'.j b' ∧ b'.cmd = b.cmd ∨
      b'.args = [] ∧ ∃ c, b'.cmd = some c ∧ Complete tokens j₀ b'.j c) := by
  simp only [parseToken, Option.bind_eq_bind, Option.bind_eq_some_iff] at hparse
  obtain ⟨b₁, hread, b₂, hfinish, hb'⟩ := hparse
  have h₁ := readToken_storing h hread
  have hcmd : b₁.cmd = b.cmd := by
    simp only [readToken, storeArg, Option.bind_eq_bind, Option.bind_eq_some_iff] at hread
    obtain ⟨t, -, hread⟩ := hread
    grind
  obtain rfl := Option.some.inj hb'
  simp only [finish, Option.bind_eq_bind, Option.bind_eq_some_iff] at hfinish
  obtain ⟨t, -, hfinish⟩ := hfinish
  split at hfinish
  · rw [storeArg] at hfinish
    split at hfinish
    · obtain rfl := Option.some.inj hfinish
      refine ⟨Nat.le_succ_of_le h₁.le, .inr ⟨rfl, _, rfl, ?_, ?_⟩⟩
      · obtain ⟨ps, hps⟩ := exists_map_some h₁.args
        exact ⟨ps, by rw [hps]⟩
      · simpa [PipelineCommand.pointers, Build.pointers] using h₁.distinct
    · cases hfinish
  · obtain rfl := Option.some.inj hfinish
    exact ⟨Nat.le_succ_of_le h₁.le, .inl ⟨⟨h₁.args, Nat.le_succ_of_le h₁.le, h₁.distinct⟩, hcmd⟩⟩

theorem parseCommand_complete {j₀ fuel : Nat} (h : Storing tokens j₀ b.j b) (hnone : b.cmd = none)
    (hparse : parseCommand tokens next fuel b = some b') (hc : b'.cmd = some c) :
    j₀ ≤ b'.j ∧ b'.args = [] ∧ Complete tokens j₀ b'.j c := by
  induction fuel generalizing b with
  | zero =>
    obtain rfl := Option.some.inj hparse
    rw [hnone] at hc
    cases hc
  | succ fuel ih =>
    rw [parseCommand] at hparse
    split at hparse
    · simp only [Option.bind_eq_bind, Option.bind_eq_some_iff] at hparse
      obtain ⟨b₁, hb₁, hparse⟩ := hparse
      obtain ⟨hle, ⟨hstoring, hcmd⟩ | ⟨hargs, d, hd, hcomplete⟩⟩ := parseToken_storing h hb₁
      · exact ih hstoring (hcmd.trans hnone) hparse
      · -- the loop ends with the command that is complete
        have hdone : parseCommand tokens next fuel b₁ = some b₁ := by
          cases fuel with
          | zero => rfl
          | succ fuel => simp [parseCommand, hd]
        obtain rfl := Option.some.inj (hdone.symm.trans hparse)
        obtain rfl := Option.some.inj (hd.symm.trans hc)
        exact ⟨hle, hargs, hcomplete⟩
    · obtain rfl := Option.some.inj hparse
      rw [hnone] at hc
      cases hc

/-- All pointers of the commands, in the order in which they are freed. -/
def pointers (cs : List (Option (PipelineCommand Nat))) : List Nat :=
  cs.flatMap fun c => c.elim [] PipelineCommand.pointers

/-- **No pointer is stored twice** in commands that are all assigned. -/
theorem parseCommands_distinct {k : Nat} (hargs : b.args = [])
    (hparse : parseCommands tokens n k i b = some cs) (hsome : ∀ c ∈ cs, c ≠ none) :
    (pointers cs).Nodup ∧ (∀ p ∈ pointers cs, b.j ≤ p ∧ p < tokens.length) ∧
      ∀ c, some c ∈ cs → ∃ ps : List Nat, c.commandArgs = ps.map some ++ [none] := by
  induction k generalizing i b cs with
  | zero =>
    obtain rfl := Option.some.inj hparse
    exact ⟨List.nodup_nil, by simp [pointers], by simp⟩
  | succ k ih =>
    simp only [parseCommands, Option.bind_eq_bind, Option.bind_eq_some_iff] at hparse
    obtain ⟨b₁, hb₁, rest, hrest, hcs⟩ := hparse
    obtain rfl := Option.some.inj hcs
    rw [List.forall_mem_cons] at hsome
    obtain ⟨c, hc⟩ := Option.ne_none_iff_exists'.mp hsome.1
    have hstart : Storing tokens b.j b.j
        { b with redirectIn := none, redirectOut := none, cmd := none } := by
      refine ⟨by simp [hargs], Nat.le_refl _, ?_, ?_⟩
      · simp [Build.pointers, hargs]
      · simp [Build.pointers, hargs]
    obtain ⟨hle, hargs₁, hcomplete⟩ := parseCommand_complete hstart rfl hb₁ hc
    obtain ⟨hnodup, hrange, hends⟩ := ih hargs₁ hrest hsome.2
    have hcons : pointers (b₁.cmd :: rest) = c.pointers ++ pointers rest := by
      simp [pointers, hc]
    refine ⟨?_, ?_, ?_⟩
    · -- the pointers of the other commands are behind those of this one
      rw [hcons]
      refine List.Nodup.append hcomplete.distinct.nodup hnodup fun p hp hp' => ?_
      have hlt := (hcomplete.distinct.range p hp).2.1
      have hge := (hrange p hp').1
      omega
    · intro p hp
      rw [hcons] at hp
      rcases List.mem_append.mp hp with hp | hp
      · have h := hcomplete.distinct.range p hp
        exact ⟨h.1, h.2.2⟩
      · have h := hrange p hp
        exact ⟨Nat.le_trans hle h.1, h.2⟩
    · intro d hd
      rcases List.mem_cons.mp hd with hd | hd
      · obtain rfl := Option.some.inj (hd.trans hc)
        exact hcomplete.args
      · exact hends d hd

/-! ### All of them are freed -/

/-- The tokens `ps` are freed in order. -/
def freeAll : List Nat → Finset Block → Option (Finset Block)
  | [], live => some live
  | p :: ps, live => (free (.token p) live).bind (freeAll ps)

theorem freeAll_append (ps qs : List Nat) (live : Finset Block) :
    freeAll (ps ++ qs) live = (freeAll ps live).bind (freeAll qs) := by
  induction ps generalizing live with
  | nil => rfl
  | cons p ps ih =>
    simp only [List.cons_append, freeAll, Option.bind_assoc]
    exact congrArg _ (funext fun live => ih live)

theorem freeArgs_eq (ps : List Nat) (live : Finset Block) :
    freeArgs (ps.map some ++ [none]) live = freeAll ps live := by
  induction ps generalizing live with
  | nil => rfl
  | cons p ps ih =>
    simp only [List.map_cons, List.cons_append, freeArgs, freeAll, Option.bind_eq_bind]
    exact congrArg _ (funext fun live => ih live)

theorem freePath_eq (path : Option Nat) (live : Finset Block) :
    freePath path live = freeAll path.toList live := by
  cases path with
  | none => rfl
  | some p => exact (Option.bind_fun_some _).symm

/-- Distinct blocks that are allocated can be freed one after the other. -/
theorem freeAll_of_nodup {ps : List Nat} (hnodup : ps.Nodup) (hlive : ∀ p ∈ ps, Block.token p ∈ live) :
    freeAll ps live = some (live.filter fun b => ∀ p ∈ ps, b ≠ .token p) := by
  induction ps generalizing live with
  | nil => simp [freeAll]
  | cons p ps ih =>
    rw [List.nodup_cons] at hnodup
    rw [List.forall_mem_cons] at hlive
    have hrest : ∀ q ∈ ps, Block.token q ∈ live.erase (.token p) := by
      intro q hq
      refine Finset.mem_erase.mpr ⟨?_, hlive.2 q hq⟩
      rintro ⟨⟩
      exact hnodup.1 hq
    rw [freeAll, free, if_pos hlive.1, Option.bind_some, ih hnodup.2 hrest]
    congr 1
    ext b
    simp only [Finset.mem_filter, Finset.mem_erase, List.forall_mem_cons]
    tauto

theorem freeCommand_eq {ps : List Nat} (hargs : c.commandArgs = ps.map some ++ [none]) (live : Finset Block) :
    freeCommand c live = freeAll c.pointers live := by
  have hpointers : c.pointers = ps ++ (c.redirectInPath.toList ++ c.redirectOutPath.toList) := by
    simp [PipelineCommand.pointers, hargs]
  simp only [freeCommand, hpointers, hargs, freeArgs_eq, freePath_eq, freeAll_append, Option.bind_eq_bind]

/-- The loop frees the pointers of all commands. -/
theorem foldlM_freeCommand (hsome : ∀ c ∈ cs, c ≠ none)
    (hends : ∀ c, some c ∈ cs → ∃ ps : List Nat, c.commandArgs = ps.map some ++ [none]) :
    cs.reduceOption.foldlM (fun live c => freeCommand c live) live = freeAll (pointers cs) live := by
  induction cs generalizing live with
  | nil => rfl
  | cons c cs ih =>
    rw [List.forall_mem_cons] at hsome
    obtain ⟨c, rfl⟩ := Option.ne_none_iff_exists'.mp hsome.1
    obtain ⟨ps, hps⟩ := hends c List.mem_cons_self
    have hcons : pointers (some c :: cs) = c.pointers ++ pointers cs := by simp [pointers]
    rw [List.reduceOption_cons_of_some, List.foldlM_cons, freeCommand_eq hps, hcons, freeAll_append]
    exact congrArg _ (funext fun live => ih hsome.2 fun d hd => hends d (List.mem_cons_of_mem _ hd))

/-! ### The pipeline -/

variable {line : List Char}

/-- The tokens that no command of the pipeline points to. -/
def unreferenced (tokens : List Token) (p : Pipeline Nat) : Finset Block :=
  ((Finset.range tokens.length).filter (· ∉ pointers p.commands)).image .token

theorem pipelineFree_of_distinct {p : Pipeline Nat} (hchain : Chained PipelineCommand.next n p.commands) (hn : 0 < n)
    (hends : ∀ c, some c ∈ p.commands → ∃ ps : List Nat, c.commandArgs = ps.map some ++ [none])
    (hsome : ∀ c ∈ p.commands, c ≠ none) (hnodup : (pointers p.commands).Nodup)
    (hlt : ∀ q ∈ pointers p.commands, q < tokens.length) :
    pipelineFree p (blocksLeft tokens) = some (unreferenced tokens p) := by
  have hwalk := @Chained.visitChain_eq_foldlM _ _ _ freeCommand _ _ hchain hsome hn (blocksLeft tokens)
  rw [foldlM_freeCommand hsome hends, freeAll_of_nodup hnodup
    (fun q hq => by simp [blocksLeft, hlt q hq])] at hwalk
  rw [pipelineFree, hchain.length, hwalk]
  simp only [Option.bind_eq_bind, Option.bind_some]
  rw [free, if_pos (by simp [blocksLeft]), Option.bind_some, free, if_pos (by simp [blocksLeft])]
  congr 1
  ext b
  cases b with
  | token j =>
    have hmem : (∀ q ∈ pointers p.commands, ¬ j = q) ↔ j ∉ pointers p.commands :=
      ⟨fun h hj => h j hj rfl, fun h q hq heq => h (heq ▸ hq)⟩
    simp [blocksLeft, unreferenced, hmem]
  | commands => simp [unreferenced]
  | pipeline => simp [unreferenced]

theorem Parsed.chained {vs : List (Option PipelineCommand)}
    (h : Parsed tokens (findNumCmds tokens) 0 0 vs) :
    Chained PipelineCommand.next (findNumCmds tokens) vs := by
  constructor
  · rw [h.length, pipesFrom, List.drop_zero, findNumCmds, Nat.add_comm]
  · intro m c hc
    have hnext := h.next_eq hc
    rwa [Nat.zero_add] at hnext

theorem findNumCmds_pos (tokens : List Token) : 0 < findNumCmds tokens := by
  rw [findNumCmds]
  omega

/-- The commands that the pointers lead to are those of `Parsed`. -/
theorem parsed_read {p : Pipeline Nat} (h : buildTokens tokens = some (n, p)) :
    tokens ≠ [] ∧ n = findNumCmds tokens ∧
      Parsed tokens (findNumCmds tokens) 0 0 (p.commands.map (Option.map (PipelineCommand.read tokens))) := by
  have hread := buildTokens_read tokens
  rw [h] at hread
  exact buildTokens_parsed hread

/-- A pipeline in which no command is missing is freed. -/
theorem pipelineFree_of_parses (h : Parses tokens) :
    ∃ n p, buildTokens tokens = some (n, p) ∧ buildTokens tokens = some (n, p.read tokens) ∧
      pipelineFree p (blocksLeft tokens) = some (unreferenced tokens p) := by
  rcases buildTokens_cases h.room h.few with ⟨hnil, -⟩ | ⟨vs, bg, -, hbuild, -⟩
  · exact absurd hnil h.ne
  · have hread := buildTokens_read tokens
    rw [hbuild] at hread
    obtain ⟨⟨n, p⟩, hat, heq⟩ := Option.map_eq_some_iff.mp hread.symm
    obtain ⟨-, rfl, hparsed⟩ := parsed_read hat
    have hall : ∀ c ∈ p.commands, c ≠ none := by
      simpa using hparsed.assigned_iff.mpr ⟨List.length_pos_iff.mpr h.ne, h.last⟩
    obtain ⟨hnodup, hrange, hends⟩ := parseCommands_distinct rfl (buildTokens_commands hat).2.2 hall
    refine ⟨_, p, hat, by rw [hbuild, heq], ?_⟩
    exact pipelineFree_of_distinct (hparsed.chained.of_map fun _ => rfl) (findNumCmds_pos _) hends hall hnodup
      fun q hq => (hrange q hq).2

theorem last_of_pipelineFree {p : Pipeline Nat} {left : Finset Block} (hbuild : buildTokens tokens = some (n, p))
    (hfree : pipelineFree p live = some left) : tokens ≠ [] ∧ tokens.getLast? ≠ some ['|'] := by
  obtain ⟨hne, rfl, hparsed⟩ := parsed_read hbuild
  simp only [pipelineFree, Option.bind_eq_bind, Option.bind_eq_some_iff] at hfree
  obtain ⟨live', hlive, -⟩ := hfree
  have hchain : Chained PipelineCommand.next (findNumCmds tokens) p.commands :=
    hparsed.chained.of_map fun _ => rfl
  exact ⟨hne, (hparsed.assigned_iff.mp (by simpa using hchain.forall_of_visitChain hlive)).2⟩

/-- **A pipeline is freed once**: whatever is on the heap, `pipeline_free` frees what `pipeline_build`
returned without freeing a block twice, or one that is not allocated, or reading a command that was not
assigned, just when the line ends in a command and less than `MAX_ARGV_LENGTH` characters of it end a token.
The tokens that no command points to are left. -/
theorem pipelineFree_iff (line : List Char) (hline : Char.ofNat 0 ∉ line) :
    (∀ heap, ∃ n p, pipelineBuildAt heap line = some (n, p) ∧
      pipelineBuildIn heap line = some (n, p.read (tokensIn heap line)) ∧
      pipelineFree p (blocksLeft (tokensIn heap line)) = some (unreferenced (tokensIn heap line) p)) ↔
    EndsInCommand line ∧ tokenEnds line < maxArgvLength := by
  constructor
  · intro h
    refine parsable_of_last hline ?_ ?_
    · obtain ⟨n, p, -, hbuild, -⟩ := h (garbage line ['?'])
      rw [hbuild]
      rfl
    · obtain ⟨n, p, hbuild, -, hfree⟩ := h fun _ => []
      exact last_of_pipelineFree hbuild hfree
  · intro h heap
    exact pipelineFree_of_parses (Parsable.parses h hline heap)

/-- The signs and the path that was replaced are left of `a > b > c &`. -/
theorem pipelineFree_replaced :
    ∃ p, pipelineBuildAt (fun _ => []) "a > b > c &\n".toList = some (1, p) ∧
      pipelineFree p (blocksLeft (tokensIn (fun _ => []) "a > b > c &\n".toList)) =
        some {.token 1, .token 2, .token 3, .token 5} := by
  obtain ⟨n, p, hbuild, -, hfree⟩ := (pipelineFree_iff "a > b > c &\n".toList (by decide)).mpr
    ⟨⟨'&', by decide, by decide⟩, by decide⟩ fun _ => []
  have hp : pipelineBuildAt (fun _ => []) "a > b > c &\n".toList =
      some (1, ⟨[some ⟨[some 0, none], none, some 4, none⟩], true⟩) := by decide
  obtain ⟨rfl, rfl⟩ := Prod.mk.inj (Option.some.inj (hbuild.symm.trans hp))
  exact ⟨_, hbuild, hfree.trans (by decide)⟩

end EC440.SimpleShell
