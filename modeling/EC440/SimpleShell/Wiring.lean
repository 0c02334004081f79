import EC440.SimpleShell.Shell
import Mathlib.Data.Set.Insert

/-!
# The wiring of a pipeline

`Holds` says that `pipefd` holds the pipes of a pipeline, and `Wired` what the processes make of them: the
write end of each pipe is the standard output of one child and the read end the standard input of the next
one, and nobody has another descriptor for either.  `multi_commands` copies the two ends a child needs before it
closes all of them, and the descriptors of the pipes are none of the standard ones, so the copies stay
(`multiCommands_file`).

The pipes that `main` makes are held in that way (`holds_createPipes`), those behind the end of `pipefd`
left aside, and `redirection` moves no end of a pipe (`Wired.redirection`).  So the commands of every run of the
shell are wired (`run_wired`).
-/

namespace EC440.SimpleShell

open EC440.Lib

variable {pipefd pipes : Nat → Nat} {n k i fd : Nat} {t c : Table File} {p : Processes} {s : Shell}

/-- `pipefd` holds `n - 1` pipes, whose numbers are `pipes`: distinct descriptors above the standard ones, and
the only ones for the ends of the pipes. -/
structure Holds (pipefd : Nat → Nat) (n : Nat) (pipes : Nat → Nat) (t : Table File) : Prop where
  distinct : ∀ m m', m < 2 * (n - 1) → m' < 2 * (n - 1) → pipefd m = pipefd m' → m = m'
  above : ∀ m, m < 2 * (n - 1) → 2 < pipefd m
  readEnd : ∀ i fd, i < n - 1 → (t.file fd = some (.readEnd (pipes i)) ↔ fd = pipefd (2 * i))
  writeEnd : ∀ i fd, i < n - 1 → (t.file fd = some (.writeEnd (pipes i)) ↔ fd = pipefd (2 * i + 1))

/-- The only descriptors for the pipes are the standard output of a child and the standard input of the next
one.  The first input and the last output are those of the table `t`. -/
structure Wired (n : Nat) (pipes : Nat → Nat) (t : Table File) (p : Processes) : Prop where
  parent : ∀ i fd, i < n - 1 → p.parent.file fd ≠ some (.writeEnd (pipes i)) ∧
    p.parent.file fd ≠ some (.readEnd (pipes i))
  length : p.children.length = n
  writeEnd : ∀ i k c fd, i < n - 1 → p.children[k]? = some c →
    (c.file fd = some (.writeEnd (pipes i)) ↔ k = i ∧ fd = 1)
  readEnd : ∀ i k c fd, i < n - 1 → p.children[k]? = some c →
    (c.file fd = some (.readEnd (pipes i)) ↔ k = i + 1 ∧ fd = 0)
  stdin : ∀ c, p.children[0]? = some c → c.file 0 = t.file 0
  stdout : ∀ c, p.children[n - 1]? = some c → c.file 1 = t.file 1

/-! ### One child -/

theorem Holds.pipes_inj (h : Holds pipefd n pipes t) {i' : Nat} (hi : i < n - 1) (hi' : i' < n - 1)
    (heq : pipes i = pipes i') : i = i' := by
  have hfile := (h.readEnd i (pipefd (2 * i)) hi).mpr rfl
  rw [heq, h.readEnd i' _ hi'] at hfile
  have hsame := h.distinct _ _ (by omega) (by omega) hfile
  omega

theorem Holds.not_std (h : Holds pipefd n pipes t) (hfd : fd ≤ 2) :
    ¬ ∃ j, j < 2 * (n - 1) ∧ pipefd j = fd := by
  rintro ⟨j, hj, rfl⟩
  have habove := h.above j hj
  omega

/-- **The table of a child**: the pipes are closed, and its two ends are at the standard descriptors. -/
theorem multiCommands_file (h : Holds pipefd n pipes t) (hk : k < n) (fd : Nat) :
    (multiCommands pipefd n k t).file fd =
      if ∃ j, j < 2 * (n - 1) ∧ pipefd j = fd then none
      else if fd = 1 ∧ k < n - 1 then some (.writeEnd (pipes k))
      else if fd = 0 ∧ k ≠ 0 then some (.readEnd (pipes (k - 1)))
      else t.file fd := by
  obtain ⟨t₁, ht₁, hfile₁⟩ := t.exists_dup2_if 0 (show k ≠ 0 → t.file (pipefd ((k - 1) * 2)) = _ by
    intro hzero
    rw [Nat.mul_comm, (h.readEnd (k - 1) _ (by omega)).mpr rfl])
  obtain ⟨t₂, ht₂, hfile₂⟩ := t₁.exists_dup2_if 1 (show k < n - 1 → t₁.file (pipefd (k * 2 + 1)) = _ by
    intro hlast
    -- the descriptor is not the one that was overwritten
    have habove := h.above (k * 2 + 1) (by omega)
    rw [hfile₁, if_neg (by omega), Nat.mul_comm, (h.writeEnd k _ hlast).mpr rfl])
  rw [multiCommands, ht₁]
  dsimp only
  rw [ht₂]
  dsimp only
  rw [closePipes, Table.file_closeEach, hfile₂, hfile₁]

theorem multiCommands_writeEnd (h : Holds pipefd n pipes t) (hk : k < n) (hi : i < n - 1) :
    (multiCommands pipefd n k t).file fd = some (.writeEnd (pipes i)) ↔ k = i ∧ fd = 1 := by
  rw [multiCommands_file h hk]
  constructor
  · intro hfile
    split at hfile
    · cases hfile
    · next hopen =>
      split at hfile
      · next hout =>
        have heq : pipes k = pipes i := by simpa using hfile
        exact ⟨h.pipes_inj hout.2 hi heq, hout.1⟩
      · split at hfile
        · simp at hfile
        · -- any other descriptor for the pipe is closed
          rw [h.writeEnd i fd hi] at hfile
          exact absurd ⟨2 * i + 1, by omega, hfile.symm⟩ hopen
  · rintro ⟨rfl, rfl⟩
    rw [if_neg (h.not_std (by omega)), if_pos ⟨rfl, hi⟩]

theorem multiCommands_readEnd (h : Holds pipefd n pipes t) (hk : k < n) (hi : i < n - 1) :
    (multiCommands pipefd n k t).file fd = some (.readEnd (pipes i)) ↔ k = i + 1 ∧ fd = 0 := by
  rw [multiCommands_file h hk]
  constructor
  · intro hfile
    split at hfile
    · cases hfile
    · next hopen =>
      split at hfile
      · simp at hfile
      · split at hfile
        · next hin =>
          have heq : pipes (k - 1) = pipes i := by simpa using hfile
          have hprev := h.pipes_inj (by omega) hi heq
          omega
        · rw [h.readEnd i fd hi] at hfile
          exact absurd ⟨2 * i, by omega, hfile.symm⟩ hopen
  · rintro ⟨rfl, rfl⟩
    rw [if_neg (h.not_std (by omega)), if_neg (by omega), if_pos ⟨rfl, by omega⟩, Nat.add_sub_cancel]

/-! ### All processes -/

theorem length_forkLoop (m k : Nat) : (forkLoop pipefd n t m k).length = m := by
  induction m generalizing k with
  | zero => rfl
  | succ m ih => rw [forkLoop, List.length_cons, ih]

theorem getElem?_forkLoop (hn : 1 < n) (m : Nat) :
    (forkLoop pipefd n t m k)[i]? = if i < m then some (multiCommands pipefd n (k + i) t) else none := by
  induction m generalizing k i with
  | zero => simp [forkLoop]
  | succ m ih =>
    cases i with
    | zero => simp [forkLoop, hn]
    | succ i =>
      rw [forkLoop, List.getElem?_cons_succ, ih, Nat.add_right_comm, Nat.add_assoc]
      simp

/-- The children of the fork loop. -/
theorem children_launch (hn : 1 < n) (hc : (launch pipefd n t).children[k]? = some c) :
    k < n ∧ c = multiCommands pipefd n k t := by
  rw [launch, getElem?_forkLoop hn] at hc
  split at hc
  · next hk => exact ⟨hk, by simpa using hc.symm⟩
  · cases hc

theorem Holds.wired (h : Holds pipefd n pipes t) (hn : 2 ≤ n) : Wired n pipes t (launch pipefd n t) := by
  constructor
  · intro i fd hi
    have hclosed : ∀ f, (launch pipefd n t).parent.file fd = some f →
        t.file fd = some f ∧ ∀ j, j < 2 * (n - 1) → pipefd j ≠ fd :=
      fun f => (Table.file_closeEach_eq_some t).mp
    constructor
    · intro hfile
      obtain ⟨hopen, hne⟩ := hclosed _ hfile
      exact hne (2 * i + 1) (by omega) ((h.writeEnd i fd hi).mp hopen).symm
    · intro hfile
      obtain ⟨hopen, hne⟩ := hclosed _ hfile
      exact hne (2 * i) (by omega) ((h.readEnd i fd hi).mp hopen).symm
  · exact length_forkLoop n 0
  · intro i k c fd hi hc
    obtain ⟨hk, rfl⟩ := children_launch hn hc
    exact multiCommands_writeEnd h hk hi
  · intro i k c fd hi hc
    obtain ⟨hk, rfl⟩ := children_launch hn hc
    exact multiCommands_readEnd h hk hi
  · intro c hc
    obtain ⟨hk, rfl⟩ := children_launch hn hc
    rw [multiCommands_file h hk, if_neg (h.not_std (by omega)), if_neg (by omega), if_neg (by omega)]
  · intro c hc
    obtain ⟨hk, rfl⟩ := children_launch hn hc
    rw [multiCommands_file h hk, if_neg (h.not_std (by omega)), if_neg (by omega), if_neg (by omega)]

/-- The table of a process: of the parent, or of the child with a number. -/
def Processes.table (p : Processes) : Option Nat → Option (Table File)
  | none => some p.parent
  | some k => p.children[k]?

/-- The processes and descriptors that have the file `f` open. -/
def Processes.holders (p : Processes) (f : File) : Set (Option Nat × Nat) :=
  {x | ∃ t, p.table x.1 = some t ∧ t.file x.2 = some f}

theorem Wired.holders_eq (h : Wired n pipes t p) {f : File} {x : Nat × Nat} (hx : x.1 < n)
    (hparent : ∀ fd, p.parent.file fd ≠ some f)
    (hchild : ∀ k c fd, p.children[k]? = some c → (c.file fd = some f ↔ k = x.1 ∧ fd = x.2)) :
    p.holders f = {(some x.1, x.2)} := by
  ext ⟨who, fd⟩
  rw [Set.mem_singleton_iff, Prod.mk.injEq]
  constructor
  · rintro ⟨c, hc, hfd⟩
    cases who with
    | none =>
      obtain rfl := Option.some.inj hc
      exact absurd hfd (hparent fd)
    | some k =>
      obtain ⟨rfl, rfl⟩ := (hchild k c fd hc).mp hfd
      exact ⟨rfl, rfl⟩
  · rintro ⟨rfl, rfl⟩
    have hget : p.children[x.1]? = some _ := List.getElem?_eq_getElem (h.length.symm ▸ hx)
    exact ⟨_, hget, (hchild _ _ _ hget).mpr ⟨rfl, rfl⟩⟩

/-- **Pipeline wiring**: once every child has run `multi_commands` and the parent has closed `pipefd`, the
write end of a pipe is open as the standard output of one child only, and the read end as the standard input of
the next one only.  The first input and the last output are the original ones. -/
theorem wired_launch (n : Nat) (hn : 2 ≤ n) (pipefd pipes : Nat → Nat) (t : Table File)
    (h : Holds pipefd n pipes t) :
    (launch pipefd n t).children.length = n ∧
      (∀ i, i < n - 1 →
        (launch pipefd n t).holders (.writeEnd (pipes i)) = {(some i, 1)} ∧
        (launch pipefd n t).holders (.readEnd (pipes i)) = {(some (i + 1), 0)}) ∧
      (∀ c, (launch pipefd n t).children[0]? = some c → c.file 0 = t.file 0) ∧
      ∀ c, (launch pipefd n t).children[n - 1]? = some c → c.file 1 = t.file 1 := by
  have hwired := h.wired hn
  refine ⟨hwired.length, ?_, hwired.stdin, hwired.stdout⟩
  intro i hi
  constructor
  · exact @Wired.holders_eq _ _ _ _ hwired _ (i, 1) (by dsimp only; omega)
      (fun fd => (hwired.parent i fd hi).1) fun k c fd => hwired.writeEnd i k c fd hi
  · exact @Wired.holders_eq _ _ _ _ hwired _ (i + 1, 0) (by dsimp only; omega)
      (fun fd => (hwired.parent i fd hi).2) fun k c fd => hwired.readEnd i k c fd hi

/-! ### The pipes of `main` -/

/-- The number of a pipe, when the file is an end of one. -/
def File.pipe? : File → Option Nat
  | .readEnd q | .writeEnd q => some q
  | .other _ => none

theorem pipe?_pipeEnd (pipes : Nat → Nat) (m : Nat) : (pipeEnd pipes m).pipe? = some (pipes (m / 2)) := by
  rw [pipeEnd]
  split
  · rfl
  · rfl

/-- The standard descriptors are open, and no end of a pipe that is not made yet. -/
structure Ready (s : Shell) : Prop where
  std : ∀ fd, fd ≤ 2 → ∃ f, s.table.file fd = some f
  made : ∀ fd f q, s.table.file fd = some f → f.pipe? = some q → q < s.pipes

theorem holds_createPipes (hs : Ready s) (n : Nat) (contents : Nat → Nat) :
    Holds (createPipes n contents s).pipefd n (s.pipes + ·) (createPipes n contents s).table := by
  have hp := piped_createPipes n contents s
  -- a pipe made now is open at its own two descriptors only
  have hends : ∀ m fd, m < 2 * (n - 1) →
      ((createPipes n contents s).table.file fd = some (pipeEnd (s.pipes + ·) m) ↔
        fd = (createPipes n contents s).pipefd m) := by
    intro m fd hm
    refine ⟨fun hfd => ?_, fun hfd => hfd ▸ hp.ends m (by omega)⟩
    rcases hp.file_cases hfd with ⟨m', -, rfl, heq⟩ | hold
    · rw [pipeEnd_inj heq]
    · have hlt := hs.made fd _ _ hold (pipe?_pipeEnd _ m)
      omega
  constructor
  · intro m m' hm hm' heq
    exact hp.distinct (by omega) (by omega) heq
  · intro m hm
    by_contra hle
    obtain ⟨f, hf⟩ := hs.std _ (Nat.not_lt.mp hle)
    have hfresh := hp.fresh m (by omega)
    dsimp only at hfresh
    rw [hf] at hfresh
    cases hfresh
  · intro i fd hi
    rw [← hends (2 * i) fd (by omega), pipeEnd_even]
  · intro i fd hi
    rw [← hends (2 * i + 1) fd (by omega), pipeEnd_odd]

theorem Ready.shellRound (hs : Ready s) (r : Nat × (Nat → Nat)) : Ready (shellRound s r).2 := by
  have hp := piped_createPipes r.1 r.2 s
  constructor
  · intro fd hfd
    obtain ⟨f, hf⟩ := hs.std fd hfd
    exact ⟨f, shellRound_keeps hf⟩
  · intro fd f q hf hq
    show q < (createPipes r.1 r.2 s).pipes
    rw [hp.pipes]
    rcases hp.file_cases ((Table.file_closeEach_eq_some _).mp hf).1 with ⟨m, hm, -, rfl⟩ | hold
    · rw [pipe?_pipeEnd, Option.some.injEq] at hq
      dsimp only at hq ⊢
      omega
    · have hlt := hs.made fd f q hold hq
      dsimp only
      omega

theorem ready_run (hs : Ready s) (rs : List (Nat × (Nat → Nat))) : Ready (run shellRound s rs) := by
  induction rs generalizing s with
  | nil => exact hs
  | cons r rs ih => exact ih (hs.shellRound r)

/-- **Every round of a run wires its pipeline.** -/
theorem run_wired (hs : Ready s) (rs : List (Nat × (Nat → Nat))) (r : Nat × (Nat → Nat))
    (hr : 2 ≤ r.1) :
    Wired r.1 ((run shellRound s rs).pipes + ·) (createPipes r.1 r.2 (run shellRound s rs)).table
      (shellRound (run shellRound s rs) r).1 :=
  (holds_createPipes (ready_run hs rs) r.1 r.2).wired hr

theorem ready_freshShell : Ready freshShell := by
  constructor
  · intro fd hfd
    exact ⟨.other fd, if_pos (by omega)⟩
  · intro fd f q hf hq
    obtain ⟨-, rfl⟩ : fd < 3 ∧ File.other fd = f := by simpa [freshShell] using hf
    cases hq

/-- Two commands, with the pipes that `main` makes for them. -/
theorem wired_launch_two :
    (launch (createPipes 2 (fun _ => 0) freshShell).pipefd 2
      (createPipes 2 (fun _ => 0) freshShell).table).holders (.writeEnd 0) = {(some 0, 1)} :=
  ((wired_launch 2 (by decide) _ _ _ (holds_createPipes ready_freshShell 2 _)).2.1 0 (by decide)).1

/-! ### Up to `execvp` -/

/-- A file that is opened for a redirection changes no descriptor of another file, except for the target. -/
theorem redirect_file_iff {openFile : Token → Option Nat} {path : Token} {target : Nat} {g : File}
    (hg : ∀ number, g ≠ .other number) (htarget : t.file target ≠ some g) :
    (redirect openFile path target t).file fd = some g ↔ t.file fd = some g := by
  rw [redirect]
  cases openFile path with
  | none => rfl
  | some number =>
    have hlowest : t.file t.lowest ≠ some g := by simp [t.file_lowest]
    have hother : some (File.other number) ≠ some g := fun h => hg number (Option.some.inj h).symm
    dsimp only
    split
    · have hinstalled : (t.install t.lowest (.other number)).file t.lowest = some (.other number) := by simp
      rw [Table.dup2_of_open _ hinstalled, Option.getD_some, Table.file_close, Table.file_install,
        Table.file_install]
      by_cases hf : fd = t.lowest
      · rw [if_pos hf, hf]
        exact iff_of_false (by simp) hlowest
      · rw [if_neg hf]
        by_cases hto : fd = target
        · rw [if_pos hto, hto]
          exact iff_of_false hother htarget
        · rw [if_neg hto, if_neg hf]
    · rw [Table.file_install]
      by_cases hf : fd = t.lowest
      · rw [if_pos hf, hf]
        exact iff_of_false hother hlowest
      · rw [if_neg hf]

theorem redirectWhen_file_iff {openFile : Token → Option Nat} {rdr : Option Token} {now : Bool}
    {target : Nat} {g : File} (hg : ∀ number, g ≠ .other number) (htarget : now = true → t.file target ≠ some g) :
    (redirectWhen openFile rdr now target t).file fd = some g ↔ t.file fd = some g := by
  cases rdr with
  | none => rfl
  | some path =>
    rw [redirectWhen]
    split
    · next hnow => exact redirect_file_iff hg (htarget hnow)
    · rfl

/-- `redirection` leaves a pipe that is neither the input of the first command nor the output of the last
one. -/
theorem redirection_file_iff {openFile : Token → Option Nat} {rdrIn rdrOut : Option Token} {g : File}
    (hg : ∀ number, g ≠ .other number) (hin : k = 0 → t.file 0 ≠ some g)
    (hout : k = n - 1 → t.file 1 ≠ some g) :
    (redirection openFile rdrIn rdrOut n k t).file fd = some g ↔ t.file fd = some g := by
  have hfirst : ∀ fd, (redirectWhen openFile rdrIn (k == 0) 0 t).file fd = some g ↔ t.file fd = some g :=
    fun fd => redirectWhen_file_iff hg (by simpa using hin)
  rw [redirection]
  refine (redirectWhen_file_iff hg ?_).trans (hfirst fd)
  intro hlast
  rw [Ne, hfirst]
  exact hout (by simpa using hlast)

/-- The wiring is still there when the child gets to its `execvp`. -/
theorem Wired.redirection (h : Wired n pipes t p) (hi : i < n - 1) (hc : p.children[k]? = some c)
    (openFile : Token → Option Nat) (rdrIn rdrOut : Option Token) :
    ((redirection openFile rdrIn rdrOut n k c).file fd = some (.writeEnd (pipes i)) ↔ k = i ∧ fd = 1) ∧
      ((redirection openFile rdrIn rdrOut n k c).file fd = some (.readEnd (pipes i)) ↔
        k = i + 1 ∧ fd = 0) := by
  constructor
  · rw [redirection_file_iff (by simp), h.writeEnd i k c fd hi hc]
    · intro _
      rw [Ne, h.writeEnd i k c 0 hi hc]
      omega
    · intro hk
      rw [Ne, h.writeEnd i k c 1 hi hc]
      omega
  · rw [redirection_file_iff (by simp), h.readEnd i k c fd hi hc]
    · intro hk
      rw [Ne, h.readEnd i k c 0 hi hc]
      omega
    · intro _
      rw [Ne, h.readEnd i k c 1 hi hc]
      omega

end EC440.SimpleShell
