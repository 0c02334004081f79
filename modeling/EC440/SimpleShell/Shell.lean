import EC440.Lib.Files
import EC440.Lib.Run
import EC440.SimpleShell.Parser

/-!
# The loop of the shell

The descriptors of `main` and of its children in `myshell.c`: the loop that makes the pipes, the
fork loop with `multi_commands` in each child, and the loop that closes the pipes in the parent.
`pipe` and `fork` succeed, and `dup2` and `close` fail on a closed descriptor only.  What a
child does behind `multi_commands`, up to its `execvp`, is `redirection`.

The array `pipefd` is made anew in each round, with `2 * (num_commands - 1)` elements of any
contents.  It is the memory from its address on, so that a store behind its end is kept;
`stored` are the indices of the stores.

`num_commands` is positive, and each `|` ends a command, so a pipeline whose commands are all
assigned has as many of them in its chain.
-/

namespace EC440.SimpleShell

open EC440.Lib

/-- An open file.  The pipes are numbered in the order in which they are made. -/
inductive File
  | readEnd (pipe : Nat)
  | writeEnd (pipe : Nat)
  | other (number : Nat)
  deriving DecidableEq

/-- The parent, with the number of pipes it has made. -/
structure Shell where
  table : Table File
  pipes : Nat
  pipefd : Nat → Nat
  stored : List Nat

/-- `pipe(pipefd + o)`: the two ends are opened at the lowest descriptors. -/
def pipe (o : Nat) (s : Shell) : Shell :=
  let r := s.table.lowest
  let t := s.table.install r (.readEnd s.pipes)
  let w := t.lowest
  { table := t.install w (.writeEnd s.pipes)
    pipes := s.pipes + 1
    pipefd := Function.update (Function.update s.pipefd o r) (o + 1) w
    stored := s.stored ++ [o, o + 1] }

/-- `for (i = 0; i < m; i++) pipe(pipefd + i*2)`. -/
def pipeLoop : Nat → Shell → Shell
  | 0, s => s
  | i + 1, s => pipe (i * 2) (pipeLoop i s)

/-- The pipes of a pipeline of `n` commands, where `pipefd` starts with the given contents. -/
def createPipes (n : Nat) (contents : Nat → Nat) (s : Shell) : Shell :=
  pipeLoop (2 * (n - 1)) { s with pipefd := contents, stored := [] }

/-- `for (j = 0; j < 2 * (num_commands - 1); j++) close(pipefd[j])`. -/
def closePipes (pipefd : Nat → Nat) (n : Nat) (t : Table File) : Table File :=
  Table.closeEach pipefd (2 * (n - 1)) t

/-- `multi_commands`, on the table of the child. -/
def multiCommands (pipefd : Nat → Nat) (numCommands currCmdNum : Nat) (t : Table File) : Table File :=
  match if currCmdNum ≠ 0 then t.dup2 (pipefd ((currCmdNum - 1) * 2)) 0 else some t with
  | none => t
  | some t =>
    match if currCmdNum < numCommands - 1 then t.dup2 (pipefd (currCmdNum * 2 + 1)) 1 else some t with
    | none => t
    | some t => closePipes pipefd numCommands t

/-- `open` at the lowest descriptor, and the file moved to the descriptor `target` when the one it is opened
at is not `0`. -/
def redirect (openFile : Token → Option Nat) (path : Token) (target : Nat) (t : Table File) : Table File :=
  match openFile path with
  | none => t
  | some number =>
    let f := t.lowest
    let t := t.install f (.other number)
    if f > 0 then ((t.dup2 f target).getD t).close f else t

/-- `if (rdr && now)`, for the path `rdr`. -/
def redirectWhen (openFile : Token → Option Nat) (rdr : Option Token) (now : Bool) (target : Nat)
    (t : Table File) : Table File :=
  match rdr with
  | some path => if now then redirect openFile path target t else t
  | none => t

/-- `redirection`, where `openFile` is the file that a path leads to. -/
def redirection (openFile : Token → Option Nat) (rdrIn rdrOut : Option Token)
    (numCommands currCmdNum : Nat) (t : Table File) : Table File :=
  let t := redirectWhen openFile rdrIn (currCmdNum == 0) 0 t
  redirectWhen openFile rdrOut (currCmdNum == numCommands - 1) 1 t

/-- The fork loop, with `c` commands to go: the tables of the children.  Each one starts with a copy
of the table of the parent, which the loop does not change. -/
def forkLoop (pipefd : Nat → Nat) (numCommands : Nat) (t : Table File) : Nat → Nat → List (Table File)
  | 0, _ => []
  | c + 1, currCmdNum =>
    (if numCommands > 1 then multiCommands pipefd numCommands currCmdNum t else t) ::
      forkLoop pipefd numCommands t c (currCmdNum + 1)

/-- The parent and its children. -/
structure Processes where
  parent : Table File
  children : List (Table File)

/-- The processes once the parent has closed the pipes. -/
def launch (pipefd : Nat → Nat) (n : Nat) (t : Table File) : Processes where
  parent := closePipes pipefd n t
  children := forkLoop pipefd n t n 0

/-- One round of the loop of `main`, for a pipeline of `n` commands: the processes it starts and the shell
it leaves. -/
def shellRound (s : Shell) (r : Nat × (Nat → Nat)) : Processes × Shell :=
  let s := createPipes r.1 r.2 s
  (launch s.pipefd r.1 s.table, { s with table := (launch s.pipefd r.1 s.table).parent })

/-! ### The pipes that are made -/

/-- The file at the index `m` of an array that holds the pipes `pipes`. -/
def pipeEnd (pipes : Nat → Nat) (m : Nat) : File :=
  if m % 2 = 0 then .readEnd (pipes (m / 2)) else .writeEnd (pipes (m / 2))

theorem pipeEnd_even (pipes : Nat → Nat) (j : Nat) : pipeEnd pipes (2 * j) = .readEnd (pipes j) := by
  rw [pipeEnd, if_pos (by omega), Nat.mul_div_cancel_left j (by decide)]

theorem pipeEnd_odd (pipes : Nat → Nat) (j : Nat) :
    pipeEnd pipes (2 * j + 1) = .writeEnd (pipes j) := by
  rw [pipeEnd, if_neg (by omega), show (2 * j + 1) / 2 = j by omega]

theorem pipeEnd_inj {q m m' : Nat} (h : pipeEnd (q + ·) m = pipeEnd (q + ·) m') : m = m' := by
  rw [pipeEnd, pipeEnd] at h
  split at h
  · split at h
    · rw [File.readEnd.injEq] at h
      omega
    · cases h
  · split at h
    · cases h
    · rw [File.writeEnd.injEq] at h
      omega

/-- What `i` rounds of the loop with `pipe` make of the shell `s`. -/
structure Piped (s : Shell) (i : Nat) (s' : Shell) : Prop where
  pipes : s'.pipes = s.pipes + i
  stored : s'.stored = s.stored ++ List.range (2 * i)
  ends : ∀ m, m < 2 * i → s'.table.file (s'.pipefd m) = some (pipeEnd (s.pipes + ·) m)
  fresh : ∀ m, m < 2 * i → s.table.file (s'.pipefd m) = none
  kept : ∀ fd, (∀ m, m < 2 * i → s'.pipefd m ≠ fd) → s'.table.file fd = s.table.file fd

/-- `pipe` opens two closed descriptors and changes no other. -/
theorem pipe_spec (o : Nat) (s : Shell) :
    ∃ r w, r ≠ w ∧ s.table.file r = none ∧ s.table.file w = none ∧
      (pipe o s).pipefd = Function.update (Function.update s.pipefd o r) (o + 1) w ∧
      ∀ fd, (pipe o s).table.file fd =
        if fd = w then some (.writeEnd s.pipes) else if fd = r then some (.readEnd s.pipes)
        else s.table.file fd := by
  have hw := (s.table.install s.table.lowest (.readEnd s.pipes)).file_lowest
  rw [Table.file_install] at hw
  split at hw
  · cases hw
  · next hne => exact ⟨_, _, Ne.symm hne, s.table.file_lowest, hw, rfl, fun fd => by simp [pipe]⟩

theorem Piped.pipe {s s' : Shell} {i : Nat} (h : Piped s i s') :
    Piped s (i + 1) (SimpleShell.pipe (i * 2) s') := by
  obtain ⟨r, w, hrw, hr, hw, hpipefd, hfile⟩ := pipe_spec (i * 2) s'
  have hold : ∀ m, m < 2 * i → (SimpleShell.pipe (i * 2) s').pipefd m = s'.pipefd m := by
    intro m hm
    rw [hpipefd, Function.update_of_ne (by omega), Function.update_of_ne (by omega)]
  have hread : (SimpleShell.pipe (i * 2) s').pipefd (2 * i) = r := by
    rw [hpipefd, Function.update_of_ne (by omega), Nat.mul_comm, Function.update_self]
  have hwrite : (SimpleShell.pipe (i * 2) s').pipefd (2 * i + 1) = w := by
    rw [hpipefd, Nat.mul_comm 2 i, Function.update_self]
  -- a descriptor of an earlier pipe is open, so it is not taken again
  have hne : ∀ m, m < 2 * i → s'.pipefd m ≠ r ∧ s'.pipefd m ≠ w := by
    intro m hm
    have hopen : s'.table.file (s'.pipefd m) ≠ none := by simp [h.ends m hm]
    exact ⟨fun he => hopen (he ▸ hr), fun he => hopen (he ▸ hw)⟩
  have hcases : ∀ m, m < 2 * (i + 1) → m < 2 * i ∨ m = 2 * i ∨ m = 2 * i + 1 := by omega
  constructor
  · show s'.pipes + 1 = s.pipes + (i + 1)
    rw [h.pipes, Nat.add_assoc]
  · show s'.stored ++ [i * 2, i * 2 + 1] = _
    rw [h.stored, show 2 * (i + 1) = 2 * i + 1 + 1 by omega, List.range_succ, List.range_succ,
      Nat.mul_comm i 2]
    simp
  · intro m hm
    rcases hcases m hm with hlt | rfl | rfl
    · rw [hold m hlt, hfile, if_neg (hne m hlt).2, if_neg (hne m hlt).1, h.ends m hlt]
    · rw [hread, hfile, if_neg hrw, if_pos rfl, h.pipes, pipeEnd_even]
    · rw [hwrite, hfile, if_pos rfl, h.pipes, pipeEnd_odd]
  · intro m hm
    rcases hcases m hm with hlt | rfl | rfl
    · rw [hold m hlt]
      exact h.fresh m hlt
    · rw [hread, ← h.kept r fun m hm => (hne m hm).1]
      exact hr
    · rw [hwrite, ← h.kept w fun m hm => (hne m hm).2]
      exact hw
  · intro fd hfd
    have hfdw : fd ≠ w := fun he => hfd (2 * i + 1) (by omega) (hwrite.trans he.symm)
    have hfdr : fd ≠ r := fun he => hfd (2 * i) (by omega) (hread.trans he.symm)
    rw [hfile, if_neg hfdw, if_neg hfdr]
    refine h.kept fd fun m hm => ?_
    rw [← hold m hm]
    exact hfd m (by omega)

theorem piped_pipeLoop (s : Shell) (i : Nat) : Piped s i (pipeLoop i s) := by
  induction i with
  | zero => exact ⟨rfl, by simp [pipeLoop], by simp, by simp, by simp [pipeLoop]⟩
  | succ i ih => exact ih.pipe

theorem piped_createPipes (n : Nat) (contents : Nat → Nat) (s : Shell) :
    Piped { s with pipefd := contents, stored := [] } (2 * (n - 1)) (createPipes n contents s) :=
  piped_pipeLoop _ _

/-- An open file is an end of one of the pipes, or was open before. -/
theorem Piped.file_cases {s s' : Shell} {i fd : Nat} {f : File} (h : Piped s i s')
    (hfd : s'.table.file fd = some f) :
    (∃ m, m < 2 * i ∧ s'.pipefd m = fd ∧ f = pipeEnd (s.pipes + ·) m) ∨ s.table.file fd = some f := by
  by_cases hm : ∃ m, m < 2 * i ∧ s'.pipefd m = fd
  · obtain ⟨m, hm, rfl⟩ := hm
    rw [h.ends m hm] at hfd
    exact .inl ⟨m, hm, rfl, (Option.some.inj hfd).symm⟩
  · rw [h.kept fd fun m hlt heq => hm ⟨m, hlt, heq⟩] at hfd
    exact .inr hfd

/-- The descriptors in `pipefd` are distinct, because the files are. -/
theorem Piped.distinct {s s' : Shell} {i m m' : Nat} (h : Piped s i s') (hm : m < 2 * i)
    (hm' : m' < 2 * i) (heq : s'.pipefd m = s'.pipefd m') : m = m' := by
  have hfile := congrArg s'.table.file heq
  rw [h.ends m hm, h.ends m' hm'] at hfile
  exact pipeEnd_inj (Option.some.inj hfile)

/-! ### The descriptors that stay open -/

variable {s : Shell} {r : Nat × (Nat → Nat)}

/-- A round closes descriptors of its own pipes only. -/
theorem shellRound_keeps {fd : Nat} {f : File} (h : s.table.file fd = some f) :
    (shellRound s r).2.table.file fd = some f := by
  have hp := piped_createPipes r.1 r.2 s
  have hne : ∀ m, m < 2 * (2 * (r.1 - 1)) → (createPipes r.1 r.2 s).pipefd m ≠ fd := by
    rintro m hm rfl
    have hfresh := hp.fresh m hm
    dsimp only at hfresh
    rw [h] at hfresh
    cases hfresh
  refine (Table.file_closeEach_eq_some _).mpr ⟨?_, fun j hj => hne j (by omega)⟩
  rw [hp.kept fd hne]
  exact h

/-- The second half of the descriptors is never closed. -/
theorem shellRound_leaks {m : Nat} (hm : 2 * (r.1 - 1) ≤ m) (hlt : m < 2 * (2 * (r.1 - 1))) :
    ∃ fd, s.table.file fd = none ∧
      (shellRound s r).2.table.file fd = some (pipeEnd (s.pipes + ·) m) := by
  have hp := piped_createPipes r.1 r.2 s
  refine ⟨(createPipes r.1 r.2 s).pipefd m, hp.fresh m hlt, ?_⟩
  refine (Table.file_closeEach_eq_some _).mpr ⟨hp.ends m hlt, fun j hj heq => ?_⟩
  have hsame := hp.distinct (by omega) hlt heq
  omega

theorem shellRound_one (h : r.1 = 1) : (shellRound s r).2.table = s.table := by
  obtain ⟨n, contents⟩ := r
  subst h
  rfl

theorem run_keeps {fd : Nat} {f : File} (rs : List (Nat × (Nat → Nat)))
    (h : s.table.file fd = some f) : (run shellRound s rs).table.file fd = some f := by
  induction rs generalizing s with
  | nil => exact h
  | cons r rs ih => exact ih (shellRound_keeps h)

/-! ### Balance -/

/-- The stores of a round are in `pipefd`, and the descriptors that it opens are closed again. -/
structure Balanced (s : Shell) (r : Nat × (Nat → Nat)) : Prop where
  stored : ∀ i ∈ (createPipes r.1 r.2 s).stored, i < 2 * (r.1 - 1)
  closed : ∀ fd, s.table.file fd = none → (shellRound s r).2.table.file fd = none

/-- All rounds are balanced, and none leaves a trace in the table. -/
structure BalancedRun (s : Shell) (rs : List (Nat × (Nat → Nat))) : Prop where
  rounds : RunOk shellRound Balanced s rs
  restored : ∀ pre, pre <+: rs → (run shellRound s pre).table = s.table

theorem stored_createPipes (n : Nat) (contents : Nat → Nat) (s : Shell) :
    (createPipes n contents s).stored = List.range (2 * (2 * (n - 1))) := by
  rw [(piped_createPipes n contents s).stored, List.nil_append]

/-- There are twice as many stores as elements. -/
theorem stored_lt_iff (n : Nat) (contents : Nat → Nat) (s : Shell) :
    (∀ i ∈ (createPipes n contents s).stored, i < 2 * (n - 1)) ↔ n ≤ 1 := by
  rw [stored_createPipes]
  constructor
  · intro h
    by_contra hn
    have hlt := h (2 * (n - 1)) (List.mem_range.mpr (by omega))
    omega
  · intro hn i hi
    have hlt := List.mem_range.mp hi
    omega

theorem balanced_of_one (h : r.1 = 1) : Balanced s r := by
  refine ⟨(stored_lt_iff _ _ _).mpr (by omega), ?_⟩
  rw [shellRound_one h]
  exact fun fd hfd => hfd

/-- **The table is restored** by the rounds of one command only. -/
theorem run_table_eq_iff (rs : List (Nat × (Nat → Nat))) (hpos : ∀ r ∈ rs, 1 ≤ r.1) :
    (run shellRound s rs).table = s.table ↔ ∀ r ∈ rs, r.1 = 1 := by
  induction rs generalizing s with
  | nil => simp [run]
  | cons r rs ih =>
    rw [List.forall_mem_cons] at hpos ⊢
    rw [run]
    by_cases hr : r.1 = 1
    · have hsame := @shellRound_one s r hr
      rw [← hsame, ih hpos.2]
      simp [hr]
    · refine iff_of_false ?_ fun h => hr h.1
      obtain ⟨fd, hnone, hopen⟩ := @shellRound_leaks s r (2 * (r.1 - 1)) (Nat.le_refl _) (by omega)
      intro heq
      have hstays := run_keeps rs hopen
      rw [heq, hnone] at hstays
      cases hstays

/-- **Pipe descriptors are balanced** in just those runs of the shell in which no pipeline has more than one
command. -/
theorem balancedRun_iff (s : Shell) (rs : List (Nat × (Nat → Nat))) (hpos : ∀ r ∈ rs, 1 ≤ r.1) :
    BalancedRun s rs ↔ ∀ r ∈ rs, r.1 = 1 := by
  constructor
  · intro h
    exact (run_table_eq_iff rs hpos).mp (h.restored rs List.prefix_rfl)
  · intro h
    refine ⟨runOk_of_forall_mem (fun r hr s => balanced_of_one (h r hr)) s, ?_⟩
    intro pre hpre
    exact (run_table_eq_iff pre fun r hr => hpos r (hpre.subset hr)).mpr fun r hr => h r (hpre.subset hr)

/-- A shell with the three standard descriptors. -/
def freshShell : Shell where
  table :=
    { file := fun fd => if fd < 3 then some (.other fd) else none
      finite := ⟨3, fun fd h => if_neg (by omega)⟩ }
  pipes := 0
  pipefd := fun _ => 0
  stored := []

theorem balancedRun_two_single : BalancedRun freshShell [(1, fun _ => 0), (1, fun _ => 0)] :=
  (balancedRun_iff freshShell [(1, fun _ => 0), (1, fun _ => 0)] (by simp)).mpr (by simp)

/-- A pipeline of two commands, such as `ls | wc`. -/
theorem not_balancedRun_two :
    ¬ BalancedRun freshShell [(2, fun _ => 0)] ∧
      3 ∈ (createPipes 2 (fun _ => 0) freshShell).stored ∧
      (run shellRound freshShell [(2, fun _ => 0)]).table ≠ freshShell.table := by
  have hleak : (run shellRound freshShell [(2, fun _ => 0)]).table ≠ freshShell.table := by
    rw [Ne, run_table_eq_iff _ (by simp)]
    simp
  refine ⟨fun h => hleak (h.restored _ List.prefix_rfl), ?_, hleak⟩
  rw [stored_createPipes]
  decide

end EC440.SimpleShell
