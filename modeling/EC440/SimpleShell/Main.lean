import EC440.SimpleShell.Free
import EC440.SimpleShell.Wiring

/-!
# The shell

`main` of `myshell.c`, from the characters of its standard input to the children it starts.  A line is what
`fgets` stores, and its pipeline is what `pipeline_build` returns for it on the heap of its round; the pipes
are those of `Shell.lean`.  `pipe` and `fork` succeed, and `none` is an access to memory that was never
written or is not allocated.  As there, a store behind the end of `pipefd` is kept; `stored` says whether
there is one.

Once a pipeline was in the background, `SIGCHLD` has a handler with `sa_flags` `0`, and interrupts a `fgets`
that is waiting.  `signal i` says that this happens in the round `i`; it is taken to happen before the first
character of the line is there, so that nothing is stored.

A child is followed up to its `execvp`, and the calls of `wait` are counted; what they do is in `Jobs.lean`.
`openFile` is what `open` gives for a path, in each round and for each direction: at most one child of a round
opens a file for its input, and one for its output.
-/

namespace EC440.SimpleShell

open EC440.Lib

/-! ### The lines -/

/-- The characters up to the first newline, at most `n` of them, and the rest. -/
def upToNewline : Nat → List Char → List Char × List Char
  | 0, input => ([], input)
  | _ + 1, [] => ([], [])
  | n + 1, c :: input =>
    if c = '\n' then ([c], input)
    else (c :: (upToNewline n input).1, (upToNewline n input).2)

/-- `fgets(command_line, MAX_LINE_LENGTH, stdin)`: the characters it stores in front of the zero, and the
input behind them.  It fails at the end of the input, and when it is interrupted. -/
def fgets (interrupted : Bool) (input : List Char) : Option (List Char × List Char) :=
  if interrupted ∨ input = [] then none else some (upToNewline (maxLineLength - 1) input)

/-- The lines that `fgets` reads until the end of the input, for at most `fuel` calls. -/
def readLines : Nat → List Char → List (List Char)
  | 0, _ => []
  | fuel + 1, input =>
    match fgets false input with
    | none => []
    | some (line, input) => line :: readLines fuel input

/-- The lines of the input. -/
def linesOf (input : List Char) : List (List Char) := readLines input.length input

/-! ### One line -/

/-- `O_RDONLY`, or `O_WRONLY | O_CREAT`. -/
inductive Mode
  | input
  | output
deriving DecidableEq

/-- `redirection`, where the two calls of `open` differ. -/
def redirectionAt (openFile : Mode → Token → Option Nat) (rdrIn rdrOut : Option Token)
    (numCommands currCmdNum : Nat) (t : Table File) : Table File :=
  let t := redirectWhen (openFile .input) rdrIn (currCmdNum == 0) 0 t
  redirectWhen (openFile .output) rdrOut (currCmdNum == numCommands - 1) 1 t

/-- A child in front of its `execvp`. -/
structure Child where
  argv : List (Option Token)
  table : Table File

/-- What the child with the number `currCmdNum` does. -/
def childOf (openFile : Mode → Token → Option Nat) (pipefd : Nat → Nat) (numCommands : Nat) (t : Table File)
    (currCmdNum : Nat) (c : PipelineCommand) : Child where
  argv := c.commandArgs
  table := redirectionAt openFile c.redirectInPath c.redirectOutPath numCommands currCmdNum
    (if numCommands > 1 then multiCommands pipefd numCommands currCmdNum t else t)

/-- The body of the fork loop: `curr_cmd_num` and the children so far. -/
def forkCommand (openFile : Mode → Token → Option Nat) (pipefd : Nat → Nat) (numCommands : Nat)
    (t : Table File) (c : PipelineCommand) (r : Nat × List Child) : Option (Nat × List Child) :=
  some (r.1 + 1, r.2 ++ [childOf openFile pipefd numCommands t r.1 c])

/-- What one line starts.  The pipes of the round are numbered from `pipes` on, and `stored` are the indices
of the stores to `pipefd`.  `handler` says that `handle_child` is installed, and `waits` is how many times
`wait` is called. -/
structure Round where
  pipes : Nat
  stored : List Nat
  children : List Child
  parent : Table File
  handler : Bool
  waits : Nat

def shellLine (heap : Nat → List Char) (openFile : Mode → Token → Option Nat) (contents : Nat → Nat)
    (commandLine : List Char) (s : Shell) : Option (Round × Shell) := do
  let (numCommands, pipeline) ← pipelineBuildIn heap (cString commandLine)
  let s' := createPipes numCommands contents s
  let (_, children) ← visitChain PipelineCommand.next (forkCommand openFile s'.pipefd numCommands s'.table)
    pipeline.commands pipeline.commands.length (some 0) (0, [])
  let parent := closePipes s'.pipefd numCommands s'.table
  let r : Round :=
    if pipeline.isBackground then ⟨s.pipes, s'.stored, children, parent, true, 0⟩
    else ⟨s.pipes, s'.stored, children, parent, false, numCommands⟩
  some (r, { s' with table := parent })

/-! ### The loop -/

/-- The last round: `fgets` has failed, and the line before is parsed once more. -/
def endOfInput (heap : Nat → List Char) (commandLine : Option (List Char)) : Option Unit := do
  let line ← commandLine
  let (_, pipeline) ← pipelineBuildAt heap (cString line)
  let _ ← pipelineFree pipeline (blocksLeft (tokensIn heap (cString line)))
  some ()

/-- What `main` does not decide, for each round: what is on the heap, what is in `pipefd` at first, which
files there are, and whether a signal comes while it waits for a line. -/
structure World where
  heap : Nat → Nat → List Char
  contents : Nat → Nat → Nat
  openFile : Nat → Mode → Token → Option Nat
  signal : Nat → Bool

/-- The `while` loop from the round `i` on, where `commandLine` is the line before, if there was one, and
`caught` says that `SIGCHLD` has a handler. -/
def mainLoop (w : World) : Nat → Nat → Bool → Option (List Char) → List Char → Shell → Option (List Round)
  | 0, _, _, _, _, _ => none
  | fuel + 1, i, caught, commandLine, input, s =>
    match fgets (caught && w.signal i) input with
    | none => do
      endOfInput (w.heap i) commandLine
      some []
    | some (line, input) => do
      let (r, s) ← shellLine (w.heap i) (w.openFile i) (w.contents i) line s
      let rs ← mainLoop w fuel (i + 1) (caught || r.handler) (some line) input s
      some (r :: rs)

def main (w : World) (input : List Char) (s : Shell) : Option (List Round) :=
  mainLoop w (input.length + 1) 0 false none input s

/-! ### Reading the input -/

variable {input line : List Char} {n k fd target : Nat} {t : Table File} {s : Shell}
  {openFile : Mode → Token → Option Nat} {pipefd : Nat → Nat}

theorem upToNewline_append (n : Nat) (input : List Char) :
    (upToNewline n input).1 ++ (upToNewline n input).2 = input := by
  induction n generalizing input with
  | zero => rfl
  | succ n ih =>
    cases input with
    | nil => rfl
    | cons c input =>
      rw [upToNewline]
      split
      · rfl
      · exact congrArg (c :: ·) (ih input)

theorem length_upToNewline (n : Nat) (input : List Char) : (upToNewline n input).1.length ≤ n := by
  induction n generalizing input with
  | zero => exact Nat.le_refl 0
  | succ n ih =>
    cases input with
    | nil => exact Nat.zero_le _
    | cons c input =>
      rw [upToNewline]
      split
      · exact Nat.succ_le_succ (Nat.zero_le n)
      · exact Nat.succ_le_succ (ih input)

theorem fgets_eq_none {interrupted : Bool} (h : fgets interrupted input = none) :
    interrupted = true ∨ input = [] := by
  rw [fgets] at h
  split at h
  · assumption
  · cases h

theorem eq_nil_of_fgets (h : fgets false input = none) : input = [] :=
  (fgets_eq_none h).resolve_left Bool.false_ne_true

/-- A call that succeeds was not interrupted. -/
theorem fgets_eq_some {interrupted : Bool} {r : List Char × List Char}
    (h : fgets interrupted input = some r) : interrupted = false ∧ fgets false input = some r := by
  cases interrupted with
  | true => cases h
  | false => exact ⟨rfl, h⟩

theorem fgets_spec {rest : List Char} (h : fgets false input = some (line, rest)) :
    line ++ rest = input ∧ line.length < maxLineLength ∧ rest.length < input.length := by
  rw [fgets] at h
  split at h
  · cases h
  · next hfail =>
    have hne : input ≠ [] := fun hnil => hfail (.inr hnil)
    have happ := upToNewline_append (maxLineLength - 1) input
    have hlen := length_upToNewline (maxLineLength - 1) input
    have hread := Option.some.inj h
    rw [hread] at happ hlen
    dsimp only at happ hlen
    have hmax : maxLineLength = 512 := rfl
    have hpos : 0 < line.length := by
      rw [show line = (upToNewline (maxLineLength - 1) input).1 by rw [hread]]
      cases input with
      | nil => exact absurd rfl hne
      | cons c input =>
        rw [show maxLineLength - 1 = 510 + 1 from rfl, upToNewline]
        split <;> simp
    have hsum := congrArg List.length happ
    rw [List.length_append] at hsum
    exact ⟨happ, by omega, by omega⟩

theorem flatten_readLines (fuel : Nat) (input : List Char) (hf : input.length ≤ fuel) :
    (readLines fuel input).flatten = input := by
  induction fuel generalizing input with
  | zero => exact (List.length_eq_zero_iff.mp (Nat.le_zero.mp hf)).symm
  | succ fuel ih =>
    rw [readLines]
    cases hread : fgets false input with
    | none => exact (eq_nil_of_fgets hread).symm
    | some r =>
      obtain ⟨happ, -, hlt⟩ := fgets_spec hread
      dsimp only
      rw [List.flatten_cons, ih _ (by omega), happ]

/-- `fgets` loses nothing of the input. -/
theorem flatten_linesOf (input : List Char) : (linesOf input).flatten = input :=
  flatten_readLines input.length input (Nat.le_refl _)

/-- The number of calls that are allowed does not matter. -/
theorem readLines_eq (fuel : Nat) (input : List Char) (hf : input.length ≤ fuel) :
    readLines fuel input = linesOf input := by
  rw [linesOf]
  induction fuel using Nat.strongRecOn generalizing input with
  | ind fuel ih =>
    cases fuel with
    | zero => rw [Nat.le_zero.mp hf]
    | succ fuel =>
      cases hread : fgets false input with
      | none =>
        rw [eq_nil_of_fgets hread]
        rfl
      | some r =>
        obtain ⟨-, -, hlt⟩ := fgets_spec hread
        obtain ⟨m, hm⟩ := Nat.exists_eq_add_of_lt (Nat.zero_lt_of_lt hlt)
        rw [show input.length = m + 1 by omega, readLines, readLines, hread]
        dsimp only
        rw [ih fuel (Nat.lt_succ_self _) _ (by omega)]
        rcases Nat.lt_or_ge m fuel with hlt' | hge
        · rw [ih m (by omega) _ (by omega)]
        · rw [show m = fuel by omega, ih fuel (Nat.lt_succ_self _) _ (by omega)]

theorem linesOf_cons {rest : List Char} (h : fgets false input = some (line, rest)) :
    linesOf input = line :: linesOf rest := by
  obtain ⟨-, -, hlt⟩ := fgets_spec h
  obtain ⟨m, hm⟩ := Nat.exists_eq_add_of_lt (Nat.zero_lt_of_lt hlt)
  rw [linesOf, show input.length = m + 1 by omega, readLines, h]
  dsimp only
  rw [readLines_eq m rest (by omega)]

/-! ### Redirections -/

/-- The file behind a redirection, or the one that was there when there is none or its path leads nowhere. -/
def redirected (openFile : Token → Option Nat) (rdr : Option Token) (f : Option File) : Option File :=
  ((rdr.bind openFile).map File.other).or f

/-- While the input is open, a file for a redirection is opened above it, so it is moved to its target. -/
theorem redirectWhen_file {openFile : Token → Option Nat} (h0 : t.file 0 ≠ none)
    (htarget : t.file target ≠ none) (rdr : Option Token) (now : Bool) :
    (redirectWhen openFile rdr now target t).file fd =
      if fd = target ∧ now = true then redirected openFile rdr (t.file fd) else t.file fd := by
  cases rdr with
  | none => simp [redirectWhen, redirected]
  | some path =>
    cases now with
    | false => simp [redirectWhen]
    | true =>
      rw [redirectWhen, if_pos rfl, redirect, redirected, Option.bind_some]
      cases openFile path with
      | none => simp
      | some number =>
        have hpos : t.lowest > 0 := Nat.pos_of_ne_zero fun heq => h0 (heq ▸ t.file_lowest)
        have hne : target ≠ t.lowest := fun heq => htarget (heq ▸ t.file_lowest)
        have hinstalled : (t.install t.lowest (.other number)).file t.lowest = some (.other number) := by simp
        dsimp only
        rw [if_pos hpos, Table.dup2_of_open _ hinstalled, Option.getD_some, Table.file_close,
          Table.file_install, Table.file_install]
        by_cases hlow : fd = t.lowest
        · rw [if_pos hlow, if_neg (fun h => hne (h.1.symm.trans hlow)), hlow, t.file_lowest]
        · by_cases hfd : fd = target
          · rw [if_neg hlow, if_pos hfd, if_pos ⟨hfd, rfl⟩]
            rfl
          · rw [if_neg hlow, if_neg hfd, if_neg hlow, if_neg fun h => hfd h.1]

theorem redirectionAt_file (h0 : t.file 0 ≠ none) (h1 : t.file 1 ≠ none) (rdrIn rdrOut : Option Token)
    (n k : Nat) :
    (redirectionAt openFile rdrIn rdrOut n k t).file fd =
      if fd = 1 ∧ k = n - 1 then redirected (openFile .output) rdrOut (t.file 1)
      else if fd = 0 ∧ k = 0 then redirected (openFile .input) rdrIn (t.file 0)
      else t.file fd := by
  have hin : ∀ d, (redirectWhen (openFile .input) rdrIn (k == 0) 0 t).file d =
      if d = 0 ∧ k = 0 then redirected (openFile .input) rdrIn (t.file 0) else t.file d := by
    intro d
    rw [redirectWhen_file h0 h0]
    by_cases hd : d = 0
    · simp [hd]
    · simp [hd]
  have hor : ∀ (f : Option File), f ≠ none → redirected (openFile .input) rdrIn f ≠ none := by
    intro f hf
    rw [redirected]
    cases (rdrIn.bind (openFile .input)).map File.other <;> simp [hf]
  have h0' : (redirectWhen (openFile .input) rdrIn (k == 0) 0 t).file 0 ≠ none := by
    rw [hin]
    split
    · exact hor _ h0
    · exact h0
  have h1' : (redirectWhen (openFile .input) rdrIn (k == 0) 0 t).file 1 = t.file 1 := by
    rw [hin, if_neg (by omega)]
  rw [redirectionAt, redirectWhen_file h0' (by rw [h1']; exact h1)]
  by_cases hfd : fd = 1 ∧ k = n - 1
  · obtain ⟨rfl, hk⟩ := hfd
    rw [if_pos ⟨rfl, by simpa using hk⟩, if_pos ⟨rfl, hk⟩, h1']
  · rw [if_neg (by simpa using hfd), if_neg hfd, hin]

/-- A redirection opens no pipe. -/
theorem redirected_eq_some {openFile : Token → Option Nat} {rdr : Option Token} {f : Option File} {g : File}
    (hg : ∀ number, g ≠ .other number) (h : redirected openFile rdr f = some g) : f = some g := by
  rw [redirected] at h
  cases hopen : rdr.bind openFile with
  | none => rwa [hopen] at h
  | some number =>
    rw [hopen] at h
    exact absurd (Option.some.inj h).symm (hg number)

/-! ### The children -/

/-- The table of a child before its redirections. -/
def forked (pipefd : Nat → Nat) (n : Nat) (t : Table File) (k : Nat) : Table File :=
  if n > 1 then multiCommands pipefd n k t else t

theorem getElem?_children (hk : k < n) :
    (launch pipefd n t).children[k]? = some (forked pipefd n t k) := by
  rcases Nat.lt_or_ge 1 n with hn | hle
  · rw [launch, getElem?_forkLoop hn, if_pos hk, Nat.zero_add, forked, if_pos hn]
  · obtain rfl : n = 1 := by omega
    obtain rfl : k = 0 := by omega
    rfl

theorem foldlM_forkCommand (cs : List PipelineCommand) (r : Nat × List Child) :
    cs.foldlM (fun r c => forkCommand openFile pipefd n t c r) r =
      some (r.1 + cs.length, r.2 ++ cs.mapIdx fun k c => childOf openFile pipefd n t (r.1 + k) c) := by
  induction cs generalizing r with
  | nil => simp
  | cons c cs ih =>
    rw [List.foldlM_cons, forkCommand]
    change cs.foldlM _ _ = _
    rw [ih, List.mapIdx_cons, List.length_cons]
    simp only [Nat.add_zero, List.append_assoc, List.cons_append, List.nil_append, Nat.add_assoc,
      Nat.add_comm 1]

theorem forked_file (h : Holds pipefd n (s.pipes + ·) t) (hk : k < n) (hfd : fd ≤ 2) :
    (forked pipefd n t k).file fd =
      if fd = 1 ∧ k < n - 1 then some (.writeEnd (s.pipes + k))
      else if fd = 0 ∧ k ≠ 0 then some (.readEnd (s.pipes + (k - 1)))
      else t.file fd := by
  rw [forked]
  split
  · rw [multiCommands_file h hk, if_neg (h.not_std hfd)]
  · rw [if_neg (by omega), if_neg (by omega)]

theorem forked_std (h : Holds pipefd n (s.pipes + ·) t) (hk : k < n) (hfd : fd ≤ 2) (hopen : t.file fd ≠ none) :
    (forked pipefd n t k).file fd ≠ none := by
  rw [forked_file h hk hfd]
  split
  · simp
  · split
    · simp
    · exact hopen

/-- The redirections of a child move no pipe of the round. -/
theorem childOf_file_iff {c : PipelineCommand} {g : File} (h : Holds pipefd n (s.pipes + ·) t) (hk : k < n)
    (h0 : t.file 0 ≠ none) (h1 : t.file 1 ≠ none) (hg : ∀ number, g ≠ .other number)
    (hin : k = 0 → (forked pipefd n t k).file 0 ≠ some g)
    (hout : k = n - 1 → (forked pipefd n t k).file 1 ≠ some g) :
    (childOf openFile pipefd n t k c).table.file fd = some g ↔ (forked pipefd n t k).file fd = some g := by
  have hfile := @redirectionAt_file fd (forked pipefd n t k) openFile (forked_std h hk (by omega) h0)
    (forked_std h hk (by omega) h1) c.redirectInPath c.redirectOutPath n k
  rw [show (childOf openFile pipefd n t k c).table.file fd = _ from hfile]
  split
  · next hlast =>
    rw [hlast.1]
    exact iff_of_false (fun heq => hout hlast.2 (redirected_eq_some hg heq)) (hout hlast.2)
  · split
    · next hfirst =>
      rw [hfirst.1]
      exact iff_of_false (fun heq => hin hfirst.2 (redirected_eq_some hg heq)) (hin hfirst.2)
    · rfl

/-! ### What a line starts -/

/-- The processes of a round. -/
def Round.processes (r : Round) : Processes := ⟨r.parent, r.children.map Child.table⟩

/-- **The pipeline `p` is running**: one child for each command in order, with its arguments.  Each pipe
leads from one child to the next and is open nowhere else; the first input and the last output are
those of the table `t`, or the files of the redirections.  The shell waits once for each command, or installs
`handle_child`.  The pipes fit into `pipefd` when there are none. -/
structure Launched (openFile : Mode → Token → Option Nat) (t : Table File) (p : Pipeline) (r : Round) :
    Prop where
  length : r.children.length = p.commands.length
  argv : ∀ (k : Nat) (c : PipelineCommand) (child : Child), p.commands[k]? = some (some c) →
    r.children[k]? = some child → child.argv = c.commandArgs
  pipe : ∀ i, i + 1 < p.commands.length →
    r.processes.holders (.writeEnd (r.pipes + i)) = {(some i, 1)} ∧
      r.processes.holders (.readEnd (r.pipes + i)) = {(some (i + 1), 0)}
  input : ∀ (c : PipelineCommand) (child : Child), p.commands[0]? = some (some c) →
    r.children[0]? = some child → child.table.file 0 = redirected (openFile .input) c.redirectInPath (t.file 0)
  output : ∀ (c : PipelineCommand) (child : Child), p.commands[p.commands.length - 1]? = some (some c) →
    r.children[p.commands.length - 1]? = some child →
      child.table.file 1 = redirected (openFile .output) c.redirectOutPath (t.file 1)
  error : ∀ child ∈ r.children, child.table.file 2 = t.file 2
  handler : r.handler = p.isBackground
  waits : r.waits = if p.isBackground then 0 else p.commands.length
  stored : (∀ m ∈ r.stored, m < 2 * (p.commands.length - 1)) ↔ p.commands.length ≤ 1

theorem Launched.congr {t' : Table File} {p : Pipeline} {r : Round} (h : Launched openFile t p r)
    (hstd : ∀ fd, fd ≤ 2 → t.file fd = t'.file fd) : Launched openFile t' p r := by
  refine ⟨h.length, h.argv, h.pipe, ?_, ?_, ?_, h.handler, h.waits, h.stored⟩
  · intro c child hc hchild
    rw [← hstd 0 (by omega)]
    exact h.input c child hc hchild
  · intro c child hc hchild
    rw [← hstd 1 (by omega)]
    exact h.output c child hc hchild
  · intro child hchild
    rw [← hstd 2 (by omega)]
    exact h.error child hchild

/-- Processes that have the file `g` open at the same descriptors. -/
theorem holders_congr {p q : Processes} {g : File} (hparent : q.parent = p.parent)
    (hchildren : ∀ (k fd : Nat), (∃ c : Table File, q.children[k]? = some c ∧ c.file fd = some g) ↔
      ∃ c : Table File, p.children[k]? = some c ∧ c.file fd = some g) : q.holders g = p.holders g := by
  ext ⟨who, fd⟩
  cases who with
  | none => simp [Processes.holders, Processes.table, hparent]
  | some k => exact hchildren k fd

/-- The descriptors that were open stay open while the pipes are made. -/
theorem createPipes_file {f : File} (n : Nat) (contents : Nat → Nat) (h : s.table.file fd = some f) :
    (createPipes n contents s).table.file fd = some f := by
  have hp := piped_createPipes n contents s
  rw [hp.kept fd]
  · exact h
  · rintro m hm rfl
    have hfresh := hp.fresh m hm
    dsimp only at hfresh
    rw [h] at hfresh
    cases hfresh

/-- The children of the pipeline `cs`. -/
def childrenOf (openFile : Mode → Token → Option Nat) (pipefd : Nat → Nat) (n : Nat) (t : Table File)
    (cs : List PipelineCommand) : List Child :=
  cs.mapIdx fun k c => childOf openFile pipefd n t k c

theorem holders_childrenOf {cs : List PipelineCommand} {r : Round} (h : Holds pipefd n (s.pipes + ·) t)
    (hchildren : r.children = childrenOf openFile pipefd n t cs) (hparent : r.parent = closePipes pipefd n t)
    (hlen : cs.length = n) (h0 : t.file 0 ≠ none) (h1 : t.file 1 ≠ none) {i : Nat} (hi : i < n - 1) :
    r.processes.holders (.writeEnd (s.pipes + i)) = {(some i, 1)} ∧
      r.processes.holders (.readEnd (s.pipes + i)) = {(some (i + 1), 0)} := by
  have hwired := h.wired (show 2 ≤ n by omega)
  have hforked : ∀ k, forked pipefd n t k = multiCommands pipefd n k t := fun k => if_pos (by omega)
  have hsame : ∀ g : File, (∀ number, g ≠ .other number) →
      (∀ k, k < n → k = 0 → (forked pipefd n t k).file 0 ≠ some g) →
      (∀ k, k < n → k = n - 1 → (forked pipefd n t k).file 1 ≠ some g) →
        r.processes.holders g = (launch pipefd n t).holders g := by
    intro g hg hin hout
    refine holders_congr hparent fun k fd => ?_
    by_cases hk : k < n
    · have hget : r.processes.children[k]? =
          some (childOf openFile pipefd n t k (cs.get ⟨k, hlen.symm ▸ hk⟩)).table := by
        simp [Round.processes, hchildren, childrenOf, hlen.symm ▸ hk]
      rw [hget, getElem?_children hk]
      simp only [Option.some.injEq, exists_eq_left']
      exact childOf_file_iff h hk h0 h1 hg (hin k hk) (hout k hk)
    · have hnone : r.processes.children[k]? = none := by
        simp [Round.processes, hchildren, childrenOf, hlen]
        omega
      have hnone' : (launch pipefd n t).children[k]? = none := by
        simp [launch, length_forkLoop]
        omega
      rw [hnone, hnone']
  constructor
  · rw [hsame _ (by simp)]
    · exact @Wired.holders_eq _ _ _ _ hwired _ (i, 1) (by dsimp only; omega)
        (fun fd => (hwired.parent i fd hi).1) fun k c fd => hwired.writeEnd i k c fd hi
    · intro k hk _
      rw [hforked, Ne, multiCommands_writeEnd h hk hi]
      omega
    · intro k hk hlast
      rw [hforked, Ne, multiCommands_writeEnd h hk hi]
      omega
  · rw [hsame _ (by simp)]
    · exact @Wired.holders_eq _ _ _ _ hwired _ (i + 1, 0) (by dsimp only; omega)
        (fun fd => (hwired.parent i fd hi).2) fun k c fd => hwired.readEnd i k c fd hi
    · intro k hk hfirst
      rw [hforked, Ne, multiCommands_readEnd h hk hi]
      omega
    · intro k hk _
      rw [hforked, Ne, multiCommands_readEnd h hk hi]
      omega

theorem launched_childrenOf {cs : List PipelineCommand} {r : Round} {bg : Bool}
    (h : Holds pipefd n (s.pipes + ·) t) (hpipes : r.pipes = s.pipes)
    (hchildren : r.children = childrenOf openFile pipefd n t cs) (hparent : r.parent = closePipes pipefd n t)
    (hhandler : r.handler = bg) (hwaits : r.waits = if bg then 0 else n) (hlen : cs.length = n) (hn : 0 < n)
    (hopen : ∀ fd, fd ≤ 2 → t.file fd ≠ none) (hstored : (∀ m ∈ r.stored, m < 2 * (n - 1)) ↔ n ≤ 1) :
    Launched openFile t ⟨cs.map some, bg⟩ r := by
  have h0 := hopen 0 (by omega)
  have h1 := hopen 1 (by omega)
  -- the child with a number, and its table
  have hchild : ∀ k c child, (cs.map some)[k]? = some (some c) → r.children[k]? = some child →
      child = childOf openFile pipefd n t k c := by
    intro k c child hc hchild
    have hget : cs[k]? = some c := by simpa using hc
    simpa [hchildren, childrenOf, hget] using hchild.symm
  have hfile : ∀ k c fd, k < n → (childOf openFile pipefd n t k c).table.file fd = _ := fun k c fd hk =>
    @redirectionAt_file fd (forked pipefd n t k) openFile (forked_std h hk (by omega) h0)
      (forked_std h hk (by omega) h1) c.redirectInPath c.redirectOutPath n k
  constructor
  · simp [hchildren, childrenOf]
  · intro k c child hc hget
    rw [hchild k c child hc hget]
    rfl
  · intro i hi
    rw [hpipes]
    exact holders_childrenOf h hchildren hparent hlen h0 h1 (by simp only [List.length_map] at hi; omega)
  · intro c child hc hget
    rw [hchild 0 c child hc hget, hfile 0 c 0 hn, if_neg (by omega), if_pos ⟨rfl, rfl⟩,
      forked_file h hn (by omega), if_neg (by omega), if_neg (by omega)]
  · intro c child hc hget
    rw [List.length_map, hlen] at hc hget
    rw [hchild _ c child hc hget, hfile _ c 1 (by omega), if_pos ⟨rfl, rfl⟩,
      forked_file h (by omega) (by omega), if_neg (by omega), if_neg (by omega)]
  · intro child hmem
    rw [hchildren] at hmem
    obtain ⟨k, hk, rfl⟩ := List.getElem_of_mem hmem
    have hk' : k < cs.length := by simpa [childrenOf] using hk
    rw [show (childrenOf openFile pipefd n t cs)[k] = childOf openFile pipefd n t k cs[k] by simp [childrenOf],
      hfile k _ 2 (hlen ▸ hk'), if_neg (by omega), if_neg (by omega), forked_file h (hlen ▸ hk') (by omega),
      if_neg (by omega), if_neg (by omega)]
  · exact hhandler
  · simpa only [List.length_map, hlen] using hwaits
  · simpa only [List.length_map, hlen] using hstored

/-! ### One round -/

theorem not_mem_cString (line : List Char) : Char.ofNat 0 ∉ cString line := by
  intro hmem
  simpa using List.mem_takeWhile_imp hmem

variable {heap : Nat → List Char}

theorem shellLine_launches (hs : Ready s) (h : Parses (tokensIn heap (cString line)))
    (openFile : Mode → Token → Option Nat) (contents : Nat → Nat) :
    ∃ n p r, pipelineBuildIn heap (cString line) = some (n, p) ∧
      shellLine heap openFile contents line s = some (r, (shellRound s (n, contents)).2) ∧
      r.pipes = s.pipes ∧ r.children.length = n ∧ Launched openFile s.table p r := by
  rcases buildTokens_cases h.room h.few with ⟨hnil, -⟩ | ⟨vs, bg, hne, hbuild, hparsed⟩
  · exact absurd hnil h.ne
  · have hall := hparsed.assigned_iff.mpr ⟨List.length_pos_iff.mpr hne, h.last⟩
    have hchain := hparsed.chained
    obtain ⟨cs, rfl⟩ := exists_map_some hall
    set n := findNumCmds (tokensIn heap (cString line))
    have hn : 0 < n := findNumCmds_pos _
    have hcs : cs.length = n := by simpa using hchain.length
    have hholds := holds_createPipes hs n contents
    have hstd : ∀ fd, fd ≤ 2 → ∃ f, s.table.file fd = some f ∧
        (createPipes n contents s).table.file fd = some f := by
      intro fd hfd
      obtain ⟨f, hf⟩ := hs.std fd hfd
      exact ⟨f, hf, createPipes_file n contents hf⟩
    have hopen : ∀ fd, fd ≤ 2 → (createPipes n contents s).table.file fd ≠ none := by
      intro fd hfd
      obtain ⟨f, -, hf⟩ := hstd fd hfd
      simp [hf]
    have hwalk := @Chained.visitChain_eq_foldlM _ _ _
      (forkCommand openFile (createPipes n contents s).pipefd n (createPipes n contents s).table) _ _
      hchain hall hn (0, [])
    have hreduce : (cs.map some).reduceOption = cs := by simp [List.reduceOption]
    rw [foldlM_forkCommand, hreduce] at hwalk
    have hbuild' : pipelineBuildIn heap (cString line) = some (n, ⟨cs.map some, bg⟩) := hbuild
    obtain ⟨r, hline, hpipes, hchildren, hparent, hstored, hhandler, hwaits⟩ : ∃ r : Round,
        shellLine heap openFile contents line s = some (r, (shellRound s (n, contents)).2) ∧
          r.pipes = s.pipes ∧
          r.children = childrenOf openFile (createPipes n contents s).pipefd n
            (createPipes n contents s).table cs ∧
          r.parent = closePipes (createPipes n contents s).pipefd n (createPipes n contents s).table ∧
          r.stored = (createPipes n contents s).stored ∧ r.handler = bg ∧ r.waits = if bg then 0 else n := by
      simp only [shellLine, hbuild', Option.bind_eq_bind, Option.bind_some, hchain.length, hwalk,
        List.nil_append, Nat.zero_add]
      cases bg <;> exact ⟨_, rfl, rfl, rfl, rfl, rfl, rfl, rfl⟩
    have hlaunched := launched_childrenOf hholds hpipes hchildren hparent hhandler hwaits hcs hn hopen
      (by rw [hstored]; exact stored_lt_iff n contents s)
    refine ⟨n, _, r, hbuild', hline, hpipes, ?_, hlaunched.congr fun fd hfd => ?_⟩
    · rw [hlaunched.length, List.length_map, hcs]
    · obtain ⟨f, hf, hf'⟩ := hstd fd hfd
      rw [hf, hf']

/-- A line whose pipeline was started. -/
theorem last_of_shellLine {contents : Nat → Nat} {r : Round × Shell}
    (h : shellLine heap openFile contents line s = some r) :
    (pipelineBuildIn heap (cString line)).isSome ∧
      tokensIn heap (cString line) ≠ [] ∧ (tokensIn heap (cString line)).getLast? ≠ some ['|'] := by
  simp only [shellLine, Option.bind_eq_bind, Option.bind_eq_some_iff] at h
  obtain ⟨⟨n, p⟩, hsome, ⟨k, children⟩, hwalk, -⟩ := h
  obtain ⟨hne, -, hparsed⟩ := buildTokens_parsed hsome
  refine ⟨by rw [hsome]; rfl, hne, ?_⟩
  exact (hparsed.assigned_iff.mp (hparsed.chained.forall_of_visitChain hwalk)).2

/-- The line before can be parsed and freed once more. -/
theorem endOfInput_of_parses (h : Parses (tokensIn heap (cString line))) :
    endOfInput heap (some line) = some () := by
  obtain ⟨n, p, hbuild, -, hfree⟩ := pipelineFree_of_parses h
  have hbuild' : pipelineBuildAt heap (cString line) = some (n, p) := hbuild
  simp only [endOfInput, Option.bind_eq_bind, Option.bind_some, hbuild', hfree]

/-! ### The whole input -/

/-- In the round `k`, `fgets` is interrupted: a signal comes, and it has a handler, from the beginning or
since one of these rounds. -/
def Interrupted (signal : Nat → Bool) (caught : Bool) (rounds : List Round) (k : Nat) : Prop :=
  signal k = true ∧ (caught = true ∨ ∃ r ∈ rounds.take k, r.handler = true)

/-- The pipelines of the lines are running, each in its round, with pipes of its own.  Lines are left only
when `fgets` is interrupted. -/
structure Launches (w : World) (t : Table File) (i : Nat) (caught : Bool) (lines : List (List Char))
    (rounds : List Round) : Prop where
  length : rounds.length ≤ lines.length
  goesOn : ∀ k, k < rounds.length → ¬ Interrupted (fun k => w.signal (i + k)) caught rounds k
  stops : rounds.length < lines.length →
    Interrupted (fun k => w.signal (i + k)) caught rounds rounds.length
  fresh : rounds.Pairwise fun r r' => r.pipes + (r.children.length - 1) ≤ r'.pipes
  launched : ∀ (k : Nat) (line : List Char) (r : Round), lines[k]? = some line → rounds[k]? = some r →
    ∃ n p, pipelineBuildIn (w.heap (i + k)) (cString line) = some (n, p) ∧
      Launched (w.openFile (i + k)) t p r

variable {w : World} {fuel i : Nat} {caught : Bool}

theorem interrupted_cons {r : Round} {rounds : List Round} {signal : Nat → Bool} {k : Nat} :
    Interrupted signal caught (r :: rounds) (k + 1) ↔
      Interrupted (fun k => signal (k + 1)) (caught || r.handler) rounds k := by
  simp only [Interrupted, List.take_succ_cons, List.mem_cons, exists_eq_or_imp, Bool.or_eq_true, or_assoc]

theorem Launches.cons {r : Round} {lines : List (List Char)} {rounds : List Round} {n : Nat} {p : Pipeline}
    (hread : (caught && w.signal i) = false)
    (hbuild : pipelineBuildIn (w.heap i) (cString line) = some (n, p))
    (hlaunched : Launched (w.openFile i) t p r)
    (hfresh : ∀ r' ∈ rounds, r.pipes + (r.children.length - 1) ≤ r'.pipes)
    (h : Launches w t (i + 1) (caught || r.handler) lines rounds) :
    Launches w t i caught (line :: lines) (r :: rounds) := by
  have hnext : ∀ k, Interrupted (fun k => w.signal (i + k)) caught (r :: rounds) (k + 1) ↔
      Interrupted (fun k => w.signal (i + 1 + k)) (caught || r.handler) rounds k := by
    intro k
    rw [interrupted_cons]
    simp only [Nat.add_assoc, Nat.add_comm 1]
  refine ⟨by simpa using h.length, ?_, ?_, List.pairwise_cons.mpr ⟨hfresh, h.fresh⟩, ?_⟩
  · intro k hk
    cases k with
    | zero =>
      rintro ⟨hsignal, hcaught | ⟨r', hr', -⟩⟩
      · simp only [Nat.add_zero] at hsignal
        rw [hcaught, hsignal] at hread
        cases hread
      · cases hr'
    | succ k =>
      rw [hnext]
      exact h.goesOn k (by simpa using hk)
  · intro hlt
    exact (hnext _).mpr (h.stops (by simpa using hlt))
  · intro k line' r' hline' hr'
    cases k with
    | zero =>
      obtain rfl : line = line' := by simpa using hline'
      obtain rfl : r = r' := by simpa using hr'
      exact ⟨n, p, hbuild, hlaunched⟩
    | succ k =>
      rw [← Nat.add_assoc, Nat.add_right_comm]
      exact h.launched k line' r' (by simpa using hline') (by simpa using hr')

/-- The last round starts nothing. -/
theorem launches_nil (hwhy : (caught && w.signal i) = true ∨ input = []) :
    Launches w t i caught (linesOf input) [] := by
  refine ⟨by simp, by simp, ?_, List.Pairwise.nil, by simp⟩
  intro hleft
  rcases hwhy with hwhy | rfl
  · rw [Bool.and_eq_true] at hwhy
    exact ⟨hwhy.2, .inl hwhy.1⟩
  · cases hleft

theorem mainLoop_launches (hs : Ready s) (hstd : ∀ fd, fd ≤ 2 → s.table.file fd = t.file fd)
    (old : Option (List Char))
    (hold : (∀ heap, endOfInput heap old = some ()) ∨ caught = false ∧ input ≠ [])
    (hf : input.length < fuel) (hlines : ∀ line ∈ linesOf input, Parsable (cString line)) :
    ∃ rounds, mainLoop w fuel i caught old input s = some rounds ∧
      (∀ r ∈ rounds, s.pipes ≤ r.pipes) ∧ Launches w t i caught (linesOf input) rounds := by
  induction fuel generalizing input old i s caught with
  | zero => omega
  | succ fuel ih =>
    rw [mainLoop]
    cases hread : fgets (caught && w.signal i) input with
    | none =>
      have hwhy := fgets_eq_none hread
      have hend : endOfInput (w.heap i) old = some () := by
        rcases hold with hold | ⟨hcaught, hne⟩
        · exact hold _
        · rw [hcaught, Bool.false_and] at hwhy
          exact absurd (hwhy.resolve_left Bool.false_ne_true) hne
      exact ⟨[], by simp [hend], by simp, launches_nil hwhy⟩
    | some r =>
      obtain ⟨line, rest⟩ := r
      obtain ⟨hfree, hread⟩ := fgets_eq_some hread
      obtain ⟨-, -, hlt⟩ := fgets_spec hread
      have hcons := linesOf_cons hread
      rw [hcons, List.forall_mem_cons] at hlines
      have hparses : ∀ heap, Parses (tokensIn heap (cString line)) :=
        hlines.1.parses (not_mem_cString line)
      obtain ⟨n, p, r, hbuild, hline, hpipes, hcount, hlaunched⟩ :=
        shellLine_launches hs (hparses (w.heap i)) (w.openFile i) (w.contents i)
      obtain ⟨rounds, hloop, hge, hrest⟩ := @ih rest (shellRound s (n, w.contents i)).2 (i + 1)
        (caught || r.handler) (hs.shellRound (n, w.contents i)) (fun fd hfd => by
          obtain ⟨f, hf⟩ := hs.std fd hfd
          rw [shellRound_keeps hf, ← hstd fd hfd, hf])
        (some line) (.inl fun heap => endOfInput_of_parses (hparses heap)) (by omega) hlines.2
      have hmore : s.pipes + (n - 1) ≤ (shellRound s (n, w.contents i)).2.pipes := by
        rw [show (shellRound s (n, w.contents i)).2.pipes = _ from
          (piped_createPipes n (w.contents i) s).pipes]
        dsimp only
        omega
      refine ⟨r :: rounds, ?_, ?_, ?_⟩
      · simp only [hline, hloop, Option.bind_eq_bind, Option.bind_some]
      · intro r' hr'
        rcases List.mem_cons.mp hr' with rfl | hr'
        · omega
        · have hle := hge r' hr'
          omega
      · rw [hcons]
        refine .cons hfree hbuild (hlaunched.congr hstd) (fun r' hr' => ?_) hrest
        have hle := hge r' hr'
        omega

/-- Without a signal, all lines are read. -/
theorem last_of_mainLoop {old : Option (List Char)} {rounds : List Round}
    (h : mainLoop w fuel i caught old input s = some rounds) (hquiet : ∀ k, w.signal k = false) {k : Nat}
    (hline : (linesOf input)[k]? = some line) :
    (pipelineBuildIn (w.heap (i + k)) (cString line)).isSome ∧
      tokensIn (w.heap (i + k)) (cString line) ≠ [] ∧
      (tokensIn (w.heap (i + k)) (cString line)).getLast? ≠ some ['|'] := by
  induction fuel generalizing input old i s caught rounds k with
  | zero => cases h
  | succ fuel ih =>
    rw [mainLoop, hquiet, Bool.and_false] at h
    cases hread : fgets false input with
    | none =>
      rw [eq_nil_of_fgets hread] at hline
      cases hline
    | some r =>
      obtain ⟨first, rest⟩ := r
      rw [hread] at h
      simp only [Option.bind_eq_bind, Option.bind_eq_some_iff] at h
      obtain ⟨⟨r, s'⟩, hfirst, rs, hloop, -⟩ := h
      rw [linesOf_cons hread] at hline
      cases k with
      | zero =>
        obtain rfl : first = line := by simpa using hline
        exact last_of_shellLine hfirst
      | succ k =>
        rw [← Nat.add_assoc, Nat.add_right_comm]
        exact ih hloop (by simpa using hline)

theorem main_nil (w : World) (s : Shell) : main w [] s = none := rfl

/-- **The shell runs its input**: from any shell with its standard descriptors open, `main` gets through an
input, whatever is on the heap and whenever a signal comes, just when there is a line and each of them ends in
a command and has less than `MAX_ARGV_LENGTH` tokens.  Then each line that is read starts the pipeline that
the parser returns for it. -/
theorem main_launches_iff (contents : Nat → Nat → Nat) (openFile : Nat → Mode → Token → Option Nat)
    (input : List Char) (s : Shell) (hs : Ready s) :
    (∀ heap signal, ∃ rounds, main ⟨heap, contents, openFile, signal⟩ input s = some rounds ∧
      Launches ⟨heap, contents, openFile, signal⟩ s.table 0 false (linesOf input) rounds) ↔
    input ≠ [] ∧ ∀ line ∈ linesOf input,
      EndsInCommand (cString line) ∧ tokenEnds (cString line) < maxArgvLength := by
  constructor
  · intro h
    refine ⟨?_, fun line hmem => ?_⟩
    · rintro rfl
      obtain ⟨rounds, hmain, -⟩ := h (fun _ _ => []) fun _ => false
      rw [main_nil] at hmain
      cases hmain
    · obtain ⟨k, hk⟩ := List.getElem?_of_mem hmem
      obtain ⟨rounds, hmain, -⟩ := h (fun _ _ => []) fun _ => false
      have hlast := (last_of_mainLoop hmain (fun _ => rfl) hk).2
      -- in each round, a byte behind each token of its line
      obtain ⟨rounds', hmain', -⟩ :=
        h (fun k => garbage (cString ((linesOf input)[k]?.getD [])) ['?']) fun _ => false
      have hsome := (last_of_mainLoop hmain' (fun _ => rfl) hk).1
      simp only [Nat.zero_add, hk, Option.getD_some] at hsome
      exact parsable_of_last (not_mem_cString line) hsome hlast
  · rintro ⟨hne, hlines⟩ heap signal
    obtain ⟨rounds, hmain, -, hlaunches⟩ := @mainLoop_launches input s.table s
      ⟨heap, contents, openFile, signal⟩ (input.length + 1) 0 false hs (fun _ _ => rfl) none
      (.inr ⟨rfl, hne⟩) (Nat.lt_succ_self _) hlines
    exact ⟨rounds, hmain, hlaunches⟩

/-- A world with an empty heap and no files, in which a signal comes in every round. -/
def busyWorld : World := ⟨fun _ _ => [], fun _ _ => 0, fun _ _ _ => none, fun _ => true⟩

/-- A pipeline, and one in the background: the signal comes before the third line is read. -/
theorem main_launches_interrupted :
    ∃ rounds, main busyWorld "ls|wc\na&\nb\n".toList freshShell = some rounds ∧
      Launches busyWorld freshShell.table 0 false ["ls|wc\n".toList, "a&\n".toList, "b\n".toList] rounds ∧
      rounds.map Round.waits = [2, 0] := by
  have hlines : linesOf "ls|wc\na&\nb\n".toList =
      ["ls|wc\n".toList, "a&\n".toList, "b\n".toList] := by decide
  have hwaits : (main busyWorld "ls|wc\na&\nb\n".toList freshShell).map (List.map Round.waits) =
      some [2, 0] := by decide
  obtain ⟨rounds, hmain, hlaunches⟩ := (main_launches_iff busyWorld.contents busyWorld.openFile
    "ls|wc\na&\nb\n".toList freshShell ready_freshShell).mpr ⟨by decide, by
      rw [hlines]
      simp only [List.forall_mem_cons, and_true, List.not_mem_nil, false_implies, implies_true]
      exact ⟨⟨⟨'c', by decide, by decide⟩, by decide⟩, ⟨⟨'&', by decide, by decide⟩, by decide⟩,
        ⟨⟨'b', by decide, by decide⟩, by decide⟩⟩⟩ busyWorld.heap busyWorld.signal
  refine ⟨rounds, hmain, hlines ▸ hlaunches, ?_⟩
  rw [show main busyWorld _ _ = _ from hmain] at hwaits
  exact Option.some.inj hwaits

end EC440.SimpleShell
