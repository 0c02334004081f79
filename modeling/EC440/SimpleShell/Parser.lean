import Mathlib.Tactic.Common

/-!
# The parser of the shell

`find_tokens` and `pipeline_build` of `myshell_parser.c`.  A C string is the list of its characters
in front of the terminating zero.  `none` is an access outside an array.

`find_tokens` allocates as many bytes for a token as it copies, and writes no zero behind them, so how a
token is read depends on the memory behind it: `pipelineBuildIn` parses the tokens as they are read on a
given heap, and `pipelineBuild` the tokens as they were copied.

The array `pipelines` is a list, in which `none` stands for an element that was not assigned, and the
pointer `next` of a command is an index of it.  `command_args` is the list of the entries that were
assigned, so the index `k` of the source is its length.  What is stored for a token is a pointer to it; the
parser is written for anything that may stand for this pointer (`TokenRef`), its target for one.
-/

namespace EC440.SimpleShell

abbrev Token := List Char

/-- `MAX_LINE_LENGTH`. -/
def maxLineLength : Nat := 512

/-- `MAX_ARGV_LENGTH`. -/
def maxArgvLength : Nat := maxLineLength / 2 + 1

/-- How many pointers `find_tokens` has room for. -/
def maxTokens : Nat := maxArgvLength * maxLineLength / 8

/-! ### `find_tokens` -/

def isWhiteSpace (c : Char) : Bool := c == '\n' || c == '\t' || c == ' '

def isSpecialToken (c : Char) : Bool := c == '|' || c == '<' || c == '>' || c == '&'

/-- The tokens found so far, and the one that is being read. -/
structure Scan where
  tokens : List Token
  token : Token
deriving DecidableEq, Repr

def scanChar (s : Scan) (curr : Char) : Scan :=
  if isWhiteSpace curr then
    if 0 < s.token.length then ⟨s.tokens ++ [s.token], []⟩ else s
  else if isSpecialToken curr then
    if 0 < s.token.length then ⟨s.tokens ++ [s.token, [curr]], []⟩
    else ⟨s.tokens ++ [[curr]], s.token⟩
  else
    ⟨s.tokens, s.token ++ [curr]⟩

def findTokens (commandLine : List Char) : List Token :=
  (commandLine.foldl scanChar ⟨[], []⟩).tokens

/-- `memcpy(temp, t, tk_len)`, where `temp` is followed by all the memory behind the allocation. -/
def memcpy (temp : List Char) (t : Token) : List Char := t ++ temp.drop t.length

/-- The C string at the beginning of the memory. -/
def cString (memory : List Char) : Token := memory.takeWhile (· ≠ Char.ofNat 0)

/-- The tokens as `pipeline_build` reads them.  `heap j` is the memory from the address on that `malloc`
returned for the token `j`, as it was before the call. -/
def tokensIn (heap : Nat → List Char) (line : List Char) : List Token :=
  (findTokens line).mapIdx fun j t => cString (memcpy (heap j) t)

/-! ### `pipeline_build` -/

/-- What is stored for the token `t` with the index `j`. -/
class TokenRef (α : Type) where
  ref : Nat → Token → α

/-- The token that the pointer leads to. -/
instance : TokenRef Token := ⟨fun _ t => t⟩

@[simp] theorem ref_token (j : Nat) (t : Token) : (TokenRef.ref j t : Token) = t := rfl

structure PipelineCommand (α : Type := Token) where
  commandArgs : List (Option α)
  redirectInPath : Option α
  redirectOutPath : Option α
  next : Option Nat
deriving DecidableEq, Repr

structure Pipeline (α : Type := Token) where
  commands : List (Option (PipelineCommand α))
  isBackground : Bool
deriving DecidableEq, Repr

def findNumCmds (tokens : List Token) : Nat := 1 + tokens.count ['|']

/-- The variables of the two loops.  `cmd` is the command once it is complete, which is when
`curr_cmd_done` is set. -/
structure Build (α : Type := Token) where
  j : Nat
  caught : Bool
  args : List (Option α)
  redirectIn : Option α
  redirectOut : Option α
  cmd : Option (PipelineCommand α)
deriving DecidableEq, Repr

variable {α : Type}

/-- `pl.command_args[k++] = a`. -/
def storeArg (b : Build α) (a : Option α) : Option (Build α) :=
  if b.args.length < maxArgvLength then some { b with args := b.args ++ [a] } else none

/-- The token at `j`: a redirection with its path, an argument, or a separator. -/
def readToken [TokenRef α] (tokens : List Token) (b : Build α) : Option (Build α) := do
  let t ← tokens[b.j]?
  if t = ['>'] ∧ b.j + 1 < tokens.length then
    let path ← tokens[b.j + 1]?
    some
      { b with
        redirectOut := some (TokenRef.ref (b.j + 1) path)
        j := b.j + 1
        caught := b.caught || decide (tokens.length < b.j + 1 + 2) }
  else if t = ['<'] ∧ b.j + 1 < tokens.length then
    let path ← tokens[b.j + 1]?
    some
      { b with
        redirectIn := some (TokenRef.ref (b.j + 1) path)
        j := b.j + 1
        caught := b.caught || decide (tokens.length < b.j + 1 + 2) }
  else if t ≠ ['&'] ∧ t ≠ ['|'] then
    storeArg b (some (TokenRef.ref b.j t))
  else
    some b

/-- The command is complete at a `|` and at the last token. -/
def finish (tokens : List Token) (next : Option Nat) (b : Build α) : Option (Build α) := do
  let t ← tokens[b.j]?
  if t = ['|'] ∨ tokens.length < b.j + 2 ∨ b.caught then
    let b ← storeArg b none
    some
      { b with
        caught := false
        args := []
        cmd := some ⟨b.args, b.redirectIn, b.redirectOut, next⟩ }
  else
    some b

/-- The body of the `while` loop. -/
def parseToken [TokenRef α] (tokens : List Token) (next : Option Nat) (b : Build α) :
    Option (Build α) := do
  let b ← readToken tokens b
  let b ← finish tokens next b
  some { b with j := b.j + 1 }

/-- The `while` loop, for at most `fuel` rounds.  Each round raises `j`. -/
def parseCommand [TokenRef α] (tokens : List Token) (next : Option Nat) :
    Nat → Build α → Option (Build α)
  | 0, b => some b
  | fuel + 1, b =>
    if b.cmd = none ∧ b.j < tokens.length then do
      parseCommand tokens next fuel (← parseToken tokens next b)
    else
      some b

/-- The `for` loop, with `k` commands to go. -/
def parseCommands [TokenRef α] (tokens : List Token) (numCommands : Nat) :
    Nat → Nat → Build α → Option (List (Option (PipelineCommand α)))
  | 0, _, _ => some []
  | k + 1, i, b => do
    let next := if i + 1 < numCommands then some (i + 1) else none
    let b ← parseCommand tokens next (tokens.length + 1)
      { b with redirectIn := none, redirectOut := none, cmd := none }
    let rest ← parseCommands tokens numCommands k (i + 1) b
    some (b.cmd :: rest)

/-- `pipeline_build` behind `find_tokens`, with the number of commands it stores in `*num_commands`. -/
def buildTokens [TokenRef α] (tokens : List Token) : Option (Nat × Pipeline α) := do
  if maxTokens < tokens.length then none
  else
    let numCommands := findNumCmds tokens
    let commands ← parseCommands tokens numCommands numCommands 0 ⟨0, false, [], none, none, none⟩
    let last ← tokens[tokens.length - 1]?
    some (numCommands, ⟨commands, decide (last = ['&'])⟩)

/-- `pipeline_build`, on a heap. -/
def pipelineBuildIn (heap : Nat → List Char) (commandLine : List Char) : Option (Nat × Pipeline) :=
  buildTokens (tokensIn heap commandLine)

/-- `pipeline_build`, where each token is read as the bytes that were copied into it. -/
def pipelineBuild (commandLine : List Char) : Option (Nat × Pipeline) := buildTokens (findTokens commandLine)

end EC440.SimpleShell
