import EC440.Lib.Ring
import EC440.Lib.Run
import EC440.Lib.Words

/-!
# The first thread library

The data and the functions of `threads.c` of `thread_library`, each function as one step.  In
contrast to the later library a thread that has exited stays in the ring, `pthread_create` links the
first threads behind `head`, and nothing is ever freed.

A pointer to a thread control block is a number; the blocks below `nextTcb` are allocated.
`exec` is the thread whose stack the processor is on.  `missed` says that `schedule` has returned
without a thread although one was ready.  Neither is data of the program.  The stacks and `tail` are
written but never read, and are left out.
-/

namespace EC440.ThreadLibrary

open EC440.Lib

/-- `MAX_THREADS`. -/
def maxThreads : Nat := 128

/-- `enum thread_status`. -/
inductive Status
  | exited
  | running
  | ready
deriving DecidableEq, Repr

/-- Where a thread goes on when its context is resumed: at its start routine, in `scheduler_init`,
behind the handler of the alarm, or behind `schedule` in `pthread_exit`. -/
inductive Point
  | start
  | init
  | user
  | inExit
deriving DecidableEq, Repr

/-- What a `jmp_buf` holds: the thread whose stack it is on, and the place in its code. -/
structure Context where
  owner : Nat
  point : Point
deriving DecidableEq, Repr

/-- Whether the process still runs. -/
inductive Life
  | active
  | exited
  | undefined
deriving DecidableEq, Repr

structure State where
  threadId : Nat → Nat
  status : Nat → Status
  env : Nat → Context
  next : Nat → Option Nat
  prev : Nat → Option Nat
  nextTcb : Nat
  head : Option Nat
  curr : Option Nat
  threadIdCounter : Nat
  numCurrThreads : Int
  isFirstCall : Bool
  exec : Nat
  life : Life
  missed : Bool

/-- Before the first call: only the main thread, without a control block. -/
def State.start : State where
  threadId := fun _ => 0
  status := fun _ => .exited
  env := fun _ => ⟨0, .init⟩
  next := fun _ => none
  prev := fun _ => none
  nextTcb := 0
  head := none
  curr := none
  threadIdCounter := 0
  numCurrThreads := 0
  isFirstCall := true
  exec := 0
  life := .active
  missed := false

namespace State

variable (s : State)

def setStatus (x : Nat) (st : Status) : State := { s with status := Function.update s.status x st }

def setNext (x : Nat) (p : Option Nat) : State := { s with next := Function.update s.next x p }

def setPrev (x : Nat) (p : Option Nat) : State := { s with prev := Function.update s.prev x p }

def setEnv (x : Nat) (e : Context) : State := { s with env := Function.update s.env x e }

/-- Some thread is `TS_READY`. -/
def anyReady : Bool := (List.range s.nextTcb).any fun x => s.status x = .ready

end State

/-! ### The scheduler -/

/-- What a thread does next when `schedule` returns or is left by `longjmp` to its context. -/
def continueAt (s : State) : Point → Option State
  | .start => some s
  | .user => some s
  | .init => none
  | .inExit => some { s with life := .exited }

/-- `curr->t_status = TS_RUNNING; longjmp(curr->env, 1)`. -/
def dispatch (s : State) (x : Nat) : Option State :=
  continueAt { s.setStatus x .running with curr := some x, exec := (s.env x).owner } (s.env x).point

/-- How the search of `schedule` ends: with a thread, or with the last value of `curr`. -/
inductive Found
  | thread (x : Nat)
  | nobody (curr : Option Nat)
deriving DecidableEq, Repr

/-- The `for` loop of `schedule`, with `k` rounds to go. -/
def search (s : State) : Nat → Nat → Found
  | 0, c => .nobody (some c)
  | k + 1, c =>
    match s.next c with
    | none => .nobody none
    | some n => if s.status n = .ready then .thread n else search s k n

/-- `schedule`, called at the place `p` of the code. -/
def schedule (s : State) (p : Point) : Option State := do
  let c ← s.curr
  let s := s.setEnv c ⟨s.exec, p⟩
  let s := if s.status c = .running then s.setStatus c .ready else s
  match search s (maxThreads + 1) c with
  | .thread x => dispatch s x
  | .nobody c' => continueAt { s with curr := c', missed := s.missed || s.anyReady } p

/-! ### Threads -/

/-- `scheduler_init`. -/
def schedulerInit (s : State) : State :=
  let x := s.nextTcb
  let s := (((s.setEnv x ⟨s.exec, .init⟩).setNext x none).setPrev x none).setStatus x .running
  { s with
    nextTcb := x + 1
    curr := some x
    head := some x
    threadId := Function.update s.threadId x 0
    threadIdCounter := 1
    numCurrThreads := 1 }

/-- The linking section of `pthread_create`. -/
def linkNew (s : State) (y : Nat) : Option State := do
  if s.numCurrThreads = 1 then
    let h ← s.head
    some ((((s.setNext y (some h)).setPrev h (some y)).setNext h (some y)).setPrev y (some h))
  else
    let c ← s.curr
    let h ← s.prev c
    let s := { s with head := some h }
    some ((((s.setNext h (some y)).setPrev y (some h)).setNext y (some c)).setPrev c (some y))

/-- `pthread_create` behind `scheduler_init`. -/
def createThread (s : State) : Option State := do
  let y := s.nextTcb
  let s ← linkNew ({ s with nextTcb := y + 1 }.setEnv y ⟨y, .start⟩) y
  let s := s.setStatus y .ready
  some
    { s with
      numCurrThreads := s.numCurrThreads + 1
      threadId := Function.update s.threadId y s.threadIdCounter
      threadIdCounter := (s.threadIdCounter + 1) % 2 ^ 64 }

def pthreadCreate (s : State) : Option State :=
  createThread (if s.isFirstCall then schedulerInit { s with isFirstCall := false } else s)

def pthreadExit (s : State) : Option State := do
  let c ← s.curr
  let s := s.setStatus c .exited
  let s := { s with numCurrThreads := s.numCurrThreads - 1 }
  if 0 < s.numCurrThreads then
    schedule s .inExit
  else
    some { s with life := .exited }

/-- `SIGALRM`.  The handler and the alarm are set up by the first `pthread_create`. -/
def alarm (s : State) : Option State :=
  if s.isFirstCall then some s else schedule s .user

/-! ### Runs -/

inductive Call
  | create
  | exit
  | alarm
deriving DecidableEq, Repr

def body (s : State) : Call → Option State
  | .create => pthreadCreate s
  | .exit => pthreadExit s
  | .alarm => alarm s

/-- One atomic step of the process: the thread that has the processor makes a call, or the alarm
goes off. -/
def call (s : State) (cl : Call) : Unit × State :=
  if s.life = .active then
    match body s cl with
    | some s' => ((), s')
    | none => ((), { s with life := .undefined })
  else
    ((), s)

end EC440.ThreadLibrary
