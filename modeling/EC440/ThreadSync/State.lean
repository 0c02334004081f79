import Mathlib.Logic.Function.Basic
import Mathlib.Tactic.Common

/-!
# The threads of the library

The data of `threads.c` and `threads.h` of `thread_synchronization`: the thread control
blocks with their links and saved contexts, the globals of the scheduler, and what the
mutex and barrier objects refer to.

A pointer to a thread control block is a number, and each field of the `struct` is a map
from these numbers; `live` says which blocks are allocated.  A `pthread_mutex_t` or
`pthread_barrier_t` at address `o` holds a pointer to its `mutex_info` or
`barrier_info`, `none` when it is zero; each initialisation allocates a new one.

Two things are not data of the program.  `exec` is the thread whose stack the processor is
on, which the program only guesses by `curr`.  `trace` is what has happened, so that
one can say in which order.

Allocations succeed.  The stacks, `tail`, `mutex_id` and `barrier_id` are written but never read,
and are left out.
-/

namespace EC440.ThreadSync

/-- `enum thread_status`. -/
inductive Status
  | exited
  | running
  | ready
  | blocked
deriving DecidableEq, Repr

/-- Where a thread goes on when its saved context is resumed: at its start routine, in
`scheduler_init`, behind the handler of the alarm, or behind the call of `schedule` in
`pthread_mutex_lock`, `pthread_barrier_wait` or `pthread_exit`. -/
inductive Point
  | start
  | init
  | user
  | inLock (i : Nat)
  | inWait (i : Nat)
  | inExit
deriving DecidableEq, Repr

/-- What a `jmp_buf` holds: the thread whose stack it is on, and the place in its code. -/
structure Context where
  owner : Nat
  point : Point
deriving DecidableEq, Repr

/-- `struct mutex_info`, with its queue of threads. -/
structure MutexInfo where
  init : Bool
  locked : Bool
  waiters : List Nat
deriving DecidableEq, Repr

/-- `struct barrier_info`, with its queue of threads. -/
structure BarrierInfo where
  init : Bool
  numThreadsEntered : Int
  count : Int
  waiters : List Nat
deriving DecidableEq, Repr

/-- What a run is observed by.  The numbers are the thread and the `mutex_info` or `barrier_info`. -/
inductive Event
  | lockCalled (t i : Nat) (locked : Bool)
  | acquired (t i : Nat)
  | lockReturned (t i : Nat)
  | unlocked (t i : Nat)
  | handed (t i : Nat)
  | barrierMade (i count : Nat)
  | arrived (t i : Nat)
  | waitReturned (t i : Nat) (r : Int)
  | dispatched (t : Nat)
deriving DecidableEq, Repr

/-- Whether the process still runs.  After an access through a null or dangling pointer
nothing is said any more. -/
inductive Life
  | active
  | exited
  | undefined
deriving DecidableEq, Repr

structure State where
  live : Nat → Bool
  threadId : Nat → Nat
  status : Nat → Status
  env : Nat → Context
  next : Nat → Option Nat
  prev : Nat → Option Nat
  nextTcb : Nat
  head : Option Nat
  curr : Option Nat
  threadIdCounter : Nat
  numCurrThreads : Int
  isFirstCall : Bool
  mutexObj : Nat → Option Nat
  mutexInfos : Nat → Option MutexInfo
  nextMutex : Nat
  barrierObj : Nat → Option Nat
  barrierInfos : Nat → Option BarrierInfo
  nextBarrier : Nat
  exec : Nat
  life : Life
  trace : List Event

/-- Before the first call: only the main thread, without a control block. -/
def State.start : State where
  live := fun _ => false
  threadId := fun _ => 0
  status := fun _ => .exited
  env := fun _ => ⟨0, .init⟩
  next := fun _ => none
  prev := fun _ => none
  nextTcb := 0
  head := none
  curr := none
  threadIdCounter := 0
  numCurrThreads := 0
  isFirstCall := true
  mutexObj := fun _ => none
  mutexInfos := fun _ => none
  nextMutex := 0
  barrierObj := fun _ => none
  barrierInfos := fun _ => none
  nextBarrier := 0
  exec := 0
  life := .active
  trace := []

namespace State

variable (s : State)

/-- A pointer that may be followed. -/
def deref (p : Option Nat) : Option Nat := p.filter fun x => s.live x

def setStatus (x : Nat) (st : Status) : State := { s with status := Function.update s.status x st }

def setNext (x : Nat) (p : Option Nat) : State := { s with next := Function.update s.next x p }

def setPrev (x : Nat) (p : Option Nat) : State := { s with prev := Function.update s.prev x p }

def setEnv (x : Nat) (e : Context) : State := { s with env := Function.update s.env x e }

def setMutex (i : Nat) (m : Option MutexInfo) : State :=
  { s with mutexInfos := Function.update s.mutexInfos i m }

def setBarrier (i : Nat) (b : Option BarrierInfo) : State :=
  { s with barrierInfos := Function.update s.barrierInfos i b }

def log (es : List Event) : State := { s with trace := s.trace ++ es }

end State

end EC440.ThreadSync
