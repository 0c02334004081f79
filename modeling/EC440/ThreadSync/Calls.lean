import EC440.Lib.Run
import EC440.Lib.Words
import EC440.ThreadSync.State

/-!
# The calls of the library

Each function of `threads.c` as one step.  `none` is an access through a null or a
dangling pointer, after which the process is `undefined`.

`schedule` saves the context of the caller in `curr->env` and looks for a thread that is
`TS_READY`.  When it finds one, the processor goes on with the context of that thread
(`dispatch`), at the place where it was saved (`continueAt`).  When it finds none, it
returns to its caller, with `curr` where the search ended.
-/

namespace EC440.ThreadSync

open EC440.Lib

/-- `MAX_THREADS`. -/
def maxThreads : Nat := 128

/-- `PTHREAD_BARRIER_SERIAL_THREAD`. -/
def barrierSerialThread : Int := -1

/-- `EINVAL`. -/
def einval : Int := 22

/-! ### The scheduler -/

/-- What a thread does next when `schedule` returns or is left by `longjmp` to its context. -/
def continueAt (s : State) : Point → Option State
  | .start => some s
  | .user => some s
  | .init => none
  | .inLock i => some (s.log [.lockReturned s.exec i])
  | .inWait i => some (s.log [.waitReturned s.exec i 0])
  | .inExit => some { s with life := .exited }

/-- `curr->t_status = TS_RUNNING; unlock(); longjmp(curr->env, 1)`. -/
def dispatch (s : State) (x : Nat) : Option State :=
  let s := { s.setStatus x .running with curr := some x, exec := (s.env x).owner }
  continueAt (s.log [.dispatched x]) (s.env x).point

/-- How the search of `schedule` ends: with a thread, or with the last value of `curr`. -/
inductive Found
  | thread (x : Nat)
  | nobody (curr : Option Nat)
deriving DecidableEq, Repr

/-- The `for` loop of `schedule`, with `k` rounds to go. -/
def search (s : State) : Nat → Nat → Option Found
  | 0, c => some (.nobody (some c))
  | k + 1, c =>
    match s.next c with
    | none => some (.nobody none)
    | some n =>
      if s.live n then
        if s.status n = .ready then some (.thread n) else search s k n
      else none

/-- `case TS_BLOCKED` of `schedule`. -/
def pickNext (s : State) (p : Point) : Option State := do
  let c ← s.curr
  match ← search s (maxThreads + 1) c with
  | .thread x => dispatch s x
  | .nobody c' => continueAt { s with curr := c' } p

/-- `case TS_RUNNING` of `schedule`. -/
def pauseCurr (s : State) (p : Point) : Option State := do
  let c ← s.deref s.curr
  pickNext (if s.status c = .running then s.setStatus c .ready else s) p

/-- `case TS_EXITED` of `schedule`: `curr` is freed and its neighbours are joined. -/
def unlinkCurr (s : State) (c : Nat) : Option State := do
  let p ← s.prev c
  let n ← s.next c
  let s := { s with live := Function.update s.live c false }
  let p ← s.deref (some p)
  let s := s.setNext p (some n)
  let n ← s.deref (some n)
  some { s.setPrev n (some p) with curr := some p }

/-- `schedule`, called at the place `p` of the code. -/
def schedule (s : State) (p : Point) : Option State := do
  let c ← s.deref s.curr
  let s := s.setEnv c ⟨s.exec, p⟩
  match s.status c with
  | .exited => pauseCurr (← unlinkCurr s c) p
  | .running => pauseCurr s p
  | .blocked => pickNext s p
  | .ready => continueAt s p

/-! ### Threads -/

/-- `scheduler_init`. -/
def schedulerInit (s : State) : State :=
  let x := s.nextTcb
  let s := { s with live := Function.update s.live x true, nextTcb := x + 1 }
  let s := (((s.setEnv x ⟨s.exec, .init⟩).setNext x none).setPrev x none).setStatus x .running
  { s with
    curr := some x
    head := some x
    threadId := Function.update s.threadId x 0
    threadIdCounter := 1
    numCurrThreads := 1 }

/-- The linking section of `pthread_create`. -/
def linkNew (s : State) (y : Nat) : Option State := do
  let c ← s.deref s.curr
  if s.numCurrThreads = 1 then
    some ((((s.setNext y (some c)).setPrev c (some y)).setNext c (some y)).setPrev y (some c))
  else
    let h ← s.deref (s.prev c)
    let s := { s with head := some h }
    some ((((s.setNext h (some y)).setPrev y (some h)).setNext y (some c)).setPrev c (some y))

/-- The new block of `pthread_create`, with the context in which the thread starts. -/
def allocTcb (s : State) : State :=
  let y := s.nextTcb
  let s := { s with live := Function.update s.live y true, nextTcb := y + 1 }
  s.setEnv y ⟨y, .start⟩

/-- `pthread_create` behind `scheduler_init`. -/
def createThread (s : State) : Option (Option Int × State) := do
  let y := s.nextTcb
  let s ← linkNew (allocTcb s) y
  let s := s.setStatus y .ready
  some (some 0,
    { s with
      numCurrThreads := s.numCurrThreads + 1
      threadId := Function.update s.threadId y s.threadIdCounter
      threadIdCounter := (s.threadIdCounter + 1) % 2 ^ 64 })

def pthreadCreate (s : State) : Option (Option Int × State) :=
  createThread (if s.isFirstCall then schedulerInit { s with isFirstCall := false } else s)

def pthreadExit (s : State) : Option (Option Int × State) := do
  let c ← s.deref s.curr
  let s := s.setStatus c .exited
  let s := { s with numCurrThreads := s.numCurrThreads - 1 }
  if 0 < s.numCurrThreads then
    some (none, ← schedule s .inExit)
  else
    some (none, { s with life := .exited })

/-- `SIGALRM` in the code of the user.  The handler and the alarm are set up by the first
`pthread_create`. -/
def alarm (s : State) : Option (Option Int × State) :=
  if s.isFirstCall then some (none, s) else (schedule s .user).map fun s => (none, s)

/-! ### Mutexes -/

def pthreadMutexInit (s : State) (o : Nat) : Option (Option Int × State) :=
  let i := s.nextMutex
  let s := s.setMutex i (some { init := true, locked := false, waiters := [] })
  some (some 0, { s with mutexObj := Function.update s.mutexObj o (some i), nextMutex := i + 1 })

def pthreadMutexDestroy (s : State) (o : Nat) : Option (Option Int × State) :=
  match s.mutexObj o with
  | none => some (some (-1), s)
  | some i => do
    let _ ← s.mutexInfos i
    some (some 0, s.setMutex i none)

/-- A call that goes through `schedule` replies nothing here: its return is in the trace. -/
def pthreadMutexLock (s : State) (o : Nat) : Option (Option Int × State) :=
  match s.mutexObj o with
  | none => some (some (-1), s)
  | some i => do
    let m ← s.mutexInfos i
    let s := s.log [.lockCalled s.exec i m.locked]
    if m.init then
      if m.locked then
        let c ← s.deref s.curr
        let s := (s.setStatus c .blocked).setMutex i (some { m with waiters := c :: m.waiters })
        some (none, ← schedule s (.inLock i))
      else
        let s := s.setMutex i (some { m with locked := true })
        some (some 0, s.log [.acquired s.exec i, .lockReturned s.exec i])
    else
      some (some 0, s.log [.lockReturned s.exec i])

def pthreadMutexUnlock (s : State) (o : Nat) : Option (Option Int × State) :=
  match s.mutexObj o with
  | none => some (some (-1), s)
  | some i => do
    let m ← s.mutexInfos i
    if m.init then
      if m.locked then
        match m.waiters with
        | [] =>
          let s := s.setMutex i (some { m with locked := false })
          some (some 0, s.log [.unlocked s.exec i])
        | x :: ws =>
          let x ← s.deref (some x)
          let s := (s.setStatus x .ready).setMutex i (some { m with waiters := ws })
          some (some 0, s.log [.unlocked s.exec i, .handed x i])
      else
        some (some (-1), s)
    else
      some (some 0, s)

/-! ### Barriers -/

def pthreadBarrierInit (s : State) (o : Nat) (count : UInt32) : Option (Option Int × State) :=
  if count = 0 then
    some (some einval, s)
  else
    let i := s.nextBarrier
    let s := s.setBarrier i
      (some { init := true, numThreadsEntered := 0, count := Int.bmod count.toNat (2 ^ 32), waiters := [] })
    let s := { s with barrierObj := Function.update s.barrierObj o (some i), nextBarrier := i + 1 }
    some (some 0, s.log [.barrierMade i count.toNat])

def pthreadBarrierDestroy (s : State) (o : Nat) : Option (Option Int × State) :=
  match s.barrierObj o with
  | none => some (some (-1), s)
  | some i => do
    let _ ← s.barrierInfos i
    some (some 0, s.setBarrier i none)

/-- The `while` loop of `pthread_barrier_wait` that wakes the waiters. -/
def wakeAll (s : State) : List Nat → Option State
  | [] => some s
  | x :: ws => do
    let x ← s.deref (some x)
    wakeAll (s.setStatus x .ready) ws

def pthreadBarrierWait (s : State) (o : Nat) : Option (Option Int × State) :=
  match s.barrierObj o with
  | none => some (some 0, s)
  | some i => do
    let b ← s.barrierInfos i
    if b.init then
      let b := { b with numThreadsEntered := b.numThreadsEntered + 1 }
      let s := s.log [.arrived s.exec i]
      if b.numThreadsEntered < b.count then
        let c ← s.deref s.curr
        let s := (s.setStatus c .blocked).setBarrier i (some { b with waiters := c :: b.waiters })
        some (none, ← schedule s (.inWait i))
      else if b.numThreadsEntered = b.count then
        let s ← wakeAll s b.waiters
        let s := s.setBarrier i (some { b with numThreadsEntered := 0, waiters := [] })
        some (some barrierSerialThread, s.log [.waitReturned s.exec i barrierSerialThread])
      else
        let s := s.setBarrier i (some b)
        some (some 0, s.log [.waitReturned s.exec i 0])
    else
      some (some 0, s)

/-! ### Runs -/

inductive Call
  | create
  | exit
  | alarm
  | mutexInit (o : Nat)
  | mutexDestroy (o : Nat)
  | lock (o : Nat)
  | unlock (o : Nat)
  | barrierInit (o : Nat) (count : UInt32)
  | barrierDestroy (o : Nat)
  | wait (o : Nat)
deriving DecidableEq, Repr

def body (s : State) : Call → Option (Option Int × State)
  | .create => pthreadCreate s
  | .exit => pthreadExit s
  | .alarm => alarm s
  | .mutexInit o => pthreadMutexInit s o
  | .mutexDestroy o => pthreadMutexDestroy s o
  | .lock o => pthreadMutexLock s o
  | .unlock o => pthreadMutexUnlock s o
  | .barrierInit o count => pthreadBarrierInit s o count
  | .barrierDestroy o => pthreadBarrierDestroy s o
  | .wait o => pthreadBarrierWait s o

/-- One atomic step of the process: the thread that has the processor makes a call, or the
alarm goes off in its code. -/
def call (s : State) (cl : Call) : Option Int × State :=
  if s.life = .active then
    match body s cl with
    | some r => r
    | none => (none, { s with life := .undefined })
  else
    (none, s)

end EC440.ThreadSync
