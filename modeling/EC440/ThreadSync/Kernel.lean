import EC440.Lib.Turns
import EC440.ThreadSync.Invariant

/-!
# What the library is for

A kernel without control blocks, links and saved contexts: the threads that do not have the processor
stand in a queue, and the first one of them that is ready gets it next (`Kernel.turn`).  A mutex is a lock
with a stack of threads, and a barrier is a number of threads to come with those that are there.

`Realises s k` says that the globals of the library, with its ring and the contexts in it, are such a
kernel.  It is what a call needs of the state it is made in, and what it leaves.
-/

namespace EC440.ThreadSync

open EC440.Lib

/-! ### The kernel -/

/-- A thread that does not have the processor: whether it may get it, and where it goes on then. -/
structure Thread where
  number : Nat
  ready : Bool
  point : Point
deriving DecidableEq

structure Mutex where
  locked : Bool
  waiters : List Nat
deriving DecidableEq

structure Barrier where
  count : Nat
  waiters : List Nat
deriving DecidableEq

/-- `created` is the number of threads so far, zero before the first `pthread_create`.  The objects refer to
what was made for them, by number. -/
structure Kernel where
  created : Nat
  running : Nat
  others : List Thread
  mutexAt : Nat → Option Nat
  mutexes : Nat → Option Mutex
  mutexCount : Nat
  barrierAt : Nat → Option Nat
  barriers : Nat → Option Barrier
  barrierCount : Nat
  finished : Bool
  trace : List Event

namespace Kernel

/-- Before the first call. -/
def start : Kernel where
  created := 0
  running := 0
  others := []
  mutexAt := fun _ => none
  mutexes := fun _ => none
  mutexCount := 0
  barrierAt := fun _ => none
  barriers := fun _ => none
  barrierCount := 0
  finished := false
  trace := []

variable (k : Kernel)

def log (es : List Event) : Kernel := { k with trace := k.trace ++ es }

def setMutex (i : Nat) (m : Option Mutex) : Kernel := { k with mutexes := Function.update k.mutexes i m }

def setBarrier (i : Nat) (b : Option Barrier) : Kernel :=
  { k with barriers := Function.update k.barriers i b }

/-- The threads of `ws` may go on. -/
def wake (ws : List Nat) : Kernel :=
  { k with others := k.others.map fun t => if t.number ∈ ws then { t with ready := true } else t }

/-- The first ready thread of the queue gets the processor.  When there is none, the process ends. -/
def turn (ts : List Thread) : Kernel :=
  match firstTurn Thread.ready ts with
  | none => { k with finished := true }
  | some (t, ts) =>
    { k with
      running := t.number
      others := ts
      trace := k.trace ++ .dispatched t.number :: returns t.number t.point }

/-- The queue with the running thread at its end. -/
def behind (ready : Bool) (p : Point) : List Thread := k.others ++ [⟨k.running, ready, p⟩]

def create : Kernel :=
  let n := max k.created 1
  { k with created := n + 1, others := k.others ++ [⟨n, true, .start⟩] }

def newMutex (o : Nat) : Kernel :=
  { k.setMutex k.mutexCount (some ⟨false, []⟩) with
    mutexAt := Function.update k.mutexAt o (some k.mutexCount)
    mutexCount := k.mutexCount + 1 }

def newBarrier (o count : Nat) : Kernel :=
  { (k.setBarrier k.barrierCount (some ⟨count, []⟩)).log [.barrierMade k.barrierCount count] with
    barrierAt := Function.update k.barrierAt o (some k.barrierCount)
    barrierCount := k.barrierCount + 1 }

def lock (i : Nat) (m : Mutex) : Option Int × Kernel :=
  if m.locked then
    let k' := k.setMutex i (some { m with waiters := k.running :: m.waiters })
    (none, (k'.log [.lockCalled k.running i true]).turn (k.behind false (.inLock i)))
  else
    (some 0, (k.setMutex i (some { m with locked := true })).log
      [.lockCalled k.running i false, .acquired k.running i, .lockReturned k.running i])

/-- The thread that came last gets the mutex. -/
def unlock (i : Nat) (m : Mutex) : Option Int × Kernel :=
  if m.locked then
    match m.waiters with
    | [] => (some 0, (k.setMutex i (some { m with locked := false })).log [.unlocked k.running i])
    | x :: ws =>
      (some 0, ((k.wake [x]).setMutex i (some { m with waiters := ws })).log
        [.unlocked k.running i, .handed x i])
  else
    (some (-1), k)

def wait (i : Nat) (b : Barrier) : Option Int × Kernel :=
  if b.waiters.length + 1 < b.count then
    let k' := k.setBarrier i (some { b with waiters := k.running :: b.waiters })
    (none, (k'.log [.arrived k.running i]).turn (k.behind false (.inWait i)))
  else
    (some barrierSerialThread, ((k.wake b.waiters).setBarrier i (some { b with waiters := [] })).log
      [.arrived k.running i, .waitReturned k.running i barrierSerialThread])

/-- `f`, for what the object refers to. -/
def refer {α : Type} (at? : Option Nat) (made : Nat → Option α) (unmade : Int)
    (f : Nat → α → Option Int × Kernel) : Option Int × Kernel :=
  match at? with
  | none => (some unmade, k)
  | some i =>
    match made i with
    | none => (none, k)
    | some a => f i a

def answer : Call → Option Int × Kernel
  | .create => (some 0, k.create)
  | .exit => (none, k.turn k.others)
  | .alarm => (none, if k.created = 0 then k else k.turn (k.behind true .user))
  | .mutexInit o => (some 0, k.newMutex o)
  | .mutexDestroy o => k.refer (k.mutexAt o) k.mutexes (-1) fun i _ => (some 0, k.setMutex i none)
  | .lock o => k.refer (k.mutexAt o) k.mutexes (-1) k.lock
  | .unlock o => k.refer (k.mutexAt o) k.mutexes (-1) k.unlock
  | .barrierInit o count => if count = 0 then (some einval, k) else (some 0, k.newBarrier o count.toNat)
  | .barrierDestroy o => k.refer (k.barrierAt o) k.barriers (-1) fun i _ => (some 0, k.setBarrier i none)
  | .wait o => k.refer (k.barrierAt o) k.barriers 0 k.wait

/-- One step: the thread that has the processor makes a call, or its time is over. -/
def step (cl : Call) : Option Int × Kernel := if k.finished then (none, k) else k.answer cl

/-- Somebody could go on. -/
def someReady : Bool := k.others.any Thread.ready

/-- The object refers to something that was not destroyed, of which `P` holds, when it refers to anything. -/
def Refers {α : Type} (at? : Option Nat) (made : Nat → Option α) (P : α → Prop) : Prop :=
  ∀ i ∈ at?, (made i).isSome = true ∧ ∀ a ∈ made i, P a

/-- What a call may expect: room for another thread, a thread to exit, an object that was not destroyed, and
someone who goes on when the caller cannot. -/
def Allows : Call → Prop
  | .create => k.others.length < maxThreads
  | .exit => k.created ≠ 0
  | .alarm => True
  | .mutexInit _ => True
  | .mutexDestroy o => Refers (k.mutexAt o) k.mutexes fun _ => True
  | .lock o => Refers (k.mutexAt o) k.mutexes fun m => m.locked = true → k.someReady = true
  | .unlock o => Refers (k.mutexAt o) k.mutexes fun _ => True
  | .barrierInit _ count => count.toNat < 2 ^ 31
  | .barrierDestroy o => Refers (k.barrierAt o) k.barriers fun _ => True
  | .wait o => Refers (k.barrierAt o) k.barriers fun b =>
      b.waiters.length + 1 < b.count → k.someReady = true

/-- The limits of the library. -/
def Within (cl : Call) : Prop := k.finished = false → k.Allows cl

instance {α : Type} (at? : Option Nat) (made : Nat → Option α) (P : α → Prop) [DecidablePred P] :
    Decidable (Refers at? made P) := inferInstanceAs (Decidable (∀ i ∈ at?, _ ∧ ∀ a ∈ made i, P a))

instance : (cl : Call) → Decidable (k.Allows cl)
  | .create => inferInstanceAs (Decidable (_ < _))
  | .exit => inferInstanceAs (Decidable (_ ≠ _))
  | .alarm => inferInstanceAs (Decidable True)
  | .mutexInit _ => inferInstanceAs (Decidable True)
  | .mutexDestroy o => inferInstanceAs (Decidable (Refers (k.mutexAt o) k.mutexes fun _ => True))
  | .lock o => inferInstanceAs (Decidable (Refers (k.mutexAt o) k.mutexes fun m =>
      m.locked = true → k.someReady = true))
  | .unlock o => inferInstanceAs (Decidable (Refers (k.mutexAt o) k.mutexes fun _ => True))
  | .barrierInit _ count => inferInstanceAs (Decidable (count.toNat < 2 ^ 31))
  | .barrierDestroy o => inferInstanceAs (Decidable (Refers (k.barrierAt o) k.barriers fun _ => True))
  | .wait o => inferInstanceAs (Decidable (Refers (k.barrierAt o) k.barriers fun b =>
      b.waiters.length + 1 < b.count → k.someReady = true))

instance (cl : Call) : Decidable (k.Within cl) := inferInstanceAs (Decidable (_ → _))

end Kernel

/-! ### The globals that are a kernel -/

/-- The block of a thread that is at rest. -/
structure Thread.Rests (s : State) (t : Thread) : Prop where
  status : s.status t.number = .ready ↔ t.ready = true
  point : (s.env t.number).point = t.point

def Mutex.info (m : Mutex) : MutexInfo := ⟨true, m.locked, m.waiters⟩

def Barrier.info (b : Barrier) : BarrierInfo := ⟨true, b.waiters.length, b.count, b.waiters⟩

/-- The objects and what they refer to. -/
structure Objects (s : State) (k : Kernel) : Prop where
  mutexAt : s.mutexObj = k.mutexAt
  mutexes : ∀ i, s.mutexInfos i = (k.mutexes i).map Mutex.info
  mutexCount : s.nextMutex = k.mutexCount
  barrierAt : s.barrierObj = k.barrierAt
  barriers : ∀ i, s.barrierInfos i = (k.barriers i).map Barrier.info
  barrierCount : s.nextBarrier = k.barrierCount
  room : ∀ i b, k.barriers i = some b → b.waiters.length < b.count

structure Realises (s : State) (k : Kernel) : Prop where
  life : s.life = .active
  going : k.finished = false
  stage : Stage s (k.others.map Thread.number) k.running
  queued : Queued s
  rests : ∀ t ∈ k.others, t.Rests s
  few : k.others.length ≤ maxThreads
  created : s.nextTcb = k.created
  first : s.isFirstCall = true ↔ k.created = 0
  objects : Objects s k
  trace : s.trace = k.trace

/-- The process and the kernel, or what is left of them. -/
inductive Agrees (s : State) (k : Kernel) : Prop
  | going (h : Realises s k)
  | finished (life : s.life = .exited) (finished : k.finished = true) (trace : s.trace = k.trace)

end EC440.ThreadSync
