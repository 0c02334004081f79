import EC440.ThreadSync.Calls

/-!
# The alarm between two statements

`call` makes each function of the library one step.  Here a step is one statement, and the alarm
may come between any two of them when `SIGALRM` is not blocked.  `code` is what the thread that has the
processor has still to do in the library, and is empty when it is in the code of the user.  A `jmp_buf`
holds the thread whose stack it is on, and what that thread has still to do.

Statements that are run with `SIGALRM` blocked are put together: what a call does between `lock` and
`unlock` is the statement `body`, and the `switch` of `schedule` is one statement up to `unlock`.
`runs_blocked` shows that they are.

`saved x` is the last context that `x` itself has saved, or was built for it by `pthread_create`;
`pending x` says that the context in its control block is still to be resumed, and `overwritten` that
one was lost.  They are not data of the program.  The contexts and the trace of `mem` are not used.
-/

namespace EC440.ThreadSync

open EC440.Lib

/-- A statement that only writes to the control blocks and the globals. -/
inductive Write
  | newNext (y : Nat)
  | newPrev (y : Nat)
  | currNext (y : Nat)
  | currPrev (y : Nat)
  | readHead
  | headNext (y : Nat)
  | newPrevHead (y : Nat)
  | newReady (y : Nat)
  | countUp
  | newId (y : Nat)
  | currRunning
deriving DecidableEq, Repr

inductive Stmt
  -- `lock`
  | lockQuery
  | lockTest (blocked : Bool)
  | lockEmpty
  | lockAdd
  | lockBlock
  -- `unlock`
  | unlockQuery
  | unlockTest (blocked : Bool)
  | unlockUnblock
  -- `schedule`, and the return from the handler
  | schedule
  | setjmp
  | switch
  | longjmp
  | sigreturn
  -- `pthread_create`
  | init
  | alloc
  | linkTest (y : Nat)
  | write (w : Write)
  -- the other calls
  | body (cl : Call)
  | quit
  -- a function that has returned
  | stale
deriving DecidableEq, Repr

/-- What a `jmp_buf` holds: the thread whose stack it is on, and what is left to do there. -/
structure JmpBuf where
  owner : Nat
  rest : List Stmt
deriving DecidableEq, Repr

structure Machine where
  mem : State
  env : Nat → JmpBuf
  /-- `SIGALRM` is blocked. -/
  blocked : Bool
  /-- `SIGALRM` is a member of the global `sig_mask`. -/
  sigMask : Bool
  code : List Stmt
  saved : Nat → JmpBuf
  pending : Nat → Bool
  overwritten : Bool

/-- Before the first call.  `junk` is what `malloc` finds in the memory of the control blocks. -/
def Machine.start (junk : State) : Machine where
  mem :=
    { State.start with
      threadId := junk.threadId
      status := junk.status
      next := junk.next
      prev := junk.prev }
  env := fun _ => ⟨0, [.stale]⟩
  blocked := false
  sigMask := false
  code := []
  saved := fun _ => ⟨0, [.stale]⟩
  pending := fun _ => false
  overwritten := false

/-! ### The memory -/

/-- The assignments of `pthread_create` behind the new block, and the one of `schedule` behind
`longjmp`. -/
def perform (s : State) : Write → Option State
  | .newNext y => do
    let y ← s.deref (some y)
    some (s.setNext y s.curr)
  | .newPrev y => do
    let y ← s.deref (some y)
    some (s.setPrev y s.curr)
  | .currNext y => do
    let c ← s.deref s.curr
    some (s.setNext c (some y))
  | .currPrev y => do
    let c ← s.deref s.curr
    some (s.setPrev c (some y))
  | .readHead => do
    let c ← s.deref s.curr
    some { s with head := s.prev c }
  | .headNext y => do
    let h ← s.deref s.head
    some (s.setNext h (some y))
  | .newPrevHead y => do
    let y ← s.deref (some y)
    some (s.setPrev y s.head)
  | .newReady y => do
    let y ← s.deref (some y)
    some (s.setStatus y .ready)
  | .countUp => some { s with numCurrThreads := s.numCurrThreads + 1 }
  | .newId y => do
    let y ← s.deref (some y)
    some
      { s with
        threadId := Function.update s.threadId y s.threadIdCounter
        threadIdCounter := (s.threadIdCounter + 1) % 2 ^ 64 }
  | .currRunning => do
    let c ← s.deref s.curr
    some (s.setStatus c .running)

/-- The two ways of `pthread_create` to link the new block. -/
def linkWrites (s : State) (y : Nat) : List Write :=
  if s.numCurrThreads = 1 then [.newNext y, .currPrev y, .currNext y, .newPrev y]
  else [.readHead, .headNext y, .newPrevHead y, .newNext y, .currPrev y]

/-- `pthread_mutex_lock` between `lock` and `unlock`.  `true` is a call of `schedule` at the end. -/
def lockBody (s : State) (o : Nat) : Option (Bool × State) :=
  match s.mutexObj o with
  | none => some (false, s)
  | some i => do
    let m ← s.mutexInfos i
    if m.init then
      if m.locked then
        let c ← s.deref s.curr
        some (true,
          (s.setStatus c .blocked).setMutex i (some { m with waiters := c :: m.waiters }))
      else
        some (false, s.setMutex i (some { m with locked := true }))
    else
      some (false, s)

/-- `pthread_barrier_wait` between `lock` and `unlock`. -/
def waitBody (s : State) (o : Nat) : Option (Bool × State) :=
  match s.barrierObj o with
  | none => some (false, s)
  | some i => do
    let b ← s.barrierInfos i
    if b.init then
      let b := { b with numThreadsEntered := b.numThreadsEntered + 1 }
      if b.numThreadsEntered < b.count then
        let c ← s.deref s.curr
        some (true,
          (s.setStatus c .blocked).setBarrier i (some { b with waiters := c :: b.waiters }))
      else if b.numThreadsEntered = b.count then
        let s ← wakeAll s b.waiters
        some (false, s.setBarrier i (some { b with numThreadsEntered := 0, waiters := [] }))
      else
        some (false, s.setBarrier i (some b))
    else
      some (false, s)

/-- `pthread_exit` between `lock` and `unlock`. -/
def exitBody (s : State) : Option (Bool × State) := do
  let c ← s.deref s.curr
  let s := s.setStatus c .exited
  let s := { s with numCurrThreads := s.numCurrThreads - 1 }
  some (decide (0 < s.numCurrThreads), s)

/-- What a call does between `lock` and `unlock`. -/
def callBody (s : State) : Call → Option (Bool × State)
  | .exit => exitBody s
  | .lock o => lockBody s o
  | .wait o => waitBody s o
  | .mutexInit o => (pthreadMutexInit s o).map fun r => (false, r.2)
  | .mutexDestroy o => (pthreadMutexDestroy s o).map fun r => (false, r.2)
  | .unlock o => (pthreadMutexUnlock s o).map fun r => (false, r.2)
  | .barrierInit o count => (pthreadBarrierInit s o count).map fun r => (false, r.2)
  | .barrierDestroy o => (pthreadBarrierDestroy s o).map fun r => (false, r.2)
  | .create => some (false, s)
  | .alarm => some (false, s)

/-- `if (curr->t_status == TS_RUNNING) curr->t_status = TS_READY`. -/
def demoteCurr (s : State) : Option State := do
  let c ← s.deref s.curr
  some (if s.status c = .running then s.setStatus c .ready else s)

/-- The `switch` of `schedule` up to the `for` loop. -/
def leaveCurr (s : State) (c : Nat) : Option State :=
  match s.status c with
  | .exited => do demoteCurr (← unlinkCurr s c)
  | .running => demoteCurr s
  | .blocked => some s
  | .ready => some s

/-! ### Statements -/

namespace Machine

variable (m : Machine)

/-- `scheduler_init`, in the first call of `pthread_create`.  Up to `ualarm`, which is its last
statement, there is no alarm. -/
def schedulerInit (r : List Stmt) : Machine :=
  let x := m.mem.nextTcb
  let buf : JmpBuf := ⟨m.mem.exec, [.stale]⟩
  { m with
    mem := ThreadSync.schedulerInit { m.mem with isFirstCall := false }
    env := Function.update m.env x buf
    saved := Function.update m.saved m.mem.exec buf
    pending := Function.update m.pending x false
    code := r }

/-- The new block of `pthread_create`, which nobody else has a pointer to. -/
def allocTcb (r : List Stmt) : Machine :=
  let y := m.mem.nextTcb
  { m with
    mem := ThreadSync.allocTcb m.mem
    env := Function.update m.env y ⟨y, []⟩
    saved := Function.update m.saved y ⟨y, []⟩
    pending := Function.update m.pending y true
    code := .linkTest y :: .write (.newReady y) :: .write .countUp :: .write (.newId y) :: r }

/-- `setjmp(curr->env)`. -/
def setjmp (r : List Stmt) : Option Machine := do
  let c ← m.mem.deref m.mem.curr
  let buf : JmpBuf := ⟨m.mem.exec, .write .currRunning :: r⟩
  some
    { m with
      env := Function.update m.env c buf
      saved := Function.update m.saved m.mem.exec buf
      overwritten := m.overwritten || m.pending c
      pending := Function.update m.pending c true
      code := .switch :: r }

/-- `schedule` returns without `longjmp`, and the thread goes on. -/
def goOn (r : List Stmt) : Machine :=
  { m with pending := Function.update m.pending m.mem.exec false, code := r }

/-- `switch (curr->t_status)`, up to `unlock` or to the end of `schedule`. -/
def switch (r : List Stmt) : Option Machine := do
  let c ← m.mem.deref m.mem.curr
  if m.mem.status c = .ready then
    some (m.goOn r)
  else
    let s ← leaveCurr m.mem c
    let c ← s.curr
    match ← search s (maxThreads + 1) c with
    | .thread x =>
      some
        { m with
          mem := { s.setStatus x .running with curr := some x }
          code := .unlockQuery :: .longjmp :: r }
    | .nobody c' => some (goOn { m with mem := { s with curr := c' } } r)

/-- `longjmp(curr->env, 1)`. -/
def longjmp : Option Machine := do
  let c ← m.mem.deref m.mem.curr
  some
    { m with
      mem := { m.mem with exec := (m.env c).owner }
      pending := Function.update m.pending c false
      code := (m.env c).rest }

/-- The next statement, with `r` behind it. -/
def exec (r : List Stmt) : Stmt → Option Machine
  | .lockQuery => some { m with code := .lockTest m.blocked :: r }
  | .lockTest true => some { m with code := r }
  | .lockTest false => some { m with code := .lockEmpty :: .lockAdd :: .lockBlock :: r }
  | .lockEmpty => some { m with sigMask := false, code := r }
  | .lockAdd => some { m with sigMask := true, code := r }
  | .lockBlock => some { m with blocked := m.blocked || m.sigMask, code := r }
  | .unlockQuery => some { m with code := .unlockTest m.blocked :: r }
  | .unlockTest false => some { m with code := r }
  | .unlockTest true => some { m with code := .unlockUnblock :: r }
  | .unlockUnblock => some { m with blocked := m.blocked && !m.sigMask, code := r }
  | .schedule => some { m with code := .lockQuery :: .setjmp :: r }
  | .setjmp => m.setjmp r
  | .switch => m.switch r
  | .longjmp => m.longjmp
  | .sigreturn => some { m with blocked := false, code := r }
  | .init =>
    some (if m.mem.isFirstCall then m.schedulerInit (.alloc :: r) else { m with code := .alloc :: r })
  | .alloc => some (m.allocTcb r)
  | .linkTest y => some { m with code := (linkWrites m.mem y).map .write ++ r }
  | .write w => (perform m.mem w).map fun s => { m with mem := s, code := r }
  | .body cl =>
    (callBody m.mem cl).map fun (again, s) =>
      { m with mem := s, code := if again then .schedule :: r else r }
  | .quit => some { m with mem := { m.mem with life := .exited } }
  | .stale => none

end Machine

/-! ### Runs -/

/-- The statements of a call. -/
def callCode : Call → List Stmt
  | .create => [.init]
  | .exit => [.lockQuery, .body .exit, .unlockQuery, .quit]
  | .alarm => [.schedule, .sigreturn]
  | .barrierInit o count =>
    if count = 0 then [] else [.lockQuery, .body (.barrierInit o count), .unlockQuery]
  | cl => [.lockQuery, .body cl, .unlockQuery]

/-- The call can be made: the alarm when it is set up and not blocked, and the others from the code of
the user. -/
def Machine.accepts (m : Machine) : Call → Bool
  | .alarm => !m.mem.isFirstCall && !m.blocked
  | _ => m.code.isEmpty

inductive Move
  | step
  | call (cl : Call)
deriving DecidableEq, Repr

/-- The thread that has the processor executes a statement, or makes a call, or the alarm goes
off. -/
def move (m : Machine) (mv : Move) : Unit × Machine :=
  if m.mem.life = .active then
    match mv with
    | .call cl => ((), if m.accepts cl then { m with code := callCode cl ++ m.code } else m)
    | .step =>
      match m.code with
      | [] => ((), m)
      | st :: r =>
        match m.exec r st with
        | some m' => ((), m')
        | none => ((), { m with mem := { m.mem with life := .undefined } })
  else
    ((), m)

end EC440.ThreadSync
