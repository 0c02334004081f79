import EC440.Lib.Prog
import EC440.Tls.Registry

/-!
# Thread-local storage: reading and writing

`tls_read`, `tls_write` and `copy_page` as programs of the steps other threads can
come between: a lock or unlock, an `mprotect`, a `memcpy`, a read or a change of a
reference count or of a slot of `tls->pages`.  `machine` says what each step does.
A step is unsafe when it follows a freed pointer, leaves the array `pages`, or
copies some bytes from or to memory that is not `PROT_READ | PROT_WRITE`.

A call made alone runs its program to the end (`call`).
-/

namespace EC440.Tls

open EC440.Lib

/-- The steps.  `h` is a pair with its area, `p` and `q` are pages. -/
inductive Act
  | setPageSize
  | pageSize
  | getTls (tid : Nat)
  | tlsSize (h : Nat)
  | loadSlot (h i : Nat)
  | storeSlot (h i p : Nat)
  | refCount (p : Nat)
  | decRefCount (p : Nat)
  | lock (m : Mutex)
  | unlock (m : Mutex)
  | mapPage
  | mprotect (p : Nat) (prot : Prot)
  | copyOut (p off len : Nat)
  | copyIn (p off len : Nat) (src : Nat → UInt8)
  | copyPage (q p : Nat)

def Reply : Act → Type
  | .setPageSize | .storeSlot _ _ _ | .decRefCount _ | .copyIn _ _ _ _ | .copyPage _ _ => Unit
  | .pageSize | .loadSlot _ _ | .mapPage => Nat
  | .getTls _ => Option Nat
  | .tlsSize _ => UInt32
  | .refCount _ | .lock _ | .unlock _ | .mprotect _ _ => Int
  | .copyOut _ _ _ => List UInt8

def sig : Sig := ⟨Act, Reply⟩

/-- The bytes `f off, …, f (off + len - 1)`. -/
def slice (f : Nat → UInt8) (off len : Nat) : List UInt8 :=
  (List.range len).map fun k => f (off + k)

/-- `memcpy` of `len` bytes of `src` to `f + off`. -/
def blit (f : Nat → UInt8) (off len : Nat) (src : Nat → UInt8) : Nat → UInt8 :=
  fun k => if off ≤ k ∧ k < off + len then src (k - off) else f k

/-- The mapping a page points to. -/
def mapping (s : State) (p : Nat) : Option Mapping :=
  match s.pages p with
  | none => none
  | some pg => s.mem pg.address

/-- The memory with the mapping of `p` replaced, where it is mapped. -/
def modifyMapping (s : State) (p : Nat) (f : Mapping → Mapping) : State :=
  match s.pages p with
  | none => s
  | some pg => { s with mem := Function.update s.mem pg.address ((s.mem pg.address).map f) }

/-- The page is mapped with `PROT_READ | PROT_WRITE`. -/
def accessible (s : State) (p : Nat) : Bool := (mapping s p).any fun m => m.prot = .readWrite

/-- `tls->pages[i] = p` -/
def storeSlot (s : State) (h i p : Nat) : State :=
  { s with pairs := Function.update s.pairs h ((s.pairs h).map fun tt =>
      { tt with tls := { tt.tls with pages := tt.tls.pages.set i p } }) }

def decRefCount (s : State) (p : Nat) : State :=
  { s with pages := Function.update s.pages p ((s.pages p).map fun pg =>
      { pg with refCount := pg.refCount - 1 }) }

def setLock (s : State) (m : Mutex) (b : Bool) : State :=
  { s with locked := Function.update s.locked m b }

/-- The page `p` of an area of the pair `h` is `tls->pages[i]`. -/
def slot (s : State) (h i : Nat) : Option Nat :=
  match s.pairs h with
  | none => none
  | some tt => tt.tls.pages[i]?

def ready : Act → State → Bool
  | .lock m, s => !s.locked m
  | _, _ => true

def safe (E : Platform) : Act → State → Bool
  | .getTls tid, s => (Tls.getTls s tid).isSome
  | .tlsSize h, s => (s.pairs h).isSome
  | .loadSlot h i, s | .storeSlot h i _, s => (slot s h i).isSome
  | .refCount p, s | .decRefCount p, s | .mprotect p _, s => (s.pages p).isSome
  | .copyOut p off len, s | .copyIn p off len _, s =>
      decide (len = 0) || (accessible s p && decide (off + len ≤ E.getpagesize))
  | .copyPage q p, s => accessible s q && accessible s p
  | .setPageSize, _ | .pageSize, _ | .lock _, _ | .unlock _, _ | .mapPage, _ => true

def perform (E : Platform) : (a : Act) → State → Reply a × State
  | .setPageSize, s => ((), { s with pageSize := E.getpagesize })
  | .pageSize, s => (s.pageSize, s)
  | .getTls tid, s => ((Tls.getTls s tid).getD none, s)
  | .tlsSize h, s => (((s.pairs h).map fun tt => tt.tls.size).getD (0 : UInt32), s)
  | .loadSlot h i, s => ((slot s h i).getD 0, s)
  | .storeSlot h i p, s => ((), storeSlot s h i p)
  | .refCount p, s => (((s.pages p).map Page.refCount).getD 0, s)
  | .decRefCount p, s => ((), decRefCount s p)
  | .lock m, s => ((0 : Int), setLock s m true)
  | .unlock m, s => ((0 : Int), setLock s m false)
  | .mapPage, s => (s.nextPage, mapPage E s)
  | .mprotect p prot, s =>
      if (mapping s p).isSome then
        ((0 : Int), modifyMapping s p fun m => { m with prot := prot })
      else ((-1 : Int), s)
  | .copyOut p off len, s => (slice ((mapping s p).elim (fun _ => 0) Mapping.bytes) off len, s)
  | .copyIn p off len src, s =>
      ((), modifyMapping s p fun m => { m with bytes := blit m.bytes off len src })
  | .copyPage q p, s =>
      ((), modifyMapping s q fun m => { m with
        bytes := blit m.bytes 0 s.pageSize ((mapping s p).elim (fun _ => 0) Mapping.bytes) })

def machine (E : Platform) : Machine sig State where
  ready := ready
  safe := safe E
  perform := perform E

/-! ### `copy_page`, `tls_read` and `tls_write`

A failed step returns `-1` at once.  The `while` loops are given the number of rounds they
may take; a round moves on by a whole page, so one more than `length` is more than enough. -/

/-- Do `a` and return `e` when it gives `-1`. -/
def tryMprotect {α : Type} (p : Nat) (prot : Prot) (e : α) (k : Prog sig α) : Prog sig α :=
  .act (.mprotect p prot) fun (r : Int) => if r = -1 then .ret e else k

def tryLock {α : Type} (m : Mutex) (e : α) (k : Prog sig α) : Prog sig α :=
  .act (.lock m) fun (r : Int) => if r ≠ 0 then .ret e else k

def tryUnlock {α : Type} (m : Mutex) (e : α) (k : Prog sig α) : Prog sig α :=
  .act (.unlock m) fun (r : Int) => if r ≠ 0 then .ret e else k

/-- `copy_page`, and `k` after it when it returns `0`; both callers return `-1` otherwise. -/
def copyPage (h p pageIndex : Nat) (k : Prog sig Int) : Prog sig Int :=
  tryLock .copy (-1) <|
  .act .mapPage fun (copy : Nat) =>
  tryMprotect p .readWrite (-1) <|
  tryMprotect copy .readWrite (-1) <|
  .act (.copyPage copy p) fun _ =>
  tryMprotect p .none (-1) <|
  tryMprotect copy .none (-1) <|
  .act (.decRefCount p) fun _ =>
  .act (.storeSlot h pageIndex copy) fun _ =>
  tryUnlock .copy (-1) k

/-- One segment of a read: `len` bytes of the page `p` from `off` on, after those in `buffer`. -/
def readSegment (p off len : Nat) (buffer : List UInt8)
    (k : List UInt8 → Prog sig (Int × List UInt8)) : Prog sig (Int × List UInt8) :=
  tryMprotect p .readWrite (-1, buffer) <|
  .act (.copyOut p off len) fun (bytes : List UInt8) =>
  tryMprotect p .none (-1, buffer ++ bytes) <|
  k (buffer ++ bytes)

def readDone (buffer : List UInt8) : Prog sig (Int × List UInt8) :=
  tryUnlock .read (-1, buffer) (.ret (0, buffer))

def readLoop (pageSize h startPage length : Nat) :
    Nat → Nat → Nat → List UInt8 → Prog sig (Int × List UInt8)
  | 0, _, _, buffer => readDone buffer
  | n + 1, read, pageIndex, buffer =>
      if read < length then
        .act (.loadSlot h (startPage + pageIndex)) fun (currPage : Nat) =>
        if length - read > pageSize then
          readSegment currPage 0 pageSize buffer fun buffer =>
            readLoop pageSize h startPage length n (read + pageSize) (pageIndex + 1) buffer
        else
          readSegment currPage 0 (length - read) buffer readDone
      else readDone buffer

/-- `tls_read`, with the bytes it has put in the buffer. -/
def tlsRead (self : Nat) (offset length : UInt32) : Prog sig (Int × List UInt8) :=
  .act .setPageSize fun _ =>
  .act (.getTls self) fun (tls : Option Nat) =>
  match tls with
  | none => .ret (-1, [])
  | some h =>
      .act (.tlsSize h) fun (size : UInt32) =>
      if offset + length > size then .ret (-1, [])
      else
        .act .pageSize fun (pageSize : Nat) =>
        let startPage := offset.toNat / pageSize
        let startPageOffset := offset.toNat % pageSize
        .act (.loadSlot h startPage) fun (currPage : Nat) =>
        let bytesAvailOnPage := pageSize - startPageOffset
        tryLock .read (-1, []) <|
        if length.toNat > bytesAvailOnPage then
          readSegment currPage startPageOffset bytesAvailOnPage [] fun buffer =>
            readLoop pageSize h startPage length.toNat (length.toNat + 1) bytesAvailOnPage 1 buffer
        else
          readSegment currPage startPageOffset length.toNat [] readDone

/-- One segment of a write: `len` bytes of `src` to the page `p` from `off` on. -/
def writeSegment (p off len : Nat) (src : Nat → UInt8) (k : Prog sig Int) : Prog sig Int :=
  tryMprotect p .readWrite (-1) <|
  .act (.copyIn p off len src) fun _ =>
  tryMprotect p .none (-1) k

/-- The page to write to: `p`, or its copy in slot `i` when it is shared. -/
def unshare (h i p : Nat) (k : Nat → Prog sig Int) : Prog sig Int :=
  .act (.refCount p) fun (refCount : Int) =>
  if refCount > 1 then
    copyPage h p i <|
    .act (.loadSlot h i) fun (currPage : Nat) => k currPage
  else k p

def writeDone : Prog sig Int := tryUnlock .write (-1) (.ret 0)

def writeLoop (pageSize h startPage length : Nat) (buffer : Nat → UInt8) :
    Nat → Nat → Nat → Prog sig Int
  | 0, _, _ => writeDone
  | n + 1, written, pageIndex =>
      if written < length then
        .act (.loadSlot h (startPage + pageIndex)) fun (currPage : Nat) =>
        unshare h (startPage + pageIndex) currPage fun currPage =>
        if length - written > pageSize then
          writeSegment currPage 0 pageSize (fun k => buffer (written + k)) <|
            writeLoop pageSize h startPage length buffer n (written + pageSize) (pageIndex + 1)
        else
          writeSegment currPage 0 (length - written) (fun k => buffer (written + k)) writeDone
      else writeDone

def tlsWrite (self : Nat) (offset length : UInt32) (buffer : Nat → UInt8) : Prog sig Int :=
  .act (.getTls self) fun (tls : Option Nat) =>
  match tls with
  | none => .ret (-1)
  | some h =>
      .act (.tlsSize h) fun (size : UInt32) =>
      if offset + length > size then .ret (-1)
      else
        .act .pageSize fun (pageSize : Nat) =>
        let startPage := offset.toNat / pageSize
        let startPageOffset := offset.toNat % pageSize
        .act (.loadSlot h startPage) fun (currPage : Nat) =>
        let currAvailSpace := pageSize - startPageOffset
        tryLock .write (-1) <|
        unshare h startPage currPage fun currPage =>
        if length.toNat > currAvailSpace then
          writeSegment currPage startPageOffset currAvailSpace buffer <|
            writeLoop pageSize h startPage length.toNat buffer (length.toNat + 1) currAvailSpace 1
        else
          writeSegment currPage startPageOffset length.toNat buffer writeDone

/-! ### Calls made alone -/

inductive Call
  | create (size : UInt32)
  | clone (tid : Nat)
  | read (offset length : UInt32)
  | write (offset length : UInt32) (buffer : Nat → UInt8)
  | destroy

/-- A call and the thread that makes it. -/
structure Request where
  self : Nat
  call : Call

/-- What a call gives back: its result with the bytes it read, or nothing, when the thread is
killed or the behaviour is undefined. -/
abbrev Answer : Type := Option (Int × List UInt8)

/-- The answer to a call that fills no buffer. -/
def answer (s : State) : Option (Int × State) → Answer × State
  | none => (none, s)
  | some (r, s') => (some (r, []), s')

def call (E : Platform) (s : State) (r : Request) : Answer × State :=
  match r.call with
  | .create size => answer s (tlsCreate E s r.self size)
  | .clone tid => answer s (tlsClone E s r.self tid)
  | .read offset length =>
      match (machine E).exec (tlsRead r.self offset length) s with
      | none => (none, s)
      | some (x, s') => (some x, s')
  | .write offset length buffer =>
      answer s ((machine E).exec (tlsWrite r.self offset length buffer) s)
  | .destroy => answer s ((tlsDestroy s r.self).map fun d => (d.result, d.state))

end EC440.Tls
