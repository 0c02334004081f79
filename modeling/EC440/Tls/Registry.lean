import EC440.Lib.Arr
import EC440.Lib.Words
import Mathlib.Logic.Function.Basic

/-!
# Thread-local storage: the registry of `tls.c`

The data of `thread_local_storage/src/tls.h` and the functions that make and
release local storage areas.  Pointers to `struct page` and to `tid_tls` are
numbers handed out in order, never twice; freeing one removes what it points to.
The `TLS` of a `tid_tls` is allocated and freed with it and is kept inside it.
Memory is a map from the addresses `mmap` returned to pages, each with its
protection.

A function gives `none` when it follows a pointer that has been freed.  Allocation
succeeds, and so do the calls of `tls_init`.
-/

namespace EC440.Tls

open EC440.Lib

/-- `MAX_THREAD_COUNT` -/
def maxThreadCount : Nat := 128

/-- What the program relies on from the system: the size of a page, and the address the
`n`-th `mmap` returns. -/
structure Platform where
  getpagesize : Nat
  mmap : Nat → Nat
  pow_two : ∃ k, getpagesize = 2 ^ k
  four_k_le : 4096 ≤ getpagesize
  lt_int : getpagesize < 2 ^ 31
  mmap_inj : ∀ m n, mmap m = mmap n → m = n

inductive Prot
  | none
  | readWrite
  deriving DecidableEq

/-- A mapped page. -/
structure Mapping where
  prot : Prot
  bytes : Nat → UInt8

/-- `struct page` -/
structure Page where
  address : Nat
  refCount : Int

/-- `TLS`; the array `pages` has `num_pages` entries. -/
structure TLS where
  tid : Nat
  size : UInt32
  numPages : Nat
  pages : List Nat

/-- `tid_tls` -/
structure TidTls where
  tid : Nat
  tls : TLS

inductive Mutex
  | read
  | write
  | copy
  deriving DecidableEq

@[ext] structure State where
  /-- the static variable of `tls_create` -/
  isFirstTime : Bool
  pageSize : Nat
  tidTlsArr : Arr maxThreadCount (Option Nat)
  pairs : Nat → Option TidTls
  nextPair : Nat
  pages : Nat → Option Page
  nextPage : Nat
  mem : Nat → Option Mapping
  locked : Mutex → Bool

/-- The process before the first call. -/
def init : State where
  isFirstTime := true
  pageSize := 0
  tidTlsArr := Arr.fill none
  pairs := fun _ => none
  nextPair := 0
  pages := fun _ => none
  nextPage := 0
  mem := fun _ => none
  locked := fun _ => false

/-! ### The array of thread ids and areas -/

def freeSlot (s : State) : Option Nat :=
  (List.range maxThreadCount).find? fun i => (s.tidTlsArr.get i).isNone

def appendToArr (s : State) (tt : Nat) : Int × State :=
  match freeSlot s with
  | some i => (0, { s with tidTlsArr := s.tidTlsArr.set i (some tt) })
  | none => (-1, s)

/-- The first of the slots `is` whose pair is of the thread `tid`. -/
def scan (s : State) (tid : Nat) : List Nat → Option (Option Nat)
  | [] => some none
  | i :: is =>
      match s.tidTlsArr.get i with
      | none => scan s tid is
      | some h =>
          match s.pairs h with
          | none => none
          | some tt => if tt.tid = tid then some (some h) else scan s tid is

/-- `get_tls`: the pair whose `tls` the source returns. -/
def getTls (s : State) (tid : Nat) : Option (Option Nat) := scan s tid (List.range maxThreadCount)

def checkTidHasLsa (s : State) (tid : Nat) : Option Bool :=
  (scan s tid (List.range maxThreadCount)).map Option.isSome

/-! ### Making an area -/

/-- `malloc` of a `struct page` with a page of its own from `mmap`. -/
def mapPage (E : Platform) (s : State) : State :=
  { s with
    pages := Function.update s.pages s.nextPage (some ⟨E.mmap s.nextPage, 1⟩)
    mem := Function.update s.mem (E.mmap s.nextPage) (some ⟨.none, fun _ => 0⟩)
    nextPage := s.nextPage + 1 }

/-- The loop of `create_new_tls` for a new area. -/
def mapPages (E : Platform) : Nat → State → List Nat × State
  | 0, s => ([], s)
  | n + 1, s => (s.nextPage :: (mapPages E n (mapPage E s)).1, (mapPages E n (mapPage E s)).2)

/-- The loop of `create_new_tls` for a clone. -/
def sharePages : List Nat → State → Option State
  | [], s => some s
  | p :: ps, s =>
      match s.pages p with
      | none => none
      | some pg => sharePages ps
          { s with pages := Function.update s.pages p (some { pg with refCount := pg.refCount + 1 }) }

def numPagesFor (pageSize : Nat) (size : UInt32) : Nat :=
  if size.toNat < pageSize then 1
  else if size.toNat % pageSize = 0 then size.toNat / pageSize else size.toNat / pageSize + 1

/-- The end of `create_new_tls`: a new pair with this area, appended to the array. -/
def register (s : State) (self : Nat) (size : UInt32) (numPages : Nat) (pages : List Nat) :
    Int × State :=
  appendToArr { s with
    pairs := Function.update s.pairs s.nextPair (some ⟨self, ⟨self, size, numPages, pages⟩⟩)
    nextPair := s.nextPair + 1 } s.nextPair

def createNewTls (E : Platform) (s : State) (self : Nat) (size : UInt32) (isClone : Bool)
    (cloneTid : Nat) : Option (Int × State) :=
  if isClone then
    match getTls s cloneTid with
    | none => none
    | some none => some (-1, s)
    | some (some h) =>
        match s.pairs h with
        | none => none
        | some tt =>
            (sharePages tt.tls.pages s).map fun s' =>
              register s' self tt.tls.size tt.tls.numPages tt.tls.pages
  else
    let numPages := numPagesFor s.pageSize size
    let made := mapPages E numPages s
    some (register made.2 self size numPages made.1)

/-- `tls_init`, which always succeeds. -/
def tlsInit (E : Platform) (s : State) : State :=
  { s with pageSize := E.getpagesize, locked := fun _ => false }

def tlsCreate (E : Platform) (s : State) (self : Nat) (size : UInt32) : Option (Int × State) :=
  if size = 0 then some (-1, s)
  else
    match checkTidHasLsa s self with
    | none => none
    | some true => some (-1, s)
    | some false =>
        let s := if s.isFirstTime then tlsInit E { s with isFirstTime := false } else s
        createNewTls E s self size false 0

def tlsClone (E : Platform) (s : State) (self tid : Nat) : Option (Int × State) :=
  match checkTidHasLsa s self with
  | none => none
  | some true => some (-1, s)
  | some false =>
      match checkTidHasLsa s tid with
      | none => none
      | some false => some (-1, s)
      | some true => createNewTls E s self 0 true tid

/-! ### Releasing an area -/

/-- The search of `tls_destroy`.  It does not stop at the pair it finds. -/
def lastPair (s : State) (tid : Nat) : List Nat → Option Nat → Option (Option Nat)
  | [], tt => some tt
  | i :: is, tt =>
      match s.tidTlsArr.get i with
      | none => lastPair s tid is tt
      | some h =>
          match s.pairs h with
          | none => none
          | some pair => lastPair s tid is (if pair.tid = tid then some h else tt)

/-- The loop of `tls_destroy` over the pages; `munmap` of a page address succeeds. -/
def releasePages : List Nat → State → Option State
  | [], s => some s
  | p :: ps, s =>
      match s.pages p with
      | none => none
      | some pg =>
          if pg.refCount < 2 then
            releasePages ps { s with
              mem := Function.update s.mem pg.address none
              pages := Function.update s.pages p none }
          else
            releasePages ps { s with
              pages := Function.update s.pages p (some { pg with refCount := pg.refCount - 1 }) }

/-- What `tls_destroy` returns and leaves, with the indices of `tid_tls_arr` it reads or writes. -/
structure Destroyed where
  result : Int
  touched : List Nat
  state : State

def tlsDestroy (s : State) (self : Nat) : Option Destroyed :=
  match lastPair s self (List.range maxThreadCount) none with
  | none => none
  | some none => some ⟨-1, List.range maxThreadCount, s⟩
  | some (some h) =>
      -- the value the search leaves in `i`
      let i := maxThreadCount
      match s.pairs h with
      | none => none
      | some tt =>
          (releasePages tt.tls.pages s).map fun s' =>
            ⟨0, List.range maxThreadCount ++ [i],
              { s' with
                pairs := Function.update s'.pairs h none
                tidTlsArr := s'.tidTlsArr.set i none }⟩

end EC440.Tls
