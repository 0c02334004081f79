import EC440.FileSystems.Overwrite

/-!
# What the file system is for

`Store` is a mounted file system as a program thinks of it: files with a name and bytes in 64 places,
and for each open descriptor the place of its file and an offset.  `Store.step` is what each call of
`fs.h` should do to it, without blocks, bitmaps or a disk, and `Reply` what a program gets to see of a
call.

The code does less than this, and `Within` says where it does not: on files that go past the direct
blocks, on a write that loses bytes behind it, on a read that runs past the end of its file, on a
truncate that gives back blocks, and so on.
-/

namespace EC440.FileSystems

open EC440.Lib

/-- A file as a program thinks of it. -/
structure StoredFile where
  name : List UInt8
  bytes : List UInt8
  deriving DecidableEq

/-- The files in their places, and the place and the offset that each open descriptor stands for. -/
structure Store where
  files : Nat → Option StoredFile
  cursors : Nat → Option (Nat × Nat)

/-- What a program gets to see of a call: the return value, the bytes `fs_read` stores in the buffer,
and the names `fs_listfiles` stores in its list. -/
structure Reply where
  value : Int
  bytes : List UInt8
  names : List (List UInt8)
  deriving DecidableEq

/-- A call that returns `value` and hands out nothing. -/
def Reply.code (value : Int) : Reply := ⟨value, [], []⟩

namespace Store

def empty : Store := ⟨fun _ => none, fun _ => none⟩

/-- The place of the file `name`. -/
def place (t : Store) (name : List UInt8) : Option Nat :=
  (List.range 64).find? fun i => (t.files i).any fun f => f.name == name

def freePlace (t : Store) : Option Nat := (List.range 64).find? fun i => (t.files i).isNone

def freeCursor (t : Store) : Option Nat := (List.range 32).find? fun k => (t.cursors k).isNone

def openOn (t : Store) (i : Nat) : Bool := (List.range 32).any fun k => (t.cursors k).any fun c => c.1 == i

def anyCursor (t : Store) : Bool := (List.range 32).any fun k => (t.cursors k).isSome

/-- The place, the file and the offset that the descriptor `fildes` stands for. -/
def target (t : Store) (fildes : Int) : Option (Nat × StoredFile × Nat) :=
  if 0 ≤ fildes ∧ fildes ≤ 31 then do
    let (i, offset) ← t.cursors fildes.toNat
    let f ← t.files i
    some (i, f, offset)
  else none

/-- The descriptor `fildes` stands for the file at place `i`, at `offset`. -/
def move (t : Store) (fildes : Int) (i offset : Nat) : Store :=
  { t with cursors := Function.update t.cursors fildes.toNat (some (i, offset)) }

def rewrite (t : Store) (i : Nat) (f : StoredFile) (bytes : List UInt8) : Store :=
  { t with files := Function.update t.files i (some { f with bytes := bytes }) }

/-- **What a call is for.** -/
def step (t : Store) : Call → Reply × Store
  | .open name =>
    match t.place name.val, t.freeCursor with
    | some i, some k => (.code k, { t with cursors := Function.update t.cursors k (some (i, 0)) })
    | _, _ => (.code (-1), t)
  | .close fildes =>
    match t.target fildes with
    | none => (.code (-1), t)
    | some _ => (.code 0, { t with cursors := Function.update t.cursors fildes.toNat none })
  | .create name =>
    match t.place name.val, t.freePlace with
    | none, some i => (.code 0, { t with files := Function.update t.files i (some ⟨name.val, []⟩) })
    | _, _ => (.code (-1), t)
  | .delete name =>
    match t.place name.val with
    | none => (.code (-1), t)
    | some i =>
      if t.openOn i then (.code (-1), t)
      else (.code 0, { t with files := Function.update t.files i none })
  | .read fildes _ nbyte =>
    match t.target fildes with
    | none => (.code (-1), t)
    | some (i, f, offset) =>
      let out := (f.bytes.drop offset).take nbyte
      (⟨out.length, out, []⟩, t.move fildes i (offset + out.length))
  | .write fildes buf nbyte =>
    match t.target fildes with
    | none => (.code (-1), t)
    | some (i, f, offset) =>
      (.code nbyte, (t.rewrite i f (splice f.bytes ((List.range nbyte).map buf) offset)).move fildes i
        (offset + nbyte))
  | .getFilesize fildes =>
    match t.target fildes with
    | none => (.code (-1), t)
    | some (_, f, _) => (.code f.bytes.length, t)
  | .listfiles =>
    (⟨0, [], ((List.range 64).filterMap t.files).map StoredFile.name⟩, t)
  | .lseek fildes offset =>
    match t.target fildes with
    | none => (.code (-1), t)
    | some (i, f, _) =>
      if 0 ≤ offset ∧ offset ≤ f.bytes.length then (.code 0, t.move fildes i offset.toNat)
      else (.code (-1), t)
  | .truncate fildes length =>
    match t.target fildes with
    | none => (.code (-1), t)
    | some (i, f, offset) =>
      if 0 ≤ length ∧ length ≤ f.bytes.length then
        (.code 0, (t.rewrite i f (f.bytes.take length.toNat)).move fildes i (min offset length.toNat))
      else (.code (-1), t)

end Store

/-! ### Where the code does this -/

/-- The calls the code answers as it should: the names are names a file can have, a file is deleted
while no descriptor is open or one of its own is, a read ends in the file or at the end of a block,
a write stays in the direct blocks and has no bytes but zeros behind it in the last block that it
writes whole, a truncate gives back no block and leaves no other descriptor behind, `fs_lseek` is
for open descriptors, and the list of `fs_listfiles` has room for its end. -/
def Within (t : Store) : Call → Prop
  | .open name => name.val ≠ []
  | .create name => ValidName name
  | .delete name => ValidName name ∧
      ∀ i ∈ t.place name.val, t.openOn i = true ∨ t.anyCursor = false
  | .read fildes _ nbyte => ∀ x ∈ t.target fildes,
      x.2.2 + nbyte ≤ x.2.1.bytes.length ∨ EndsWithBlock x.2.2 x.2.1.bytes.length
  | .write fildes _ nbyte => ∀ x ∈ t.target fildes,
      x.2.2 + nbyte ≤ 102400 ∧
      ∀ q, q < x.2.1.bytes.length → Padded x.2.2 nbyte q → x.2.1.bytes.getD q 0 = 0
  | .lseek fildes _ => 0 ≤ fildes → fildes ≤ 31 → (t.target fildes).isSome
  | .truncate fildes length => ∀ x ∈ t.target fildes, 0 ≤ length → length < x.2.1.bytes.length →
      blocksOf length.toNat = blocksOf x.2.1.bytes.length ∧
      ∀ k, k < 32 → k ≠ fildes.toNat → ∀ c ∈ t.cursors k, c.1 = x.1 → c.2 ≤ length.toNat
  | .listfiles => t.freePlace.isSome
  | .close _ => True
  | .getFilesize _ => True

/-! ### What the code hands out -/

/-- The bytes a call stores in the caller's buffer, as far as its return value says. -/
def bytesRead (s : State) : Call → List UInt8
  | .read fildes buf nbyte =>
    (List.range (fsRead s fildes buf nbyte).1.toNat).map (fsRead s fildes buf nbyte).2.1
  | _ => []

/-- The names a call stores in front of the NULL. -/
def namesListed (s : State) : Call → List (List UInt8)
  | .listfiles => (fsListfiles s).filterMap Prod.snd
  | _ => []

/-- A call of the code, with all a program gets to see of it. -/
def answer (s : State) (c : Call) : Reply × State :=
  (⟨(step s c).1, bytesRead s c, namesListed s c⟩, (step s c).2)

theorem run_answer (cs : List Call) (s : State) : run answer s cs = run step s cs := by
  induction cs generalizing s with
  | nil => rfl
  | cons c cs ih => exact ih (step s c).2

end EC440.FileSystems
