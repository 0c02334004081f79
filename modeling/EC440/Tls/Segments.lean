import EC440.Tls.Invariant

/-!
# One segment of a read or a write

What the programs of `Access.lean` do when no other thread comes between: a segment of
a read leaves its page protected and gives its bytes, a segment of a write changes the
bytes of its page, and `copy_page` moves one slot of one area to a fresh copy.
-/

namespace EC440.Tls

open EC440.Lib

/-- The memory with the mapping `m` at the address `a`. -/
def putMapping (s : State) (a : Nat) (m : Mapping) : State :=
  { s with mem := Function.update s.mem a (some m) }

section

variable {s : State} {a : Nat} {m m' : Mapping}

@[simp] theorem putMapping_pages : (putMapping s a m).pages = s.pages := rfl
@[simp] theorem putMapping_pairs : (putMapping s a m).pairs = s.pairs := rfl
@[simp] theorem putMapping_arr : (putMapping s a m).tidTlsArr = s.tidTlsArr := rfl
@[simp] theorem putMapping_locked : (putMapping s a m).locked = s.locked := rfl
@[simp] theorem putMapping_pageSize : (putMapping s a m).pageSize = s.pageSize := rfl
@[simp] theorem putMapping_nextPage : (putMapping s a m).nextPage = s.nextPage := rfl
@[simp] theorem putMapping_mem : (putMapping s a m).mem a = some m := Function.update_self ..

theorem putMapping_mem_of_ne {b : Nat} (h : b ≠ a) : (putMapping s a m).mem b = s.mem b :=
  Function.update_of_ne h ..

@[simp] theorem putMapping_putMapping : putMapping (putMapping s a m) a m' = putMapping s a m' := by
  simp only [putMapping, Function.update_idem]

end

@[simp] theorem setLock_arr (s : State) (m : Mutex) (b : Bool) :
    (setLock s m b).tidTlsArr = s.tidTlsArr := rfl

@[simp] theorem setLock_pairs (s : State) (m : Mutex) (b : Bool) :
    (setLock s m b).pairs = s.pairs := rfl

@[simp] theorem setLock_pageSize (s : State) (m : Mutex) (b : Bool) :
    (setLock s m b).pageSize = s.pageSize := rfl

variable {E : Platform} {s : State} {p : Nat} {pg : Page} {m : Mapping} {α : Type}

theorem mapping_eq (hp : s.pages p = some pg) (hm : s.mem pg.address = some m) :
    mapping s p = some m := by
  simp only [mapping, hp, hm]

theorem modifyMapping_eq (hp : s.pages p = some pg) (hm : s.mem pg.address = some m)
    (f : Mapping → Mapping) : modifyMapping s p f = putMapping s pg.address (f m) := by
  simp only [modifyMapping, hp, hm, putMapping, Option.map_some]

theorem accessible_eq (hp : s.pages p = some pg) (hm : s.mem pg.address = some m) :
    accessible s p = decide (m.prot = .readWrite) := by
  simp only [accessible, mapping_eq hp hm, Option.any_some]

/-! ### Single steps -/

theorem steps_tryLock (hl : s.locked mx = false) (e : α) (k : Prog sig α) :
    (machine E).Steps (tryLock mx e k) s k (setLock s mx true) := by
  apply Machine.Steps.act
  · simp only [machine, ready, hl, Bool.not_false]
  · rfl
  · exact .refl _ _

theorem steps_tryUnlock (mx : Mutex) (e : α) (k : Prog sig α) :
    (machine E).Steps (tryUnlock mx e k) s k (setLock s mx false) := by
  apply Machine.Steps.act
  · rfl
  · rfl
  · exact .refl _ _

theorem perform_mprotect (hp : s.pages p = some pg) (hm : s.mem pg.address = some m) (prot : Prot) :
    (machine E).perform (.mprotect p prot) s =
      ((0 : Int), putMapping s pg.address ⟨prot, m.bytes⟩) := by
  simp only [machine, perform, mapping_eq hp hm, Option.isSome_some, if_true, modifyMapping_eq hp hm]
  rfl

theorem steps_tryMprotect (hp : s.pages p = some pg) (hm : s.mem pg.address = some m) (prot : Prot)
    (e : α) (k : Prog sig α) :
    (machine E).Steps (tryMprotect p prot e k) s k (putMapping s pg.address ⟨prot, m.bytes⟩) := by
  apply Machine.Steps.act
  · rfl
  · simp only [machine, safe, hp, Option.isSome_some]
  · rw [perform_mprotect hp hm]
    exact .refl _ _

theorem steps_loadSlot {h i : Nat} (hs : slot s h i = some p) (k : Nat → Prog sig α) :
    (machine E).Steps (.act (.loadSlot h i) k) s (k p) s := by
  apply Machine.Steps.act
  · rfl
  · simp only [machine, safe, hs, Option.isSome_some]
  · simp only [machine, perform, hs, Option.getD_some]
    exact .refl _ _

theorem steps_getTls {tid : Nat} {x : Option Nat} (hg : getTls s tid = some x)
    (k : Option Nat → Prog sig α) : (machine E).Steps (.act (.getTls tid) k) s (k x) s := by
  apply Machine.Steps.act
  · rfl
  · simp only [machine, safe, hg, Option.isSome_some]
  · simp only [machine, perform, hg, Option.getD_some]
    exact .refl _ _

theorem steps_tlsSize {h : Nat} {tt : TidTls} (ht : s.pairs h = some tt) (k : UInt32 → Prog sig α) :
    (machine E).Steps (.act (.tlsSize h) k) s (k tt.tls.size) s := by
  apply Machine.Steps.act
  · rfl
  · simp only [machine, safe, ht, Option.isSome_some]
  · simp only [machine, perform, ht]
    exact .refl _ _

theorem steps_refCount (hp : s.pages p = some pg) (k : Int → Prog sig α) :
    (machine E).Steps (.act (.refCount p) k) s (k pg.refCount) s := by
  apply Machine.Steps.act
  · rfl
  · simp only [machine, safe, hp, Option.isSome_some]
  · simp only [machine, perform, hp, Option.map_some, Option.getD_some]
    exact .refl _ _

theorem steps_copyOut (hp : s.pages p = some pg) (hm : s.mem pg.address = some m)
    (hprot : m.prot = .readWrite) {off len : Nat} (hlen : off + len ≤ E.getpagesize)
    (k : List UInt8 → Prog sig α) :
    (machine E).Steps (.act (.copyOut p off len) k) s (k (slice m.bytes off len)) s := by
  apply Machine.Steps.act
  · rfl
  · simp only [machine, safe, accessible_eq hp hm, hprot, hlen, decide_true, Bool.and_self,
      Bool.or_true]
  · simp only [machine, perform, mapping_eq hp hm, Option.elim_some]
    exact .refl _ _

theorem steps_copyIn (hp : s.pages p = some pg) (hm : s.mem pg.address = some m)
    (hprot : m.prot = .readWrite) {off len : Nat} (hlen : off + len ≤ E.getpagesize)
    (src : Nat → UInt8) (k : Unit → Prog sig α) :
    (machine E).Steps (.act (.copyIn p off len src) k) s (k ())
      (putMapping s pg.address ⟨m.prot, blit m.bytes off len src⟩) := by
  apply Machine.Steps.act
  · rfl
  · simp only [machine, safe, accessible_eq hp hm, hprot, hlen, decide_true, Bool.and_self,
      Bool.or_true]
  · simp only [machine, perform, modifyMapping_eq hp hm]
    exact .refl _ _

/-! ### Segments -/

theorem steps_readSegment (hp : s.pages p = some pg) (hm : s.mem pg.address = some m)
    {off len : Nat} (hlen : off + len ≤ E.getpagesize) (buffer : List UInt8)
    (k : List UInt8 → Prog sig (Int × List UInt8)) :
    (machine E).Steps (readSegment p off len buffer k) s (k (buffer ++ slice m.bytes off len))
      (putMapping s pg.address ⟨.none, m.bytes⟩) := by
  have hopen := steps_tryMprotect (E := E) hp hm .readWrite
    ((-1 : Int), buffer) (.act (.copyOut p off len) fun (bytes : List UInt8) =>
      tryMprotect p .none (-1, buffer ++ bytes) (k (buffer ++ bytes)))
  refine hopen.trans ?_
  refine (steps_copyOut (s := putMapping s pg.address ⟨.readWrite, m.bytes⟩)
    hp putMapping_mem rfl hlen _).trans ?_
  have hclose := steps_tryMprotect (E := E) (s := putMapping s pg.address ⟨.readWrite, m.bytes⟩)
    hp putMapping_mem .none ((-1 : Int), buffer ++ slice m.bytes off len)
    (k (buffer ++ slice m.bytes off len))
  rw [putMapping_putMapping] at hclose
  exact hclose

theorem steps_writeSegment (hp : s.pages p = some pg) (hm : s.mem pg.address = some m)
    {off len : Nat} (hlen : off + len ≤ E.getpagesize) (src : Nat → UInt8) (k : Prog sig Int) :
    (machine E).Steps (writeSegment p off len src k) s k
      (putMapping s pg.address ⟨.none, blit m.bytes off len src⟩) := by
  have hopen := steps_tryMprotect (E := E) hp hm .readWrite
    (-1 : Int) (.act (.copyIn p off len src) fun _ => tryMprotect p .none (-1) k)
  refine hopen.trans ?_
  refine (steps_copyIn (s := putMapping s pg.address ⟨.readWrite, m.bytes⟩)
    hp putMapping_mem rfl hlen src _).trans ?_
  rw [putMapping_putMapping]
  have hclose := steps_tryMprotect (E := E)
    (s := putMapping s pg.address ⟨.readWrite, blit m.bytes off len src⟩)
    hp putMapping_mem .none (-1 : Int) k
  rw [putMapping_putMapping] at hclose
  exact hclose

/-! ### `copy_page` -/

/-- `copy_page` after its `memcpy`. -/
def copyRest (h p pageIndex copy : Nat) (k : Prog sig Int) : Prog sig Int :=
  tryMprotect p .none (-1) <|
  tryMprotect copy .none (-1) <|
  .act (.decRefCount p) fun _ =>
  .act (.storeSlot h pageIndex copy) fun _ =>
  tryUnlock .copy (-1) k

/-- The state in which `copy_page` copies the page at `a` with the bytes `b`. -/
def copying (E : Platform) (s : State) (a : Nat) (b : Nat → UInt8) : State :=
  putMapping (putMapping (mapPage E (setLock s .copy true)) a ⟨.readWrite, b⟩)
    (E.mmap s.nextPage) ⟨.readWrite, fun _ => 0⟩

@[simp] theorem copying_arr (s : State) (a : Nat) (b : Nat → UInt8) :
    (copying E s a b).tidTlsArr = s.tidTlsArr := rfl

@[simp] theorem copying_pairs (s : State) (a : Nat) (b : Nat → UInt8) :
    (copying E s a b).pairs = s.pairs := rfl

@[simp] theorem copying_pageSize (s : State) (a : Nat) (b : Nat → UInt8) :
    (copying E s a b).pageSize = s.pageSize := rfl

@[simp] theorem copying_locked_read (s : State) (a : Nat) (b : Nat → UInt8) :
    (copying E s a b).locked .read = s.locked .read := rfl

/-- The state `copy_page` leaves: slot `i` of the pair `h` holds a copy of the page `p`. -/
def copied (E : Platform) (s : State) (h i p : Nat) (pg : Page) (b : Nat → UInt8) : State :=
  { s with
    pairs := (storeSlot s h i s.nextPage).pairs
    pages := Function.update (Function.update s.pages s.nextPage (some ⟨E.mmap s.nextPage, 1⟩)) p
      (some { pg with refCount := pg.refCount - 1 })
    mem := Function.update s.mem (E.mmap s.nextPage) (some ⟨.none, blit (fun _ => 0) 0 s.pageSize b⟩)
    nextPage := s.nextPage + 1 }

theorem steps_copyRest {h i q : Nat} {qg : Page} {mq : Mapping} (hs : (slot s h i).isSome)
    (hp : s.pages p = some pg) (hq : s.pages q = some qg) (hm : s.mem pg.address = some m)
    (hmq : s.mem qg.address = some mq) (hne : pg.address ≠ qg.address) (k : Prog sig Int) :
    (machine E).Steps (copyRest h p i q k) s k
      (setLock (storeSlot (decRefCount (putMapping (putMapping s pg.address ⟨.none, m.bytes⟩)
        qg.address ⟨.none, mq.bytes⟩) p) h i q) .copy false) := by
  refine (steps_tryMprotect hp hm _ _ _).trans ?_
  have hmq' : (putMapping s pg.address ⟨.none, m.bytes⟩).mem qg.address = some mq := by
    rw [putMapping_mem_of_ne (Ne.symm hne), hmq]
  refine (steps_tryMprotect (s := putMapping s pg.address ⟨.none, m.bytes⟩) hq hmq' _ _ _).trans ?_
  refine Machine.Steps.act rfl ?_ ?_
  · simp only [machine, safe, putMapping_pages, hp, Option.isSome_some]
  refine Machine.Steps.act rfl ?_ ?_
  · exact hs
  exact steps_tryUnlock _ _ _

section

variable {b : Nat → UInt8} (hl : s.locked .copy = false) (hp : s.pages p = some pg)
  (hm : s.mem pg.address = some ⟨.none, b⟩) (hfresh : p ≠ s.nextPage)
  (hne : pg.address ≠ E.mmap s.nextPage)
include hp hfresh

theorem copying_pages : (copying E s pg.address b).pages p = some pg := by
  simp only [copying, putMapping_pages, mapPage, setLock, Function.update_of_ne hfresh, hp]

include hl hm hne

theorem steps_copyPage_copying (h i : Nat) (k : Prog sig Int) :
    (machine E).Steps (copyPage h p i k) s
      (.act (.copyPage s.nextPage p) fun _ => copyRest h p i s.nextPage k)
      (copying E s pg.address b) := by
  refine (steps_tryLock hl _ _).trans ?_
  refine (Machine.Steps.single rfl rfl).trans ?_
  have hp' : (mapPage E (setLock s .copy true)).pages p = some pg := by
    simp only [mapPage, setLock, Function.update_of_ne hfresh, hp]
  have hm' : (mapPage E (setLock s .copy true)).mem pg.address = some ⟨.none, b⟩ := by
    simp only [mapPage, setLock, Function.update_of_ne hne, hm]
  refine (steps_tryMprotect hp' hm' _ _ _).trans ?_
  have hq : (mapPage E (setLock s .copy true)).pages s.nextPage =
      some ⟨E.mmap s.nextPage, 1⟩ := Function.update_self ..
  have hmq : (putMapping (mapPage E (setLock s .copy true)) pg.address ⟨.readWrite, b⟩).mem
      (E.mmap s.nextPage) = some ⟨.none, fun _ => 0⟩ := by
    rw [putMapping_mem_of_ne (Ne.symm hne)]
    exact Function.update_self ..
  exact steps_tryMprotect (s := putMapping (mapPage E (setLock s .copy true)) _ _) hq hmq _ _ _

omit hne in
/-- What is left of the changes of `copy_page` when it is done. -/
theorem copied_eq (h i : Nat) :
    setLock (storeSlot (decRefCount (putMapping (putMapping (putMapping (copying E s pg.address b)
      (E.mmap s.nextPage) ⟨.readWrite, blit (fun _ => 0) 0 s.pageSize b⟩) pg.address ⟨.none, b⟩)
      (E.mmap s.nextPage) ⟨.none, blit (fun _ => 0) 0 s.pageSize b⟩) p) h i s.nextPage)
      .copy false = copied E s h i p pg b := by
  simp only [setLock, storeSlot, decRefCount, putMapping, copying, mapPage, copied,
    State.mk.injEq, true_and]
  refine ⟨?_, ?_, ?_⟩
  · rw [Function.update_of_ne hfresh, hp, Option.map_some]
  · funext a
    simp only [Function.update_apply]
    split_ifs with haq hap
    · rfl
    · rw [hap, hm]
    · rfl
  · funext x
    cases x with
    | copy => rw [Function.update_self, hl]
    | read => rfl
    | write => rfl

theorem steps_copyPage {h i : Nat} (hs : (slot s h i).isSome) (k : Prog sig Int) :
    (machine E).Steps (copyPage h p i k) s k (copied E s h i p pg b) := by
  refine (steps_copyPage_copying hl hp hm hfresh hne h i k).trans ?_
  have hp' : (copying E s pg.address b).pages p = some pg := copying_pages hp hfresh
  have hq' : (copying E s pg.address b).pages s.nextPage = some ⟨E.mmap s.nextPage, 1⟩ :=
    Function.update_self ..
  have hmp' : (copying E s pg.address b).mem pg.address = some ⟨.readWrite, b⟩ := by
    rw [copying, putMapping_mem_of_ne hne, putMapping_mem]
  have hmq' : (copying E s pg.address b).mem (E.mmap s.nextPage) =
      some ⟨.readWrite, fun _ => 0⟩ := putMapping_mem
  have hcopy : (machine E).perform (.copyPage s.nextPage p) (copying E s pg.address b) =
      ((), putMapping (copying E s pg.address b) (E.mmap s.nextPage)
        ⟨.readWrite, blit (fun _ => 0) 0 s.pageSize b⟩) := by
    simp only [machine, perform, modifyMapping_eq hq' hmq', mapping_eq hp' hmp', Option.elim_some]
    rfl
  refine Machine.Steps.act rfl ?_ ?_
  · simp only [machine, safe, accessible_eq hp' hmp', accessible_eq hq' hmq', decide_true,
      Bool.and_self]
  rw [hcopy]
  have hrest := steps_copyRest (E := E) (s := putMapping (copying E s pg.address b)
    (E.mmap s.nextPage) ⟨.readWrite, blit (fun _ => 0) 0 s.pageSize b⟩) hs hp' hq'
    (by rw [putMapping_mem_of_ne hne, hmp']) putMapping_mem hne k
  rw [copied_eq hl hp hm hfresh] at hrest
  exact hrest

end

end EC440.Tls
