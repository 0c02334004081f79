import EC440.Tls.Faults
import EC440.Tls.Leaks

/-!
# Thread-local storage: threads that go where they should not

The process around the library.  Between two calls a thread may load or store at any
address.  The pages of the library are `PROT_NONE`, so a thread that goes to one is
sent `SIGSEGV`, and the handler that the first `tls_create` installs decides what that
ends: the thread, when the address is in an area, and otherwise the process.

`World` says what that is for: the private arrays of `specCall`, the threads that have
ended and whether the process has been killed.  An access in an area ends the
thread that makes it, and nothing else changes.  The process cannot be told from it
(`process_isolates_threads`).
-/

namespace EC440.Tls

open EC440.Lib

/-! ### The process -/

/-- What a thread does: a call, or a load or a store of its own at an address. -/
inductive Event
  | request (r : Request)
  | load (self : Nat) (a : BitVec 64)
  | store (self : Nat) (a : BitVec 64) (x : UInt8)

def Event.self : Event → Nat
  | .request r => r.self
  | .load self _ | .store self _ _ => self

/-- What comes of it.  `own` is the program's own business: memory that is not the library's, or
a handler it does not know. -/
inductive Outcome
  | answered (x : Answer)
  | loaded (x : UInt8)
  | stored
  | own
  | threadEnded
  | processKilled
  | undefined

structure Process where
  registry : State
  actions : Signal → Action
  /-- the threads that `pthread_exit` has ended -/
  ended : Nat → Bool
  killed : Bool

def Process.start : Process := ⟨init, fun _ => .sigDfl, fun _ => false, false⟩

/-- The two calls of `sigaction` in `tls_init`. -/
def sigactions (actions : Signal → Action) : Signal → Action :=
  Function.update (Function.update actions .sigbus .handlePageFault) .sigsegv .handlePageFault

/-- A call of the library; `tls_init` runs in the one that clears `is_first_time`. -/
def Process.request (E : Platform) (p : Process) (r : Request) : Outcome × Process :=
  let x := call E p.registry r
  (.answered x.1,
    { p with
      registry := x.2
      actions :=
        if p.registry.isFirstTime && !x.2.isFirstTime then sigactions p.actions else p.actions })

/-- A signal meets its action; the default actions of `SIGBUS` and `SIGSEGV` kill the process. -/
def Process.deliver (p : Process) (self : Nat) (sig : Signal) (a : BitVec 64) : Outcome × Process :=
  match p.actions sig with
  | .sigDfl => (.processKilled, { p with killed := true })
  | .other _ => (.own, p)
  | .handlePageFault =>
      match tlsHandlePageFault p.registry p.actions sig a with
      | none => (.undefined, p)
      | some .pthreadExit => (.threadEnded, { p with ended := Function.update p.ended self true })
      | some (.raise actions sig) =>
          if actions sig = .sigDfl then
            (.processKilled, { p with actions := actions, killed := true })
          else (.own, { p with actions := actions })

/-- An access at `a`: the page frame of the library there, or the rest of the memory, where
`outside` says what can be accessed. -/
def Process.access (E : Platform) (outside : BitVec 64 → Bool) (p : Process) (self : Nat)
    (a : BitVec 64) (allowed : Mapping → Outcome × Process) : Outcome × Process :=
  match p.registry.mem (a.toNat / E.getpagesize * E.getpagesize) with
  | some m => if m.prot = .readWrite then allowed m else p.deliver self .sigsegv a
  | none => if outside a then (.own, p) else p.deliver self .sigsegv a

def Process.load (E : Platform) (outside : BitVec 64 → Bool) (p : Process) (self : Nat)
    (a : BitVec 64) : Outcome × Process :=
  p.access E outside self a fun m => (.loaded (m.bytes (a.toNat % E.getpagesize)), p)

def Process.store (E : Platform) (outside : BitVec 64 → Bool) (p : Process) (self : Nat)
    (a : BitVec 64) (x : UInt8) : Outcome × Process :=
  p.access E outside self a fun m =>
    (.stored, { p with registry := { p.registry with
      mem := Function.update p.registry.mem (a.toNat / E.getpagesize * E.getpagesize)
        (some { m with bytes := Function.update m.bytes (a.toNat % E.getpagesize) x }) } })

/-- A thread that has ended does nothing more, and no thread does in a process that was killed. -/
def Process.step (E : Platform) (outside : BitVec 64 → Bool) (p : Process) (e : Event) :
    Outcome × Process :=
  if p.killed then (.processKilled, p)
  else if p.ended e.self then (.threadEnded, p)
  else
    match e with
    | .request r => p.request E r
    | .load self a => p.load E outside self a
    | .store self a x => p.store E outside self a x

/-! ### What it is for -/

/-- Where an access goes. -/
inductive Landing
  | inArea
  | outside
  | nowhere

structure World where
  arrays : Arrays
  ended : Nat → Bool
  killed : Bool

def World.start : World := ⟨fun _ => none, fun _ => false, false⟩

def World.access (w : World) (self : Nat) : Landing → Outcome × World
  | .inArea => (.threadEnded, { w with ended := Function.update w.ended self true })
  | .outside => (.own, w)
  | .nowhere => (.processKilled, { w with killed := true })

def World.step (w : World) (e : Event × Landing) : Outcome × World :=
  if w.killed then (.processKilled, w)
  else if w.ended e.1.self then (.threadEnded, w)
  else
    match e.1 with
    | .request r => (.answered (specCall w.arrays r).1, { w with arrays := (specCall w.arrays r).2 })
    | .load self _ | .store self _ _ => w.access self e.2

open Classical in
/-- Where an access at `a` goes. -/
noncomputable def landingAt (outside : BitVec 64 → Bool) (s : State) (a : BitVec 64) : Landing :=
  if Covered s a then .inArea else if outside a then .outside else .nowhere

/-- Where the access of an event goes; a call makes none. -/
noncomputable def landing (outside : BitVec 64 → Bool) (s : State) : Event → Landing
  | .request _ => .outside
  | .load _ a | .store _ a _ => landingAt outside s a

/-- A call that is made fits. -/
def Allowed (E : Platform) (p : Process) : Event → Prop
  | .request r => p.killed = false → p.ended r.self = false → Fits E p.registry r
  | .load _ _ | .store _ _ _ => True

/-! ### Where an access goes -/

variable {E : Platform} {s : State} {outside : BitVec 64 → Bool}

/-- No page is there before the first `tls_create`. -/
theorem RegistryInv.started_of_mem (hI : RegistryInv E s) (h : Referenced s) {a : Nat} {m : Mapping}
    (hm : s.mem a = some m) : s.isFirstTime = false := by
  obtain ⟨p, pg, -, hp⟩ := hI.memory a m hm
  obtain ⟨i, x, tt, -, ht, -⟩ := hI.exists_holder h hp
  exact hI.started x tt ht

theorem RegistryInv.inRegistry_address (hI : RegistryInv E s) {page : Page}
    (hpage : InRegistry s page) : s.isFirstTime = false ∧ ∃ p, page.address = E.mmap p ∧
      ∃ b, s.mem (E.mmap p) = some ⟨.none, b⟩ := by
  obtain ⟨i, x, tt, j, -, ht, -, hj⟩ := hpage
  refine ⟨hI.started x tt ht, ?_⟩
  obtain ⟨p, -, hp⟩ := Option.bind_eq_some_iff.mp hj
  exact ⟨p, congrArg Page.address (hI.counted p page hp), hI.mapped p page hp⟩

theorem RegistryInv.inRegistry_of_mem (hI : RegistryInv E s) (h : Referenced s) {a : Nat}
    {m : Mapping} (hm : s.mem a = some m) : ∃ page, InRegistry s page ∧ page.address = a := by
  obtain ⟨p, pg, rfl, hp⟩ := hI.memory a m hm
  obtain ⟨i, x, tt, hi, ht, hmem⟩ := hI.exists_holder h hp
  obtain ⟨j, hlt, hj⟩ := List.getElem_of_mem hmem
  refine ⟨pg, ⟨i, x, tt, j, hi, ht, ?_, ?_⟩, congrArg Page.address (hI.counted p pg hp)⟩
  · rw [← (hI.area x tt ht).length]
    exact hlt
  · rw [List.getElem?_eq_getElem hlt, hj]
    exact hp

/-- **The page frame of an address** is mapped just when a page of an area covers the address,
and the page the handler looks for is that frame. -/
theorem RegistryInv.covered_iff_mem (hI : RegistryInv E s) (h : Referenced s)
    (haligned : ∀ n, E.getpagesize ∣ E.mmap n) (a : BitVec 64) :
    Covered s a ↔ (s.mem (a.toNat / E.getpagesize * E.getpagesize)).isSome = true := by
  have hpos := E.pos
  constructor
  · rintro ⟨page, hpage, hlo, hhi⟩
    obtain ⟨hfirst, p, haddr, b, hb⟩ := hI.inRegistry_address hpage
    rw [hI.page_size hfirst, haddr] at hhi
    rw [haddr] at hlo
    rw [(div_mul_eq_iff hpos (haligned p)).mpr ⟨hlo, hhi⟩, hb]
    rfl
  · intro ha
    obtain ⟨m, hm⟩ := Option.isSome_iff_exists.mp ha
    obtain ⟨page, hpage, haddr⟩ := hI.inRegistry_of_mem h hm
    have hdm := Nat.div_add_mod a.toNat E.getpagesize
    have hmod := Nat.mod_lt a.toNat hpos
    rw [Nat.mul_comm] at hdm
    refine ⟨page, hpage, by omega, ?_⟩
    rw [hI.page_size (hI.started_of_mem h hm)]
    omega

/-- The handler's search finds the page just when the address is in an area. -/
theorem RegistryInv.found_iff (hI : RegistryInv E s) (haligned : ∀ n, E.getpagesize ∣ E.mmap n)
    (a : BitVec 64) :
    ∃ found, isFaultInTlsSpace s (pageFault s a) = some found ∧ (found = true ↔ Covered s a) := by
  obtain ⟨found, hscan, hfound⟩ := @isFaultInTlsSpace_spec s (pageFault s a) hI.pointersLive
  refine ⟨found, hscan, hfound.trans ?_⟩
  by_cases hfirst : s.isFirstTime = false
  · have hsize := hI.page_size hfirst
    refine (covered_iff ?_ ?_ ?_ a).symm
    · rw [hsize]
      exact E.pow_two
    · rw [hsize]
      exact E.lt_int
    · intro page hpage
      obtain ⟨-, p, haddr, -⟩ := hI.inRegistry_address hpage
      rw [hsize, haddr]
      exact haligned p
  · -- before the first area there is no page to find and none to be in
    constructor
    · rintro ⟨page, hpage, -⟩
      exact absurd (hI.inRegistry_address hpage).1 hfirst
    · rintro ⟨page, hpage, -⟩
      exact absurd (hI.inRegistry_address hpage).1 hfirst

/-! ### The process and its world -/

/-- The process cannot be told from the world `w`. -/
structure Isolated (E : Platform) (p : Process) (w : World) : Prop where
  stands : Stands E p.registry w.arrays
  referenced : Referenced p.registry
  ended : p.ended = w.ended
  killed : p.killed = w.killed
  action : p.killed = false →
    p.actions .sigsegv = .sigDfl ∨ p.actions .sigsegv = .handlePageFault
  handler : p.killed = false → p.registry.isFirstTime = false →
    p.actions .sigsegv = .handlePageFault

variable {p : Process} {w : World}

theorem isolated_start (E : Platform) : Isolated E Process.start World.start := by
  refine ⟨stands_init E, referenced_init, rfl, rfl, fun _ => .inl rfl, ?_⟩
  intro _ hfirst
  cases hfirst

theorem Isolated.deliver_inArea (h : Isolated E p w) (haligned : ∀ n, E.getpagesize ∣ E.mmap n)
    (hk : p.killed = false) {a : BitVec 64} (ha : Covered p.registry a) (self : Nat) :
    p.deliver self .sigsegv a =
      (.threadEnded, { p with ended := Function.update p.ended self true }) := by
  obtain ⟨page, hpage, -⟩ := id ha
  have hact := h.handler hk (h.stands.inv.inRegistry_address hpage).1
  obtain ⟨found, hscan, hfound⟩ := h.stands.inv.found_iff haligned a
  have hhandler : tlsHandlePageFault p.registry p.actions .sigsegv a = some .pthreadExit := by
    rw [tlsHandlePageFault, hscan, hfound.mpr ha]
    rfl
  unfold Process.deliver
  rw [hact]
  simp only [hhandler]

theorem Isolated.deliver_nowhere (h : Isolated E p w) (haligned : ∀ n, E.getpagesize ∣ E.mmap n)
    (hk : p.killed = false) {a : BitVec 64} (ha : ¬ Covered p.registry a) (self : Nat) :
    ∃ actions, p.deliver self .sigsegv a =
      (.processKilled, { p with actions := actions, killed := true }) := by
  unfold Process.deliver
  rcases h.action hk with hact | hact
  · rw [hact]
    exact ⟨p.actions, rfl⟩
  · obtain ⟨found, hscan, hfound⟩ := h.stands.inv.found_iff haligned a
    have hnot : found = false := by
      rw [← Bool.not_eq_true, hfound]
      exact ha
    rw [hact]
    simp only [tlsHandlePageFault, hscan, hnot, Option.map_some]
    exact ⟨_, rfl⟩

/-- An access, whatever it would do to a page it may go to. -/
theorem Isolated.access (h : Isolated E p w) (haligned : ∀ n, E.getpagesize ∣ E.mmap n)
    (hk : p.killed = false) (outside : BitVec 64 → Bool) (self : Nat) (a : BitVec 64)
    (allowed : Mapping → Outcome × Process) :
    (p.access E outside self a allowed).1 = (w.access self (landingAt outside p.registry a)).1 ∧
      Isolated E (p.access E outside self a allowed).2
        (w.access self (landingAt outside p.registry a)).2 := by
  have hI := h.stands.inv
  have hmem := hI.covered_iff_mem h.referenced haligned a
  unfold Process.access landingAt
  by_cases ha : Covered p.registry a
  · obtain ⟨m, hm⟩ := Option.isSome_iff_exists.mp (hmem.mp ha)
    have hprot : ¬ m.prot = .readWrite := by
      rw [hI.prot_none hm]
      decide
    simp only [hm, if_neg hprot, if_pos ha, h.deliver_inArea haligned hk ha self]
    refine ⟨rfl, h.stands, h.referenced, ?_, h.killed, h.action, h.handler⟩
    simp only [World.access, h.ended]
  · have hnone : p.registry.mem (a.toNat / E.getpagesize * E.getpagesize) = none := by
      rw [← Option.not_isSome_iff_eq_none, ← hmem]
      exact ha
    simp only [hnone, if_neg ha]
    by_cases hout : outside a = true
    · simp only [if_pos hout]
      exact ⟨rfl, h⟩
    · obtain ⟨actions, hdeliver⟩ := h.deliver_nowhere haligned hk ha self
      simp only [if_neg hout, hdeliver]
      refine ⟨rfl, h.stands, h.referenced, h.ended, rfl, ?_, ?_⟩
      · intro hf
        cases hf
      · intro hf
        cases hf

theorem Isolated.request (h : Isolated E p w) {r : Request} (hfits : Fits E p.registry r) :
    (p.request E r).1 = .answered (specCall w.arrays r).1 ∧
      Isolated E (p.request E r).2 { w with arrays := (specCall w.arrays r).2 } := by
  obtain ⟨hanswer, hstands⟩ := call_simulates h.stands r hfits
  have hdestroy : r.call ≠ .destroy := by
    intro hc
    rw [Fits, hc] at hfits
    exact hfits
  have hinstalled : sigactions p.actions .sigsegv = .handlePageFault := Function.update_self ..
  refine ⟨congrArg Outcome.answered hanswer, hstands, h.referenced.call r hdestroy, h.ended,
    h.killed, ?_, ?_⟩
  · intro hk
    simp only [Process.request]
    split
    · exact .inr hinstalled
    · exact h.action hk
  · intro hk hfirst
    have hfirst' : (call E p.registry r).2.isFirstTime = false := hfirst
    simp only [Process.request, hfirst']
    cases hold : p.registry.isFirstTime with
    | true => exact hinstalled
    | false => exact h.handler hk hold

/-- **A step of the process is a step of its world.** -/
theorem Isolated.step (h : Isolated E p w) (haligned : ∀ n, E.getpagesize ∣ E.mmap n)
    (outside : BitVec 64 → Bool) (e : Event) (hok : Allowed E p e) :
    (p.step E outside e).1 = (w.step (e, landing outside p.registry e)).1 ∧
      Isolated E (p.step E outside e).2 (w.step (e, landing outside p.registry e)).2 := by
  have hkilled : w.killed = p.killed := h.killed.symm
  have hended : w.ended e.self = p.ended e.self := congrFun h.ended.symm e.self
  unfold Process.step World.step
  by_cases hk : p.killed = true
  · simp only [hkilled, if_pos hk]
    exact ⟨trivial, h⟩
  by_cases hend : p.ended e.self = true
  · simp only [hkilled, if_neg hk, hended, if_pos hend]
    exact ⟨trivial, h⟩
  have hk' : p.killed = false := eq_false_of_ne_true hk
  have hwk : ¬ w.killed = true := by rwa [hkilled]
  simp only [if_neg hk, if_neg hwk, hended, if_neg hend]
  cases e with
  | request r => exact h.request (hok hk' (eq_false_of_ne_true hend))
  | load self a => exact h.access haligned hk' outside self a _
  | store self a x => exact h.access haligned hk' outside self a _

/-- **Threads are kept apart**: in every run of calls, loads and stores the outcomes are those of
the private arrays, where an access in an area ends the thread that made it and touches nothing,
and an access to no memory kills the process. -/
theorem process_isolates_threads (E : Platform) (haligned : ∀ n, E.getpagesize ∣ E.mmap n)
    (outside : BitVec 64 → Bool) (es : List Event)
    (hrun : RunOk (Process.step E outside) (Allowed E) .start es) :
    let landed := yields (Process.step E outside)
      (fun p e => some (e, landing outside p.registry e)) .start es
    replies (Process.step E outside) .start es = replies World.step .start landed ∧
      arrays E (run (Process.step E outside) .start es).registry =
        (run World.step .start landed).arrays ∧
      (run (Process.step E outside) .start es).ended = (run World.step .start landed).ended ∧
      (run (Process.step E outside) .start es).killed = (run World.step .start landed).killed := by
  have hstep : ∀ p w e, Isolated E p w → Allowed E p e →
      (p.step E outside e).1 = (World.step w (e, landing outside p.registry e)).1 ∧
        Isolated E (p.step E outside e).2 (World.step w (e, landing outside p.registry e)).2 :=
    fun _ _ e h hok => h.step haligned outside e hok
  obtain ⟨hreplies, hend⟩ := replies_eq_of_labelled hstep es _ _ (isolated_start E) hrun
  exact ⟨hreplies, hend.stands.arrays_eq, hend.ended, hend.killed⟩

/-- Thread 3 loads from an area of two other threads, and one of these stores to its own. -/
def intruders : List Event :=
  [.request ⟨1, .create 100⟩, .request ⟨2, .clone 1⟩, .load 3 4100, .store 2 4096 9,
    .request ⟨1, .read 0 10⟩]

theorem intruders_lookups :
    (run (Process.step fourK fun _ => true) .start (intruders.take 1)).registry.nextPair = 1 ∧
      (run (Process.step fourK fun _ => true) .start (intruders.take 2)).registry.nextPair = 2 ∧
      getTls (run (Process.step fourK fun _ => true) .start (intruders.take 4)).registry 1 =
        some (some 0) ∧
      ((run (Process.step fourK fun _ => true) .start (intruders.take 4)).registry.pairs 0).map
        (fun tt => tt.tls.size) = some 100 := by
  decide +kernel

theorem intruders_allowed :
    RunOk (Process.step fourK fun _ => true) (Allowed fourK) .start intruders := by
  obtain ⟨hcreate, hclone, hget, hsize⟩ := intruders_lookups
  refine ⟨?_, ?_, trivial, trivial, ?_, trivial⟩
  · intro _ _
    show (run (Process.step fourK fun _ => true) .start (intruders.take 1)).registry.nextPair ≤ _
    rw [hcreate]
    decide
  · intro _ _
    show (run (Process.step fourK fun _ => true) .start (intruders.take 2)).registry.nextPair ≤ _
    rw [hclone]
    decide
  · intro _ _
    exact inside_of_lookup hget hsize (by decide) (by decide)

theorem process_isolates_threads_intruders :
    (∀ n, fourK.getpagesize ∣ fourK.mmap n) ∧
      RunOk (Process.step fourK fun _ => true) (Allowed fourK) .start intruders ∧
      arrays fourK (run (Process.step fourK fun _ => true) .start intruders).registry =
        (run World.step .start (yields (Process.step fourK fun _ => true)
          (fun p e => some (e, landing (fun _ => true) p.registry e)) .start intruders)).arrays := by
  have haligned : ∀ n, fourK.getpagesize ∣ fourK.mmap n := fun n => ⟨n + 1, rfl⟩
  exact ⟨haligned, intruders_allowed,
    (process_isolates_threads fourK haligned (fun _ => true) intruders intruders_allowed).2.1⟩

/-- Both threads that went to an area have ended, its owner has not. -/
example : let p := run (Process.step fourK fun _ => true) .start intruders
    (p.ended 3, p.ended 2, p.ended 1, p.killed) = (true, true, false, false) := by
  decide +kernel

end EC440.Tls
