import EC440.SimpleShell.RoundTrip

/-!
# The two loops of the parser on any tokens

`Read` says what one round of the inner loop reads, for every token, and `Parsed` what the outer loop makes
of the tokens from an index on: a command ends at each `|` and at the last token.  `parseCommands_parsed`
holds whatever the tokens are; `parseCommands_isSome` says that there is room for the arguments.
-/

namespace EC440.SimpleShell

variable {t : Token} {tokens : List Token} {next : Option Nat} {b b₁ b' : Build} {f n i j : Nat}
  {c : PipelineCommand} {cs : List (Option PipelineCommand)}

/-- How many `|` there are from the index `j` on. -/
def pipesFrom (tokens : List Token) (j : Nat) : Nat := (tokens.drop j).count ['|']

def operandsFrom (tokens : List Token) (j : Nat) : Nat := (tokens.drop j).countP isOperand

/-- The last token may be stored although it is a sign. -/
def lastSign (tokens : List Token) : Nat := if tokens.getLast?.any isOperand then 0 else 1

/-- The arguments and the paths of a command. -/
def PipelineCommand.texts (c : PipelineCommand) : List Token :=
  c.commandArgs.filterMap id ++ (c.redirectInPath.toList ++ c.redirectOutPath.toList)

theorem drop_of_getElem? (h : tokens[j]? = some t) : tokens.drop j = t :: tokens.drop (j + 1) := by
  obtain ⟨hj, rfl⟩ := List.getElem?_eq_some_iff.mp h
  exact List.drop_eq_getElem_cons hj

theorem pipesFrom_of_getElem? (h : tokens[j]? = some t) :
    pipesFrom tokens j = pipesFrom tokens (j + 1) + if t = ['|'] then 1 else 0 := by
  rw [pipesFrom, drop_of_getElem? h, List.count_cons, pipesFrom]
  simp only [beq_iff_eq]

theorem operandsFrom_of_getElem? (h : tokens[j]? = some t) :
    operandsFrom tokens j = operandsFrom tokens (j + 1) + if isOperand t then 1 else 0 := by
  rw [operandsFrom, drop_of_getElem? h, List.countP_cons, operandsFrom]

/-! ### One round -/

/-- The tokens that one round reads, up to `t`. -/
inductive Read (tokens : List Token) (b : Build) : Token → Build → Prop
  | path {sign t : Token} {pathIn pathOut : Option Token} (hsign : sign = ['<'] ∨ sign = ['>'])
      (hj : tokens[b.j]? = some sign) (ht : tokens[b.j + 1]? = some t)
      (hpath : pathIn = some t ∨ pathOut = some t) :
      Read tokens b t
        { b with
          redirectIn := pathIn
          redirectOut := pathOut
          j := b.j + 1
          caught := b.caught || decide (tokens.length < b.j + 1 + 2) }
  | arg {t : Token} (ht : tokens[b.j]? = some t) (hpipe : t ≠ ['|']) (hamp : t ≠ ['&'])
      (hsign : t = ['<'] ∨ t = ['>'] → tokens.length < b.j + 2) :
      Read tokens b t { b with args := b.args ++ [some t] }
  | separator {t : Token} (ht : tokens[b.j]? = some t) (hsign : t = ['|'] ∨ t = ['&']) :
      Read tokens b t b

theorem readToken_cases (h : readToken tokens b = some b₁) : ∃ t, Read tokens b t b₁ := by
  simp only [readToken, Option.bind_eq_bind, Option.bind_eq_some_iff] at h
  obtain ⟨t, ht, h⟩ := h
  split at h
  · next hout =>
    obtain ⟨rfl, -⟩ := hout
    obtain ⟨path, hpath, rfl⟩ : ∃ path, tokens[b.j + 1]? = some path ∧ _ = b₁ := by
      simpa [Option.bind_eq_some_iff] using h
    exact ⟨path, .path (.inr rfl) ht hpath (.inr rfl)⟩
  · next hout =>
    split at h
    · next hin =>
      obtain ⟨rfl, -⟩ := hin
      obtain ⟨path, hpath, rfl⟩ : ∃ path, tokens[b.j + 1]? = some path ∧ _ = b₁ := by
        simpa [Option.bind_eq_some_iff] using h
      exact ⟨path, .path (.inl rfl) ht hpath (.inl rfl)⟩
    · next hin =>
      split at h
      · next hsep =>
        rw [storeArg] at h
        split at h
        · obtain rfl := Option.some.inj h
          refine ⟨t, .arg ht hsep.2 hsep.1 ?_⟩
          -- a sign of redirection that is no redirection is the last token
          rintro (hlast | hlast)
          · have hge : ¬ b.j + 1 < tokens.length := fun hlt => hin ⟨hlast, hlt⟩
            omega
          · have hge : ¬ b.j + 1 < tokens.length := fun hlt => hout ⟨hlast, hlt⟩
            omega
        · cases h
      · next hsep =>
        obtain rfl := Option.some.inj h
        refine ⟨t, .separator ht ?_⟩
        tauto

theorem Read.getElem? (h : Read tokens b t b₁) : tokens[b₁.j]? = some t := by
  cases h with
  | path _ _ ht _ => exact ht
  | arg ht _ _ _ => exact ht
  | separator ht _ => exact ht

theorem Read.le_j (h : Read tokens b t b₁) : b.j ≤ b₁.j := by
  cases h with
  | path => exact Nat.le_succ _
  | arg => exact Nat.le_refl _
  | separator => exact Nat.le_refl _

theorem Read.cmd (h : Read tokens b t b₁) : b₁.cmd = b.cmd := by
  cases h <;> rfl

/-- `catch` is set at the last token only. -/
theorem Read.caught (h : Read tokens b t b₁) (hb : b.caught = false) (hlt : b₁.j + 2 ≤ tokens.length) :
    b₁.caught = false := by
  cases h with
  | path =>
    have hlt' : ¬ tokens.length < b.j + 1 + 2 := Nat.not_lt.mpr hlt
    simp [hb, hlt']
  | arg => exact hb
  | separator => exact hb

/-- No `|` is passed over. -/
theorem Read.pipesFrom (h : Read tokens b t b₁) :
    pipesFrom tokens b.j = pipesFrom tokens (b₁.j + 1) + if t = ['|'] then 1 else 0 := by
  rw [← pipesFrom_of_getElem? h.getElem?]
  cases h with
  | @path sign t pathIn pathOut hsign hj _ _ =>
    have hne : sign ≠ ['|'] := by rcases hsign with rfl | rfl <;> decide
    rw [pipesFrom_of_getElem? hj, if_neg hne, Nat.add_zero]
  | arg => rfl
  | separator => rfl

/-- The arguments come from the operands, or from the last token. -/
theorem Read.operands (h : Read tokens b t b₁) :
    b₁.args.length + operandsFrom tokens (b₁.j + 1) ≤ b.args.length + operandsFrom tokens b.j +
      if tokens.length < b₁.j + 2 then lastSign tokens else 0 := by
  cases h with
  | path _ hj ht _ =>
    have h₁ := operandsFrom_of_getElem? hj
    have h₂ := operandsFrom_of_getElem? ht
    dsimp only
    omega
  | @arg t ht hpipe hamp hsign =>
    have hcount := operandsFrom_of_getElem? ht
    simp only [List.length_append, List.length_cons, List.length_nil]
    by_cases hop : t = ['<'] ∨ t = ['>']
    · have hj := (List.getElem?_eq_some_iff.mp ht).1
      have hend := hsign hop
      have hlast : tokens.getLast? = some t := by
        rw [List.getLast?_eq_getElem?, show tokens.length - 1 = b.j by omega, ht]
      have hone : lastSign tokens = 1 := by
        rw [lastSign, hlast]
        rcases hop with rfl | rfl <;> rfl
      rw [if_pos hend, hone]
      omega
    · have hop' : isOperand t = true := by
        simp only [isOperand, decide_eq_true_eq]
        tauto
      rw [hop', if_pos rfl] at hcount
      omega
  | separator ht _ =>
    have hcount := operandsFrom_of_getElem? ht
    omega

/-- A token other than the separators is stored. -/
theorem Read.stored (h : Read tokens b t b₁) (hpipe : t ≠ ['|']) (hamp : t ≠ ['&']) :
    some t ∈ b₁.args ∨ b₁.redirectIn = some t ∨ b₁.redirectOut = some t := by
  cases h with
  | path _ _ _ hpath => exact .inr hpath
  | arg => exact .inl (by simp)
  | separator _ hsign => exact absurd hsign (by tauto)

/-- The command is complete at `t`. -/
def Ends (tokens : List Token) (t : Token) (b₁ : Build) : Prop :=
  t = ['|'] ∨ tokens.length < b₁.j + 2 ∨ b₁.caught = true

theorem parseToken_cases (h : parseToken tokens next b = some b') :
    ∃ t b₁, Read tokens b t b₁ ∧
      (Ends tokens t b₁ ∧ b' = { b₁.complete next with j := b₁.j + 1 } ∨
        ¬ Ends tokens t b₁ ∧ b' = { b₁ with j := b₁.j + 1 }) := by
  simp only [parseToken, Option.bind_eq_bind, Option.bind_eq_some_iff] at h
  obtain ⟨b₁, hread, b₂, hfinish, hb'⟩ := h
  obtain ⟨t, hread⟩ := readToken_cases hread
  refine ⟨t, b₁, hread, ?_⟩
  obtain rfl := Option.some.inj hb'
  simp only [finish, hread.getElem?, Option.bind_eq_bind, Option.bind_some] at hfinish
  split at hfinish
  · next hends =>
    refine .inl ⟨hends, ?_⟩
    rw [storeArg] at hfinish
    split at hfinish
    · obtain rfl := Option.some.inj hfinish
      rfl
    · cases hfinish
  · next hends =>
    obtain rfl := Option.some.inj hfinish
    exact .inr ⟨hends, rfl⟩

/-! ### One command -/

/-- What the inner loop does from the index `j` on: it stops behind the next `|`, or behind the last token. -/
structure Completed (tokens : List Token) (j : Nat) (c : PipelineCommand) (b' : Build) : Prop where
  cmd : b'.cmd = some c
  caught : b'.caught = false
  args : b'.args = []
  le : b'.j ≤ tokens.length
  stops : pipesFrom tokens j = pipesFrom tokens b'.j + 1 ∧ tokens[b'.j - 1]? = some ['|'] ∨
    pipesFrom tokens j = 0 ∧ b'.j = tokens.length
  mentions : b'.j = tokens.length → ∀ t, tokens.getLast? = some t → t ≠ ['|'] → t ≠ ['&'] → t ∈ c.texts

theorem Read.completed (h : Read tokens b t b₁) (hb : b.caught = false) (hends : Ends tokens t b₁) :
    Completed tokens b.j ⟨b₁.args ++ [none], b₁.redirectIn, b₁.redirectOut, next⟩
      { b₁.complete next with j := b₁.j + 1 } := by
  have hpipes := h.pipesFrom
  have hj : b₁.j < tokens.length := (List.getElem?_eq_some_iff.mp h.getElem?).1
  refine ⟨rfl, rfl, rfl, hj, ?_, ?_⟩
  · show _ ∧ tokens[b₁.j + 1 - 1]? = _ ∨ _ ∧ b₁.j + 1 = _
    by_cases ht : t = ['|']
    · rw [if_pos ht] at hpipes
      exact .inl ⟨hpipes, by rw [Nat.add_sub_cancel, h.getElem?, ht]⟩
    · have hend : b₁.j + 1 = tokens.length := by
        rcases hends with hends | hends | hends
        · exact absurd hends ht
        · omega
        · by_contra hne
          rw [h.caught hb (by omega)] at hends
          cases hends
      refine .inr ⟨?_, hend⟩
      rw [hpipes, if_neg ht, hend]
      simp [SimpleShell.pipesFrom]
  · intro (hend : b₁.j + 1 = tokens.length) t' hlast hpipe hamp
    have hlast' : tokens.getLast? = some t := by
      rw [List.getLast?_eq_getElem?, ← hend, Nat.add_sub_cancel, h.getElem?]
    obtain rfl : t = t' := Option.some.inj (hlast'.symm.trans hlast)
    simp only [PipelineCommand.texts, List.mem_append, List.mem_filterMap, id, Option.mem_toList]
    rcases h.stored hpipe hamp with h | h | h
    · exact .inl ⟨some t, by simp [h], rfl⟩
    · exact .inr (.inl h)
    · exact .inr (.inr h)

theorem parseCommand_completed (h : parseCommand tokens next f b = some b') (hnone : b.cmd = none)
    (hcaught : b.caught = false) (hj : b.j < tokens.length) (hf : tokens.length < b.j + f) :
    ∃ c, c.next = next ∧ Completed tokens b.j c b' := by
  induction f generalizing b with
  | zero => omega
  | succ f ih =>
    simp only [parseCommand, hnone, hj, true_and, if_true, Option.bind_eq_bind,
      Option.bind_eq_some_iff] at h
    obtain ⟨b₂, hb₂, h⟩ := h
    obtain ⟨t, b₁, hread, ⟨hends, rfl⟩ | ⟨hends, rfl⟩⟩ := parseToken_cases hb₂
    · rw [parseCommand_done (by simp [Build.complete])] at h
      obtain rfl := Option.some.inj h
      exact ⟨_, rfl, hread.completed hcaught hends⟩
    · -- the loop goes on behind `t`, which is no `|` and not the last token
      have hpipe : t ≠ ['|'] := fun ht => hends (.inl ht)
      have hlt : b₁.j + 2 ≤ tokens.length := Nat.not_lt.mp fun hlt => hends (.inr (.inl hlt))
      have hle := hread.le_j
      obtain ⟨c, hnext, hdone⟩ := ih h (hread.cmd.trans hnone) (hread.caught hcaught hlt)
        (show b₁.j + 1 < _ by omega) (show _ < b₁.j + 1 + f by omega)
      have hpipes : pipesFrom tokens b.j = pipesFrom tokens (b₁.j + 1) := by
        rw [hread.pipesFrom, if_neg hpipe, Nat.add_zero]
      refine ⟨c, hnext, ?_⟩
      exact ⟨hdone.cmd, hdone.caught, hdone.args, hdone.le, by rw [hpipes]; exact hdone.stops,
        hdone.mentions⟩

/-! ### All commands -/

/-- What the outer loop makes of the tokens from `j` on, at the command `i` out of `n`. -/
inductive Parsed (tokens : List Token) (n : Nat) : Nat → Nat → List (Option PipelineCommand) → Prop
  | last {i j : Nat} {c : PipelineCommand} (hj : j < tokens.length) (hpipes : pipesFrom tokens j = 0)
      (hnext : c.next = if i + 1 < n then some (i + 1) else none)
      (hmentions : ∀ t, tokens.getLast? = some t → t ≠ ['|'] → t ≠ ['&'] → t ∈ c.texts) :
      Parsed tokens n i j [some c]
  | pipe {i j j' : Nat} {c : PipelineCommand} {cs : List (Option PipelineCommand)} (hj : j < tokens.length)
      (hj' : j' ≤ tokens.length) (hpipes : pipesFrom tokens j = pipesFrom tokens j' + 1)
      (hpipe : tokens[j' - 1]? = some ['|'])
      (hnext : c.next = if i + 1 < n then some (i + 1) else none) (rest : Parsed tokens n (i + 1) j' cs) :
      Parsed tokens n i j (some c :: cs)
  | missing {i : Nat} : Parsed tokens n i tokens.length [none]

theorem pipesFrom_length (tokens : List Token) : pipesFrom tokens tokens.length = 0 := by
  simp [pipesFrom]

theorem parseCommands_parsed {k : Nat} (h : parseCommands tokens n (k + 1) i b = some cs)
    (hpipes : pipesFrom tokens b.j = k) (hj : b.j ≤ tokens.length) (hcaught : b.caught = false) :
    Parsed tokens n i b.j cs := by
  induction k generalizing b i cs with
  | zero =>
    simp only [parseCommands, Option.bind_eq_bind, Option.bind_eq_some_iff] at h
    obtain ⟨b', hb', rest, hrest, hcs⟩ := h
    obtain rfl := Option.some.inj hrest
    obtain rfl := Option.some.inj hcs
    rcases Nat.lt_or_ge b.j tokens.length with hlt | hge
    · obtain ⟨c, hnext, hdone⟩ := parseCommand_completed hb' rfl hcaught hlt (by dsimp only; omega)
      rw [hdone.cmd]
      rcases hdone.stops with ⟨hpos, -⟩ | ⟨-, hend⟩
      · dsimp only at hpos
        omega
      · exact .last hlt hpipes hnext (hdone.mentions hend)
    · have hnot : ¬ b.j < tokens.length := Nat.not_lt.mpr hge
      simp only [parseCommand, hnot, and_false, if_false, Option.some.injEq] at hb'
      subst hb'
      rw [Nat.le_antisymm hj hge]
      exact .missing
  | succ k ih =>
    rw [parseCommands] at h
    simp only [Option.bind_eq_bind, Option.bind_eq_some_iff] at h
    obtain ⟨b', hb', rest, hrest, hcs⟩ := h
    obtain rfl := Option.some.inj hcs
    have hlt : b.j < tokens.length := by
      rcases Nat.lt_or_ge b.j tokens.length with hlt | hge
      · exact hlt
      · rw [Nat.le_antisymm hj hge, pipesFrom_length] at hpipes
        omega
    obtain ⟨c, hnext, hdone⟩ := parseCommand_completed hb' rfl hcaught hlt (by dsimp only; omega)
    rw [hdone.cmd]
    rcases hdone.stops with ⟨hpos, hpipe⟩ | ⟨hzero, -⟩
    · exact .pipe hlt hdone.le hpos hpipe hnext (ih hrest (by dsimp only at hpos; omega) hdone.le hdone.caught)
    · dsimp only at hzero
      omega

theorem Parsed.length (h : Parsed tokens n i j cs) : cs.length = pipesFrom tokens j + 1 := by
  induction h with
  | last _ hpipes => rw [hpipes]; rfl
  | pipe _ _ hpipes _ _ _ ih => rw [hpipes, List.length_cons, ih]
  | missing => rw [pipesFrom_length]; rfl

theorem lt_of_pipe (hj : j ≤ tokens.length) (hpipe : tokens[j - 1]? = some ['|'])
    (hlast : tokens.getLast? ≠ some ['|']) : j < tokens.length := by
  refine Nat.lt_of_le_of_ne hj ?_
  rintro rfl
  exact hlast (List.getLast?_eq_getElem?.trans hpipe)

/-- The commands are all assigned unless the tokens run out before the last one. -/
theorem Parsed.assigned_iff (h : Parsed tokens n i j cs) :
    (∀ c ∈ cs, c ≠ none) ↔ j < tokens.length ∧ tokens.getLast? ≠ some ['|'] := by
  induction h with
  | @last i j c hj hpipes hnext hmentions =>
    refine iff_of_true (by simp) ⟨hj, ?_⟩
    intro hlast
    have hmem : ['|'] ∈ tokens.drop j := by
      have hdrop : (tokens.drop j).getLast? = tokens.getLast? := by
        rw [List.getLast?_drop, if_neg (by omega)]
      exact List.mem_of_getLast? (hdrop.trans hlast)
    exact List.count_eq_zero.mp hpipes hmem
  | @pipe i j j' c cs hj hj' hpipes hpipe hnext rest ih =>
    rw [List.forall_mem_cons, ih]
    constructor
    · rintro ⟨-, -, hlast⟩
      exact ⟨hj, hlast⟩
    · rintro ⟨-, hlast⟩
      exact ⟨by simp, lt_of_pipe hj' hpipe hlast, hlast⟩
  | missing => exact iff_of_false (by simp) (by simp)

/-- The last token is stored, when it is no separator. -/
theorem Parsed.mentions (h : Parsed tokens n i j cs) (hj : j < tokens.length)
    (hlast : tokens.getLast? = some t) (hpipe : t ≠ ['|']) (hamp : t ≠ ['&']) :
    ∃ c, some c ∈ cs ∧ t ∈ c.texts := by
  induction h with
  | @last i j c _ _ _ hmentions => exact ⟨c, by simp, hmentions t hlast hpipe hamp⟩
  | @pipe i j j' c cs _ hj' _ hbar _ _ ih =>
    have hne : tokens.getLast? ≠ some ['|'] := fun h => hpipe (Option.some.inj (hlast.symm.trans h))
    obtain ⟨d, hd, ht⟩ := ih (lt_of_pipe hj' hbar hne)
    exact ⟨d, List.mem_cons_of_mem _ hd, ht⟩
  | missing => exact absurd hj (Nat.lt_irrefl _)

theorem Parsed.next_eq (h : Parsed tokens n i j cs) {m : Nat} (hm : cs[m]? = some (some c)) :
    c.next = if i + m + 1 < n then some (i + m + 1) else none := by
  induction h generalizing m with
  | @last i j d _ _ hnext _ =>
    obtain ⟨hlt, hc⟩ := List.getElem?_eq_some_iff.mp hm
    obtain rfl : m = 0 := by simpa using hlt
    obtain rfl : d = c := by simpa using hc
    exact hnext
  | @pipe i j j' d cs _ _ _ _ hnext _ ih =>
    cases m with
    | zero =>
      obtain rfl : d = c := by simpa using hm
      exact hnext
    | succ m =>
      have hrest := ih (by simpa using hm)
      rw [show i + 1 + m + 1 = i + (m + 1) + 1 by omega] at hrest
      exact hrest
  | missing =>
    cases m with
    | zero => simp at hm
    | succ m => simp at hm

/-! ### Room for the arguments -/

theorem readToken_isSome (hj : b.j < tokens.length) (hroom : b.args.length < maxArgvLength) :
    ∃ b₁, readToken tokens b = some b₁ := by
  have ht : tokens[b.j]? = some tokens[b.j] := List.getElem?_eq_getElem hj
  simp only [readToken, ht, Option.bind_eq_bind, Option.bind_some]
  split
  · next hout =>
    rw [List.getElem?_eq_getElem hout.2]
    exact ⟨_, rfl⟩
  · split
    · next hin =>
      rw [List.getElem?_eq_getElem hin.2]
      exact ⟨_, rfl⟩
    · split
      · rw [storeArg, if_pos hroom]
        exact ⟨_, rfl⟩
      · exact ⟨_, rfl⟩

theorem lastSign_le_one (tokens : List Token) : lastSign tokens ≤ 1 := by
  rw [lastSign]
  split <;> decide

/-- A last token that is a sign is no operand. -/
theorem countP_add_lastSign_le (hne : tokens ≠ []) :
    tokens.countP isOperand + lastSign tokens ≤ tokens.length := by
  rcases List.eq_nil_or_concat tokens with rfl | ⟨ts, t, rfl⟩
  · exact absurd rfl hne
  · have hle : ts.countP isOperand ≤ ts.length := List.countP_le_length
    cases ht : isOperand t <;> simp [lastSign, ht] <;> omega

/-- The arguments that are stored and the ones to come leave room for the `NULL`. -/
def Roomy (tokens : List Token) (b : Build) : Prop :=
  b.args.length + operandsFrom tokens b.j + lastSign tokens + 1 ≤ maxArgvLength

theorem parseToken_isSome (next : Option Nat) (hj : b.j < tokens.length) (hroom : Roomy tokens b) :
    ∃ b', parseToken tokens next b = some b' ∧ (b'.cmd = none → Roomy tokens b') := by
  rw [Roomy] at hroom
  obtain ⟨b₁, hb₁⟩ := readToken_isSome hj (show b.args.length < maxArgvLength by omega)
  obtain ⟨t, hread⟩ := readToken_cases hb₁
  have hle := hread.operands
  by_cases hends : Ends tokens t b₁
  · have hargs : b₁.args.length < maxArgvLength := by
      split at hle <;> omega
    refine ⟨_, parseToken_of_end hb₁ hread.getElem? hends hargs, ?_⟩
    simp [Build.complete]
  · simp only [Ends, not_or, Bool.not_eq_true] at hends
    obtain ⟨hpipe, hlt, hcaught⟩ := hends
    refine ⟨_, parseToken_of_go hb₁ hread.getElem? hpipe (by omega) hcaught, ?_⟩
    intro _
    rw [if_neg hlt] at hle
    show b₁.args.length + operandsFrom tokens (b₁.j + 1) + lastSign tokens + 1 ≤ maxArgvLength
    omega

theorem parseCommand_isSome (next : Option Nat) (f : Nat) (hroom : Roomy tokens b) :
    ∃ b', parseCommand tokens next f b = some b' := by
  induction f generalizing b with
  | zero => exact ⟨b, rfl⟩
  | succ f ih =>
    rw [parseCommand]
    split
    · next hgo =>
      obtain ⟨b', hb', hroom'⟩ := parseToken_isSome next hgo.2 hroom
      simp only [hb', Option.bind_eq_bind, Option.bind_some]
      by_cases hnone : b'.cmd = none
      · exact ih (hroom' hnone)
      · exact ⟨b', parseCommand_done hnone f⟩
    · exact ⟨b, rfl⟩

theorem operandsFrom_le (tokens : List Token) (j : Nat) : operandsFrom tokens j ≤ tokens.countP isOperand :=
  (List.drop_sublist j tokens).countP_le

theorem parseCommands_isSome (k : Nat)
    (hroom : tokens.countP isOperand + lastSign tokens + 1 ≤ maxArgvLength)
    (hj : b.j ≤ tokens.length) (hcaught : b.caught = false) (hargs : b.args = []) :
    ∃ cs, parseCommands tokens n k i b = some cs := by
  induction k generalizing i b with
  | zero => exact ⟨[], rfl⟩
  | succ k ih =>
    have hroom' : Roomy tokens { b with redirectIn := none, redirectOut := none, cmd := none } := by
      have hle := operandsFrom_le tokens b.j
      simp only [Roomy, hargs, List.length_nil]
      omega
    obtain ⟨b', hb'⟩ := parseCommand_isSome (if i + 1 < n then some (i + 1) else none)
      (tokens.length + 1) hroom'
    have hrest : ∃ cs, parseCommands tokens n k (i + 1) b' = some cs := by
      rcases Nat.lt_or_ge b.j tokens.length with hlt | hge
      · obtain ⟨c, -, hdone⟩ := parseCommand_completed hb' rfl hcaught hlt (by dsimp only; omega)
        exact ih hdone.le hdone.caught hdone.args
      · have hnot : ¬ b.j < tokens.length := Nat.not_lt.mpr hge
        have hsame := hb'
        simp only [parseCommand, hnot, and_false, if_false, Option.some.injEq] at hsame
        subst hsame
        exact ih hj hcaught hargs
    obtain ⟨cs, hcs⟩ := hrest
    exact ⟨_, by simp only [parseCommands, hb', hcs, Option.bind_eq_bind, Option.bind_some]; rfl⟩

/-! ### The pipeline -/

theorem buildTokens_commands {α : Type} [TokenRef α] {p : Pipeline α} (h : buildTokens tokens = some (n, p)) :
    tokens ≠ [] ∧ n = findNumCmds tokens ∧
      parseCommands tokens n n 0 ⟨0, false, [], none, none, none⟩ = some p.commands := by
  simp only [buildTokens] at h
  split at h
  · cases h
  · simp only [Option.bind_eq_bind, Option.bind_eq_some_iff] at h
    obtain ⟨cs, hcs, last, hlast, hr⟩ := h
    obtain ⟨rfl, rfl⟩ := Prod.mk.inj (Option.some.inj hr)
    refine ⟨?_, rfl, hcs⟩
    rintro rfl
    cases hlast

theorem parsed_of_parseCommands
    (h : parseCommands tokens (findNumCmds tokens) (findNumCmds tokens) 0 ⟨0, false, [], none, none, none⟩ =
      some cs) : Parsed tokens (findNumCmds tokens) 0 0 cs := by
  have hnum : findNumCmds tokens = tokens.count ['|'] + 1 := Nat.add_comm _ _
  rw [hnum] at h ⊢
  exact parseCommands_parsed h (by simp [pipesFrom]) (Nat.zero_le _) rfl

theorem buildTokens_parsed {p : Pipeline} (h : buildTokens tokens = some (n, p)) :
    tokens ≠ [] ∧ n = findNumCmds tokens ∧ Parsed tokens (findNumCmds tokens) 0 0 p.commands := by
  obtain ⟨hne, rfl, hcommands⟩ := buildTokens_commands h
  exact ⟨hne, rfl, parsed_of_parseCommands hcommands⟩

/-- What `pipeline_build` returns for tokens that have room. -/
theorem buildTokens_cases (hargs : tokens.countP isOperand + lastSign tokens + 1 ≤ maxArgvLength)
    (hlt : tokens.length < maxTokens) :
    tokens = [] ∧ (buildTokens tokens : Option (Nat × Pipeline)) = none ∨
      ∃ cs bg, tokens ≠ [] ∧ buildTokens tokens = some (findNumCmds tokens, ⟨cs, bg⟩) ∧
        Parsed tokens (findNumCmds tokens) 0 0 cs := by
  have hroom : ¬ maxTokens < tokens.length := Nat.lt_asymm hlt
  obtain ⟨cs, hcs⟩ := @parseCommands_isSome tokens ⟨0, false, [], none, none, none⟩ (findNumCmds tokens) 0
    (findNumCmds tokens) hargs (Nat.zero_le _) rfl rfl
  have hparsed := parsed_of_parseCommands hcs
  rcases List.eq_nil_or_concat tokens with hnil | ⟨ts, t, hconcat⟩
  · refine .inl ⟨hnil, ?_⟩
    simp only [buildTokens, if_neg hroom, hcs, Option.bind_eq_bind, Option.bind_some]
    rw [hnil]
    rfl
  · have hlast : tokens[tokens.length - 1]? = some t := by
      rw [← List.getLast?_eq_getElem?, hconcat]
      simp
    refine .inr ⟨cs, decide (t = ['&']), by simp [hconcat], ?_, hparsed⟩
    simp only [buildTokens, if_neg hroom, hcs, hlast, Option.bind_eq_bind, Option.bind_some]

end EC440.SimpleShell
