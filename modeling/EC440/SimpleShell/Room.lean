import EC440.SimpleShell.Heap

/-!
# The stores to `command_args`

`stores` lists the indices `k` of all the stores `pl.command_args[k++]` that `pipeline_build` makes for a
line on a heap, the `NULL` of each command included.  The list ends with the first store that is outside of
the array, if there is one, so the two loops get through just when all of its indices are inside
(`parseCommands_isSome_iff`).

A line of less than `MAX_LINE_LENGTH` bytes has at most 255 operands, and at most one sign is stored as an
argument, so the array is large enough for the tokens as they were copied (`stores_lt_of_zeroed`).  But a
sign with a byte behind it is read as an operand too.  Then every token is an argument, and the array is
large enough only for lines of at most 256 tokens (`stores_lt_iff`).
-/

namespace EC440.SimpleShell

variable {tokens : List Token} {next : Option Nat} {b : Build} {f n i : Nat} {line : List Char} {c : Char}
  {heap : Nat → List Char}

/-! ### The number of tokens -/

/-- A token is complete at `c`: it is a sign, or the last character of a word with another one behind it. -/
def endsToken (c : Char) (rest : List Char) : Bool :=
  isSpecialToken c || isWordChar c && rest.head?.any fun d => !isWordChar d

/-- How many characters of the line end a token. -/
def tokenEnds : List Char → Nat
  | [] => 0
  | c :: rest => (if endsToken c rest then 1 else 0) + tokenEnds rest

/-- The word that is being read is complete at the first character of `rest`. -/
def endsWord (s : Scan) (rest : List Char) : Bool :=
  s.token ≠ [] && rest.head?.any fun d => !isWordChar d

theorem length_flushed (s : Scan) (hc : isWordChar c = false) (rest : List Char) :
    s.flushed.length = s.tokens.length + if endsWord s (c :: rest) then 1 else 0 := by
  rw [Scan.flushed]
  split
  · next hnil => simp [endsWord, hnil]
  · next hne => simp [endsWord, hne, hc]

theorem length_tokens_foldl (line : List Char) (s : Scan) : (line.foldl scanChar s).tokens.length =
    s.tokens.length + (if endsWord s line then 1 else 0) + tokenEnds line := by
  induction line generalizing s with
  | nil => simp [endsWord, tokenEnds]
  | cons c rest ih =>
    rw [List.foldl_cons, ih, tokenEnds]
    rcases char_cases c with hc | hc | hc
    · have hword := isWordChar_of_isWhiteSpace hc
      have hsign : isSpecialToken c = false := by
        cases hs : isSpecialToken c with
        | true => rw [isWhiteSpace_of_isSpecialToken hs] at hc; cases hc
        | false => rfl
      rw [scanChar_white s hc, ← length_flushed s hword rest]
      simp [endsWord, endsToken, hword, hsign]
    · have hword := isWordChar_of_isSpecialToken hc
      have hflush := length_flushed s hword rest
      rw [scanChar_sign s hc]
      simp only [List.length_append, List.length_cons, List.length_nil, hflush, endsToken, hc]
      simp [endsWord]
      omega
    · have hsign := isSpecialToken_of_isWordChar hc
      rw [scanChar_word s hc]
      simp [endsWord, endsToken, hc, hsign, Nat.add_assoc]

theorem length_findTokens (line : List Char) : (findTokens line).length = tokenEnds line := by
  rw [findTokens, length_tokens_foldl]
  simp [endsWord]

/-! ### Room for the tokens -/

theorem isOperand_of_isSpecialToken (hc : isSpecialToken c = true) : isOperand [c] = false := by
  simp only [isSpecialToken, Bool.or_eq_true, beq_iff_eq] at hc
  rcases hc with ((rfl | rfl) | rfl) | rfl <;> decide

/-- Each operand takes two characters of the line: one of its own and the one that ends it. -/
theorem room_scan (line : List Char) :
    2 * (scan line).tokens.countP isOperand + (scan line).token.length ≤ line.length ∧
      (scan line).tokens.length + (scan line).token.length ≤ line.length := by
  induction line using List.reverseRecOn with
  | nil => exact ⟨Nat.le_refl 0, Nat.le_refl 0⟩
  | append_singleton line c ih =>
    have hflush : 2 * (scan line).flushed.countP isOperand ≤ line.length + 1 ∧
        (scan line).flushed.length ≤ line.length := by
      rw [Scan.flushed]
      split
      · omega
      · next hne =>
        have hpos := List.length_pos_iff.mpr hne
        have hone : [(scan line).token].countP isOperand ≤ 1 := List.countP_le_length
        rw [List.countP_append, List.length_append]
        simp only [List.length_cons, List.length_nil]
        omega
    rw [scan_concat, List.length_append]
    rcases char_cases c with hc | hc | hc
    · rw [scanChar_white _ hc]
      simp only [List.length_cons, List.length_nil]
      omega
    · rw [scanChar_sign _ hc]
      simp only [List.countP_append, List.countP_singleton, isOperand_of_isSpecialToken hc,
        List.length_append, List.length_cons, List.length_nil, Bool.false_eq_true, if_false]
      omega
    · rw [scanChar_word _ hc]
      simp only [List.length_append, List.length_cons, List.length_nil]
      omega

/-- A line that the shell can read leaves room for its tokens, as they were copied, and for a token more. -/
theorem room_line (hlen : line.length < maxLineLength) :
    (findTokens line).countP isOperand + lastSign (findTokens line) + 1 ≤ maxArgvLength ∧
      (findTokens line).length < maxTokens := by
  obtain ⟨hoperands, htokens⟩ := room_scan line
  have hscan : (scan line).tokens = findTokens line := rfl
  rw [hscan] at hoperands htokens
  have hsign := lastSign_le_one (findTokens line)
  have hline : maxLineLength = 512 := rfl
  have hargv : maxArgvLength = 257 := rfl
  have hmax : maxTokens = 16448 := rfl
  omega

/-- However they are read, few tokens have room. -/
theorem room_of_length (h : tokens.length < maxArgvLength) :
    tokens.countP isOperand + lastSign tokens + 1 ≤ maxArgvLength := by
  by_cases hne : tokens = []
  · rw [hne]
    decide
  · have hle := countP_add_lastSign_le hne
    omega

/-! ### The stores -/

/-- The index at which `readToken` stores an argument. -/
def readStores (tokens : List Token) (b : Build) : List Nat :=
  match tokens[b.j]? with
  | none => []
  | some t =>
    if t = ['>'] ∧ b.j + 1 < tokens.length then []
    else if t = ['<'] ∧ b.j + 1 < tokens.length then []
    else if t ≠ ['&'] ∧ t ≠ ['|'] then [b.args.length]
    else []

/-- The index at which `finish` stores the `NULL`. -/
def finishStores (tokens : List Token) (b : Build) : List Nat :=
  match tokens[b.j]? with
  | none => []
  | some t => if t = ['|'] ∨ tokens.length < b.j + 2 ∨ b.caught then [b.args.length] else []

/-- The stores of one round of the `while` loop. -/
def roundStores (tokens : List Token) (b : Build) : List Nat :=
  readStores tokens b ++ ((readToken tokens b).map (finishStores tokens)).getD []

/-- The stores of the `while` loop. -/
def commandStores (tokens : List Token) (next : Option Nat) : Nat → Build → List Nat
  | 0, _ => []
  | fuel + 1, b =>
    if b.cmd = none ∧ b.j < tokens.length then
      roundStores tokens b ++
        ((parseToken tokens next b).map (commandStores tokens next fuel)).getD []
    else
      []

/-- The stores of the `for` loop, with `k` commands to go. -/
def commandsStores (tokens : List Token) (numCommands : Nat) : Nat → Nat → Build → List Nat
  | 0, _, _ => []
  | k + 1, i, b =>
    let next := if i + 1 < numCommands then some (i + 1) else none
    let b := { b with redirectIn := none, redirectOut := none, cmd := none }
    commandStores tokens next (tokens.length + 1) b ++
      ((parseCommand tokens next (tokens.length + 1) b).map
        (commandsStores tokens numCommands k (i + 1))).getD []

/-- The indices of the stores to `command_args` behind `find_tokens`. -/
def storesOf (tokens : List Token) : List Nat :=
  commandsStores tokens (findNumCmds tokens) (findNumCmds tokens) 0 ⟨0, false, [], none, none, none⟩

/-- The indices of the stores to `command_args` in `pipeline_build`, on a heap. -/
def stores (heap : Nat → List Char) (line : List Char) : List Nat := storesOf (tokensIn heap line)

/-- All of the indices are in `command_args`. -/
def InRoom (ks : List Nat) : Prop := ∀ k ∈ ks, k < maxArgvLength

@[simp] theorem inRoom_nil : InRoom [] := by simp [InRoom]

@[simp] theorem inRoom_singleton (k : Nat) : InRoom [k] ↔ k < maxArgvLength := by simp [InRoom]

@[simp] theorem inRoom_append (ks ls : List Nat) : InRoom (ks ++ ls) ↔ InRoom ks ∧ InRoom ls :=
  List.forall_mem_append

/-- Two pieces of code in a row are in room just when the first one is and the second one, after it, is. -/
theorem isSome_bind_iff {α : Type} {x : Option Build} {g : Build → Option α} {ks : List Nat}
    {ls : Build → List Nat} (hx : x.isSome ↔ InRoom ks)
    (hg : ∀ b, x = some b → ((g b).isSome ↔ InRoom (ls b))) :
    (x.bind g).isSome ↔ InRoom (ks ++ (x.map ls).getD []) := by
  rw [inRoom_append, ← hx]
  cases x with
  | none => simp
  | some b => simpa using hg b rfl

theorem storeArg_isSome_iff (b : Build) (a : Option Token) :
    (storeArg b a).isSome ↔ InRoom [b.args.length] := by
  rw [storeArg, inRoom_singleton]
  split
  · next h => exact iff_of_true rfl h
  · next h => exact iff_of_false (by simp) h

theorem readToken_isSome_iff (hj : b.j < tokens.length) :
    (readToken tokens b).isSome ↔ InRoom (readStores tokens b) := by
  have ht : tokens[b.j]? = some tokens[b.j] := List.getElem?_eq_getElem hj
  simp only [readToken, readStores, ht, Option.bind_eq_bind, Option.bind_some]
  split
  · next hout =>
    rw [List.getElem?_eq_getElem hout.2]
    simp
  · split
    · next hin =>
      rw [List.getElem?_eq_getElem hin.2]
      simp
    · split
      · exact storeArg_isSome_iff b _
      · simp

theorem finish_isSome_iff (next : Option Nat) (hj : b.j < tokens.length) :
    (finish tokens next b).isSome ↔ InRoom (finishStores tokens b) := by
  have ht : tokens[b.j]? = some tokens[b.j] := List.getElem?_eq_getElem hj
  simp only [finish, finishStores, ht, Option.bind_eq_bind, Option.bind_some]
  split
  · rw [← storeArg_isSome_iff b none]
    cases storeArg b none <;> rfl
  · simp

theorem parseToken_isSome_iff (next : Option Nat) (hj : b.j < tokens.length) :
    (parseToken tokens next b).isSome ↔ InRoom (roundStores tokens b) := by
  refine isSome_bind_iff (readToken_isSome_iff hj) ?_
  intro b₁ hb₁
  obtain ⟨t, hread⟩ := readToken_cases hb₁
  rw [← finish_isSome_iff next (List.getElem?_eq_some_iff.mp hread.getElem?).1]
  cases finish tokens next b₁ <;> rfl

theorem parseCommand_isSome_iff (f : Nat) :
    (parseCommand tokens next f b).isSome ↔ InRoom (commandStores tokens next f b) := by
  induction f generalizing b with
  | zero => simp [parseCommand, commandStores]
  | succ f ih =>
    rw [parseCommand, commandStores]
    split
    · next hgo => exact isSome_bind_iff (parseToken_isSome_iff next hgo.2) fun b' _ => ih
    · simp

/-- **The loops stop only at a store outside of `command_args`.** -/
theorem parseCommands_isSome_iff (k : Nat) :
    (parseCommands tokens n k i b).isSome ↔ InRoom (commandsStores tokens n k i b) := by
  induction k generalizing i b with
  | zero => simp [parseCommands, commandsStores]
  | succ k ih =>
    refine isSome_bind_iff (parseCommand_isSome_iff _) ?_
    intro b' _
    rw [← ih]
    cases parseCommands tokens n k (i + 1) b' <;> rfl

theorem inRoom_storesOf (hroom : tokens.countP isOperand + lastSign tokens + 1 ≤ maxArgvLength) :
    InRoom (storesOf tokens) := by
  obtain ⟨cs, hcs⟩ := @parseCommands_isSome tokens ⟨0, false, [], none, none, none⟩ (findNumCmds tokens) 0
    (findNumCmds tokens) hroom (Nat.zero_le _) rfl rfl
  exact (parseCommands_isSome_iff _).mp (by rw [hcs]; rfl)

/-- With zeros behind the tokens, the array is large enough for every line that the shell can read. -/
theorem stores_lt_of_zeroed (hheap : ∀ j, ∀ c ∈ heap j, c = Char.ofNat 0) (hline : Char.ofNat 0 ∉ line)
    (hlen : line.length < maxLineLength) : InRoom (stores heap line) := by
  rw [stores, tokensIn_zeroed hheap hline]
  exact inRoom_storesOf (room_line hlen).1

/-! ### Operands only -/

theorem ne_pipe_of_isOperand {t : Token} (h : isOperand t = true) : t ≠ ['|'] := by
  rintro rfl
  cases h

theorem isOperand_of_length {t : Token} (h : 2 ≤ t.length) : isOperand t = true := by
  simp only [isOperand, decide_eq_true_eq]
  refine ⟨?_, ?_, ?_, ?_⟩ <;>
  · rintro rfl
    exact absurd h (by decide)

theorem readStores_operand {t : Token} (ht : tokens[b.j]? = some t) (hop : isOperand t = true) :
    readStores tokens b = [b.args.length] := by
  simp only [isOperand, decide_eq_true_eq] at hop
  obtain ⟨hpipe, hamp, hin, hout⟩ := hop
  simp [readStores, ht, hpipe, hamp, hin, hout]

/-- Every operand is stored, at its own index, and the `NULL` behind the last one. -/
theorem mem_commandStores_operands (hops : ∀ t ∈ tokens, isOperand t = true) (hnone : b.cmd = none)
    (hcaught : b.caught = false) (hargs : b.args.length = b.j) (hj : b.j < tokens.length)
    (hroom : b.j ≤ maxArgvLength) (hf : tokens.length < b.j + f) :
    min tokens.length maxArgvLength ∈ commandStores tokens next f b := by
  induction f generalizing b with
  | zero => omega
  | succ f ih =>
    have ht : tokens[b.j]? = some tokens[b.j] := List.getElem?_eq_getElem hj
    have hop := hops tokens[b.j] (List.getElem_mem hj)
    rw [commandStores, if_pos ⟨hnone, hj⟩, List.mem_append]
    by_cases hfull : b.j = maxArgvLength
    · -- the array is full, so this store is behind it
      refine .inl ?_
      rw [roundStores, readStores_operand ht hop, hargs, hfull, Nat.min_eq_right (by omega)]
      exact List.mem_cons_self
    · have hread := readToken_operand ht hop (show b.args.length < maxArgvLength by omega)
      by_cases hlast : b.j + 1 = tokens.length
      · refine .inl ?_
        have hend : tokens.length < b.j + 2 := by omega
        rw [roundStores, hread, Option.map_some, Option.getD_some, List.mem_append]
        refine .inr ?_
        rw [Nat.min_eq_left (by omega)]
        simp [finishStores, ht, hend, hargs, hlast]
      · rw [parseToken_of_go hread ht (ne_pipe_of_isOperand hop) (by dsimp only; omega) hcaught]
        refine .inr (ih hnone hcaught ?_ ?_ ?_ ?_) <;> simp <;> omega

/-- With a byte behind each token, all of them are operands. -/
theorem mem_stores_garbage (hline : Char.ofNat 0 ∉ line) (hne : findTokens line ≠ []) :
    min (tokenEnds line) maxArgvLength ∈ stores (garbage line ['?']) line := by
  rw [stores, tokensIn_garbage hline (by decide), ← length_findTokens]
  set tokens := (findTokens line).map (· ++ ['?']) with htokens
  have hlen : tokens.length = (findTokens line).length := List.length_map _
  have hops : ∀ t ∈ tokens, isOperand t = true := by
    intro t ht
    obtain ⟨u, hu, rfl⟩ := List.mem_map.mp ht
    refine isOperand_of_length ?_
    have hpos := List.length_pos_iff.mpr (ne_nil_of_mem_findTokens hu)
    rw [List.length_append, List.length_singleton]
    omega
  have hone : findNumCmds tokens = 1 := by
    rw [findNumCmds, List.count_eq_zero.mpr fun hmem => ne_pipe_of_isOperand (hops _ hmem) rfl]
  have hpos : 0 < tokens.length := by
    rw [hlen]
    exact List.length_pos_iff.mpr hne
  rw [storesOf, hone, commandsStores, ← hlen]
  exact List.mem_append_left _ (mem_commandStores_operands hops rfl rfl rfl hpos (Nat.zero_le _)
    (by dsimp only; omega))

/-- A line of `n` signs. -/
def bars (n : Nat) : List Char := List.replicate n '|' ++ ['\n']

/-- **When the arrays are large enough**: every store to `command_args` is inside of it whatever is on the
heap, and there are fewer tokens than `find_tokens` has room for, just when less than `MAX_ARGV_LENGTH`
characters of the line end a token. -/
theorem stores_lt_iff (line : List Char) (hline : Char.ofNat 0 ∉ line) :
    (∀ heap, (∀ k ∈ stores heap line, k < maxArgvLength) ∧ (tokensIn heap line).length < maxTokens) ↔
      tokenEnds line < maxArgvLength := by
  constructor
  · intro h
    by_contra hmany
    have hne : findTokens line ≠ [] := by
      rintro hnil
      rw [← length_findTokens, hnil] at hmany
      exact hmany (by decide)
    have hmem := mem_stores_garbage hline hne
    rw [Nat.min_eq_right (Nat.not_lt.mp hmany)] at hmem
    exact Nat.lt_irrefl _ ((h _).1 _ hmem)
  · intro hfew heap
    have hcount : (tokensIn heap line).length = tokenEnds line := by
      rw [length_tokensIn, length_findTokens]
    refine ⟨inRoom_storesOf (room_of_length (by rw [hcount]; exact hfew)), ?_⟩
    rw [hcount]
    exact Nat.lt_trans hfew (by decide)

/-- 256 signs fit, with the `NULL` behind them in the last element. -/
theorem stores_lt_bars :
    (∀ heap, ∀ k ∈ stores heap (bars 256), k < maxArgvLength) ∧
      maxArgvLength - 1 ∈ stores (garbage (bars 256) ['?']) (bars 256) := by
  have hends : tokenEnds (bars 256) = 256 := by decide +kernel
  have hmem := mem_stores_garbage (show Char.ofNat 0 ∉ bars 256 by decide +kernel) (by decide +kernel)
  rw [hends] at hmem
  exact ⟨fun heap => ((stores_lt_iff (bars 256) (by decide +kernel)).mpr (by rw [hends]; decide) heap).1, hmem⟩

/-- With a byte behind each of 300 signs, the last of them are stored behind the array. -/
theorem stores_bars : Char.ofNat 0 ∉ bars 300 ∧ (bars 300).length < maxLineLength ∧
    findTokens (bars 300) ≠ [] ∧ maxArgvLength ∈ stores (garbage (bars 300) ['?']) (bars 300) ∧
    ¬ ∀ heap, ∀ k ∈ stores heap (bars 300), k < maxArgvLength := by
  have hends : tokenEnds (bars 300) = 300 := by decide +kernel
  have hline : Char.ofNat 0 ∉ bars 300 := by decide +kernel
  have hne : findTokens (bars 300) ≠ [] := by decide +kernel
  have hmem := mem_stores_garbage hline hne
  rw [hends] at hmem
  exact ⟨hline, by decide +kernel, hne, hmem, fun h => Nat.lt_irrefl _ (h _ _ hmem)⟩

end EC440.SimpleShell
