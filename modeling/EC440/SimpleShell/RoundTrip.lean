import EC440.SimpleShell.Render

/-!
# The parser inverts rendering

`pipeline_build` returns, for every command line that spells a pipeline, that pipeline
(`pipelineBuild_render`).  The lexer is in `Renders.findTokens`; here the two loops of the parser go over
the tokens of one command (`parseCommand_items`), and then over the commands (`parseCommands_eq`).
A line of less than `MAX_LINE_LENGTH` bytes has too few words to fill `command_args`
(`Renders.two_mul_words_le`).
-/

namespace EC440.SimpleShell

variable {t w : Token} {tokens pre suf toks : List Token} {line gap : List Char} {c : Char} {i : Item}
  {items : List Item} {next : Option Nat} {b b' : Build} {f : Nat} {p : Line}

/-! ### Room for the arguments -/

/-- The number of words among the tokens. -/
def wordCount (toks : List Token) : Nat := toks.countP fun t => decide (IsWord t)

theorem Renders.words_le (h : Renders toks line) (htoks : ∀ t ∈ toks, IsWord t ∨ IsSign t) :
    2 * wordCount toks ≤ line.length ∧ (¬ StartsWithWord toks → 2 * wordCount toks + 1 ≤ line.length) := by
  induction h with
  | nil => simp [wordCount]
  | @cons t gap ts line hgap hapart hrest ih =>
    obtain ⟨ih₁, ih₂⟩ := ih fun t ht => htoks t (List.mem_cons_of_mem _ ht)
    simp only [List.length_append]
    rcases htoks t List.mem_cons_self with hword | hsign
    · have hcount : wordCount (t :: ts) = wordCount ts + 1 := by simp [wordCount, hword]
      have hpos : 0 < t.length := List.length_pos_iff.mpr hword.1
      refine ⟨?_, fun hnot => absurd hword hnot⟩
      by_cases hstart : StartsWithWord ts
      · have hgap : 0 < gap.length := List.length_pos_iff.mpr (hapart hword hstart)
        omega
      · have := ih₂ hstart
        omega
    · have hcount : wordCount (t :: ts) = wordCount ts := by
        simp [wordCount, not_isWord_of_isSign hsign]
      obtain ⟨c, -, rfl⟩ := hsign
      simp only [List.length_cons, List.length_nil]
      omega

theorem Renders.two_mul_words_le (h : Renders toks line) (htoks : ∀ t ∈ toks, IsWord t ∨ IsSign t) :
    2 * wordCount toks ≤ line.length := (h.words_le htoks).1

theorem Renders.length_le (h : Renders toks line) (htoks : ∀ t ∈ toks, IsWord t ∨ IsSign t) :
    toks.length ≤ line.length := by
  induction h with
  | nil => simp
  | @cons t gap ts line hgap hapart hrest ih =>
    have hpos : 0 < t.length := by
      rcases htoks t List.mem_cons_self with hword | ⟨c, -, rfl⟩
      · exact List.length_pos_iff.mpr hword.1
      · simp
    have hle := ih fun t ht => htoks t (List.mem_cons_of_mem _ ht)
    simp only [List.length_append, List.length_cons]
    omega

/-! ### One token -/

theorem IsWord.ne_sign (h : IsWord w) (hc : isSpecialToken c = true) : w ≠ [c] := by
  rintro rfl
  exact not_isWord_of_isSign ⟨c, hc, rfl⟩ h

/-- What an item adds to the command. -/
def Build.add (b : Build) : Item → Build
  | .word w => { b with args := b.args ++ [some w], j := b.j + 1 }
  | .input w => { b with redirectIn := some w, j := b.j + 2 }
  | .output w => { b with redirectOut := some w, j := b.j + 2 }

/-- The command is complete. -/
def Build.complete (b : Build) (next : Option Nat) : Build :=
  { b with
    caught := false
    args := []
    cmd := some ⟨b.args ++ [none], b.redirectIn, b.redirectOut, next⟩ }

theorem getElem?_of_append {j : Nat} (h : tokens = pre ++ t :: suf) (hj : j = pre.length) :
    tokens[j]? = some t := by
  rw [h, hj, List.getElem?_append_right (Nat.le_refl _), Nat.sub_self, List.getElem?_cons_zero]

/-- A token that is no sign. -/
def isOperand (t : Token) : Bool := t ≠ ['|'] ∧ t ≠ ['&'] ∧ t ≠ ['<'] ∧ t ≠ ['>']

theorem IsWord.isOperand (h : IsWord w) : isOperand w = true := by
  simp [SimpleShell.isOperand, h.ne_sign (show isSpecialToken '|' = true from rfl),
    h.ne_sign (show isSpecialToken '&' = true from rfl), h.ne_sign (show isSpecialToken '<' = true from rfl),
    h.ne_sign (show isSpecialToken '>' = true from rfl)]

theorem readToken_operand (ht : tokens[b.j]? = some w) (hw : isOperand w = true)
    (hargs : b.args.length < maxArgvLength) :
    readToken tokens b = some { b with args := b.args ++ [some w] } := by
  simp only [isOperand, decide_eq_true_eq] at hw
  obtain ⟨hpipe, hamp, hin, hout⟩ := hw
  simp [readToken, ht, hout, hin, hamp, hpipe, storeArg, hargs]

theorem readToken_output (ht : tokens[b.j]? = some ['>']) (hw : tokens[b.j + 1]? = some w) :
    readToken tokens b = some
      { b with
        redirectOut := some w
        j := b.j + 1
        caught := b.caught || decide (tokens.length < b.j + 1 + 2) } := by
  have hlt : b.j + 1 < tokens.length := (List.getElem?_eq_some_iff.mp hw).1
  simp only [readToken, ht, hw, hlt, ref_token, Option.bind_eq_bind, Option.bind_some, and_self, if_true]

theorem readToken_input (ht : tokens[b.j]? = some ['<']) (hw : tokens[b.j + 1]? = some w) :
    readToken tokens b = some
      { b with
        redirectIn := some w
        j := b.j + 1
        caught := b.caught || decide (tokens.length < b.j + 1 + 2) } := by
  have hlt : b.j + 1 < tokens.length := (List.getElem?_eq_some_iff.mp hw).1
  have hne : (['<'] : Token) ≠ ['>'] := by decide
  simp only [readToken, ht, hw, hlt, hne, ref_token, Option.bind_eq_bind, Option.bind_some, and_self,
    false_and, if_true, if_false]

/-- The tokens of an item are read, up to the one that `finish` looks at. -/
theorem readToken_item (h : tokens = pre ++ (i.tokens ++ suf)) (hj : b.j = pre.length)
    (hi : IsWord i.text) (hargs : b.args.length < maxArgvLength) :
    ∃ b₁, readToken tokens b = some b₁ ∧ tokens[b₁.j]? = some i.text ∧
      { b₁ with j := b₁.j + 1, caught := b.caught } = b.add i ∧
      (b₁.caught = true → b.caught = true ∨ tokens.length < b₁.j + 2) := by
  cases i with
  | word w =>
    have hw : tokens[b.j]? = some w := getElem?_of_append h hj
    exact ⟨_, readToken_operand hw hi.isOperand hargs, hw, rfl, .inl⟩
  | output w =>
    have ht : tokens[b.j]? = some ['>'] := getElem?_of_append h hj
    have hw : tokens[b.j + 1]? = some w := by
      have h' : tokens = (pre ++ [['>']]) ++ w :: suf := by simpa [Item.tokens] using h
      exact getElem?_of_append h' (by simp [hj])
    exact ⟨_, readToken_output ht hw, hw, rfl, by simp⟩
  | input w =>
    have ht : tokens[b.j]? = some ['<'] := getElem?_of_append h hj
    have hw : tokens[b.j + 1]? = some w := by
      have h' : tokens = (pre ++ [['<']]) ++ w :: suf := by simpa [Item.tokens] using h
      exact getElem?_of_append h' (by simp [hj])
    exact ⟨_, readToken_input ht hw, hw, rfl, by simp⟩

/-- The end of the body of the loop, at a token that does not end the command. -/
theorem parseToken_of_go {b₁ : Build} (hread : readToken tokens b = some b₁)
    (ht : tokens[b₁.j]? = some t) (hpipe : t ≠ ['|']) (hj : b₁.j + 2 ≤ tokens.length)
    (hcaught : b₁.caught = false) :
    parseToken tokens next b = some { b₁ with j := b₁.j + 1 } := by
  have hlast : ¬ tokens.length < b₁.j + 2 := by omega
  simp [parseToken, hread, finish, ht, hpipe, hlast, hcaught]

theorem parseToken_of_end {b₁ : Build} (hread : readToken tokens b = some b₁)
    (ht : tokens[b₁.j]? = some t) (hend : t = ['|'] ∨ tokens.length < b₁.j + 2 ∨ b₁.caught = true)
    (hargs : b₁.args.length < maxArgvLength) :
    parseToken tokens next b = some { b₁.complete next with j := b₁.j + 1 } := by
  simp only [parseToken, hread, finish, ht, Option.bind_eq_bind, Option.bind_some, if_pos hend,
    storeArg, if_pos hargs]
  rfl

theorem add_j (b : Build) (i : Item) : (b.add i).j = b.j + i.tokens.length := by
  cases i <;> rfl

/-- An item in front of other tokens. -/
theorem parseToken_go (h : tokens = pre ++ (i.tokens ++ suf)) (hsuf : suf ≠ []) (hj : b.j = pre.length)
    (hi : IsWord i.text) (hcaught : b.caught = false) (hargs : b.args.length < maxArgvLength) :
    parseToken tokens next b = some (b.add i) := by
  obtain ⟨b₁, hread, ht, hadd, hc⟩ := readToken_item h hj hi hargs
  have hlen : b₁.j + 2 ≤ tokens.length := by
    have hpos : 0 < suf.length := List.length_pos_iff.mpr hsuf
    have hj₁ : b₁.j + 1 = b.j + i.tokens.length := (congrArg Build.j hadd).trans (add_j b i)
    rw [h]
    simp only [List.length_append]
    omega
  have hcaught₁ : b₁.caught = false := by
    cases hb : b₁.caught with
    | false => rfl
    | true =>
      rcases hc hb with hb' | hlt
      · rw [hcaught] at hb'
        cases hb'
      · omega
  rw [parseToken_of_go hread ht (hi.ne_sign rfl) hlen hcaught₁, ← hadd, hcaught, ← hcaught₁]

/-- The item that ends the command line. -/
theorem parseToken_last (h : tokens = pre ++ i.tokens) (hj : b.j = pre.length) (hi : IsWord i.text)
    (hargs : b.args.length + 1 < maxArgvLength) :
    parseToken tokens next b = some ((b.add i).complete next) := by
  have h' : tokens = pre ++ (i.tokens ++ []) := by simpa using h
  obtain ⟨b₁, hread, ht, hadd, -⟩ := readToken_item h' hj hi (Nat.lt_of_succ_lt hargs)
  have hlen : tokens.length < b₁.j + 2 := by
    have hj₁ : b₁.j + 1 = b.j + i.tokens.length := (congrArg Build.j hadd).trans (add_j b i)
    rw [h]
    simp only [List.length_append]
    omega
  have hargs₁ : b₁.args.length < maxArgvLength := by
    have heq : b₁.args = (b.add i).args := by rw [← hadd]
    rw [heq]
    cases i with
    | word w => simpa [Build.add] using hargs
    | input w => exact Nat.lt_of_succ_lt hargs
    | output w => exact Nat.lt_of_succ_lt hargs
  rw [parseToken_of_end hread ht (.inr (.inl hlen)) hargs₁, ← hadd]
  rfl

/-- A `|`, or a `&` at the end. -/
theorem parseToken_separator (h : tokens = pre ++ t :: suf) (hj : b.j = pre.length)
    (ht : t = ['|'] ∨ t = ['&'] ∧ suf = []) (hargs : b.args.length < maxArgvLength) :
    parseToken tokens next b = some { b.complete next with j := b.j + 1 } := by
  have hget : tokens[b.j]? = some t := getElem?_of_append h hj
  have hread : readToken tokens b = some b := by
    rcases ht with rfl | ⟨rfl, -⟩ <;> simp [readToken, hget]
  refine parseToken_of_end hread hget ?_ hargs
  rcases ht with rfl | ⟨-, rfl⟩
  · exact .inl rfl
  · refine .inr (.inl ?_)
    rw [h, hj]
    simp

/-! ### One command -/

theorem foldl_add (items : List Item) (b : Build) :
    items.foldl Build.add b =
      { b with
        j := b.j + (items.flatMap Item.tokens).length
        args := b.args ++ (words items).map some
        redirectIn := (lastInput items).or b.redirectIn
        redirectOut := (lastOutput items).or b.redirectOut } := by
  induction items generalizing b with
  | nil => simp [words, lastInput, lastOutput]
  | cons i items ih =>
    have hlen : b.j + ((i :: items).flatMap Item.tokens).length =
        (b.add i).j + (items.flatMap Item.tokens).length := by
      rw [add_j, List.flatMap_cons, List.length_append, Nat.add_assoc]
    rw [List.foldl_cons, ih, hlen]
    cases i <;> simp [Build.add, words, lastInput, lastOutput, List.getLast?_cons]

theorem parseCommand_done (h : b.cmd ≠ none) (f : Nat) : parseCommand tokens next f b = some b := by
  cases f with
  | zero => rfl
  | succ f => simp [parseCommand, h]

theorem parseCommand_step (hnone : b.cmd = none) (hj : b.j < tokens.length)
    (hb : parseToken tokens next b = some b') :
    parseCommand tokens next (f + 1) b = parseCommand tokens next f b' := by
  simp [parseCommand, hnone, hj, hb]

/-- The items of a command, in front of other tokens. -/
theorem parseCommand_items (h : tokens = pre ++ (items.flatMap Item.tokens ++ suf)) (hsuf : suf ≠ [])
    (hj : b.j = pre.length) (hitems : ∀ i ∈ items, IsWord i.text) (hnone : b.cmd = none)
    (hcaught : b.caught = false) (hargs : b.args.length + (words items).length < maxArgvLength) :
    parseCommand tokens next (items.length + f) b =
      parseCommand tokens next f (items.foldl Build.add b) := by
  induction items generalizing b pre with
  | nil => simp
  | cons i items ih =>
    have h' : tokens = pre ++ (i.tokens ++ (items.flatMap Item.tokens ++ suf)) := by
      rw [h, List.flatMap_cons, List.append_assoc]
    have hpos : 0 < suf.length := List.length_pos_iff.mpr hsuf
    have hlt : b.j < tokens.length := by
      rw [h, hj]
      simp only [List.length_append]
      omega
    have hargs' : (b.add i).args.length + (words items).length < maxArgvLength := by
      cases i <;> simp [Build.add, words] at hargs ⊢ <;> omega
    have hstep : parseToken tokens next b = some (b.add i) :=
      parseToken_go h' (by simp [hsuf]) hj (hitems i List.mem_cons_self) hcaught (by omega)
    have hkeep : (b.add i).cmd = none ∧ (b.add i).caught = false := by
      cases i <;> exact ⟨hnone, hcaught⟩
    have h'' : tokens = (pre ++ i.tokens) ++ (items.flatMap Item.tokens ++ suf) := by
      rw [h', List.append_assoc]
    rw [List.length_cons, Nat.add_right_comm, parseCommand_step hnone hlt hstep, List.foldl_cons]
    refine ih h'' ?_ (fun j hj => hitems j (List.mem_cons_of_mem i hj)) hkeep.1 hkeep.2 hargs'
    rw [add_j, hj, List.length_append]

/-- The state behind a command, with the index at `j`. -/
def Build.after (items : List Item) (next : Option Nat) (j : Nat) : Build :=
  ⟨j, false, [], lastInput items, lastOutput items, some (commandOf items next)⟩

theorem complete_foldl_add (items : List Item) (j : Nat) (next : Option Nat) (j' : Nat) :
    { (items.foldl Build.add ⟨j, false, [], none, none, none⟩).complete next with j := j' } =
      Build.after items next j' := by
  simp [foldl_add, Build.complete, Build.after, commandOf]

/-- A command that is followed by a `|`, or by the `&` at the end. -/
theorem parseCommand_separated (h : tokens = pre ++ (items.flatMap Item.tokens ++ t :: suf))
    (ht : t = ['|'] ∨ t = ['&'] ∧ suf = []) (hitems : ∀ i ∈ items, IsWord i.text)
    (hargs : (words items).length < maxArgvLength) (hf : items.length < f) :
    parseCommand tokens next f ⟨pre.length, false, [], none, none, none⟩ =
      some (Build.after items next (pre.length + (items.flatMap Item.tokens).length + 1)) := by
  obtain ⟨f, rfl⟩ := Nat.exists_eq_add_of_lt hf
  let b : Build := ⟨pre.length, false, [], none, none, none⟩
  have hb : items.foldl Build.add b = _ := foldl_add items b
  have hj : (items.foldl Build.add b).j = (pre ++ items.flatMap Item.tokens).length := by
    rw [hb, List.length_append]
  have h' : tokens = (pre ++ items.flatMap Item.tokens) ++ t :: suf := by
    rw [h, List.append_assoc]
  have hlt : (items.foldl Build.add b).j < tokens.length := by
    rw [hj, h']
    simp only [List.length_append, List.length_cons]
    omega
  have hstep : parseToken tokens next (items.foldl Build.add b) = _ :=
    parseToken_separator h' hj ht (by rw [hb]; simpa [b] using hargs)
  rw [Nat.add_assoc, parseCommand_items h (by simp) rfl hitems rfl rfl (by simpa using hargs),
    parseCommand_step (by rw [hb]) hlt hstep, parseCommand_done (by simp [Build.complete])]
  rw [complete_foldl_add, hj, List.length_append]

/-- The command at the end of the command line. -/
theorem parseCommand_last (h : tokens = pre ++ items.flatMap Item.tokens) (hne : items ≠ [])
    (hitems : ∀ i ∈ items, IsWord i.text) (hargs : (words items).length + 1 < maxArgvLength)
    (hf : items.length < f) :
    ∃ j, parseCommand tokens next f ⟨pre.length, false, [], none, none, none⟩ =
      some (Build.after items next j) := by
  obtain ⟨l, i, rfl⟩ : ∃ l i, items = l ++ [i] :=
    ⟨items.dropLast, items.getLast hne, (List.dropLast_concat_getLast hne).symm⟩
  have hwords : (words l).length ≤ (words (l ++ [i])).length := by simp [words]
  have h' : tokens = pre ++ (l.flatMap Item.tokens ++ i.tokens) := by
    rw [h]
    simp
  have hpos : 0 < i.tokens.length := by cases i <;> simp [Item.tokens]
  let b : Build := ⟨pre.length, false, [], none, none, none⟩
  have hb : l.foldl Build.add b = _ := foldl_add l b
  have hj : (l.foldl Build.add b).j = (pre ++ l.flatMap Item.tokens).length := by
    rw [hb, List.length_append]
  have h'' : tokens = (pre ++ l.flatMap Item.tokens) ++ i.tokens := by
    rw [h', List.append_assoc]
  have hlt : (l.foldl Build.add b).j < tokens.length := by
    rw [hj, h'']
    simp only [List.length_append]
    omega
  have hargs' : (l.foldl Build.add b).args.length + 1 < maxArgvLength := by
    rw [hb]
    simp only [b, List.nil_append, List.length_map]
    omega
  have hstep : parseToken tokens next (l.foldl Build.add b) = _ :=
    parseToken_last h'' hj (hitems i (by simp)) hargs'
  obtain ⟨f, rfl⟩ : ∃ f', f = l.length + (f' + 1) := by
    simp only [List.length_append, List.length_cons, List.length_nil] at hf
    exact ⟨f - l.length - 1, by omega⟩
  rw [parseCommand_items h' (List.length_pos_iff.mp hpos) rfl (fun j hj => hitems j (by simp [hj])) rfl rfl
      (by simp only [List.length_nil]; omega),
    parseCommand_step (by rw [hb]) hlt hstep, parseCommand_done (by simp [Build.complete])]
  have hfold : (l.foldl Build.add b).add i = (l ++ [i]).foldl Build.add b := by simp
  exact ⟨_, by rw [hfold]; exact congrArg some (complete_foldl_add (l ++ [i]) _ next _)⟩

/-! ### All commands -/

/-- What the loop over the commands makes of those from `i` on, when there are `n` in all. -/
def commandsFrom (n i : Nat) (cs : List (List Item)) : List (Option PipelineCommand) :=
  cs.mapIdx fun k c => some (commandOf c (if i + k + 1 < n then some (i + k + 1) else none))

theorem commandsFrom_cons (n i : Nat) (c : List Item) (cs : List (List Item)) :
    commandsFrom n i (c :: cs) =
      some (commandOf c (if i + 1 < n then some (i + 1) else none)) :: commandsFrom n (i + 1) cs := by
  simp only [commandsFrom, List.mapIdx_cons, Nat.add_zero]
  congr 2
  funext k c
  rw [show i + (k + 1) + 1 = i + 1 + k + 1 by omega]

theorem length_le_flatMap_tokens (c : List Item) : c.length ≤ (c.flatMap Item.tokens).length := by
  induction c with
  | nil => simp
  | cons i c ih =>
    have hpos : 0 < i.tokens.length := by cases i <;> simp [Item.tokens]
    simp only [List.flatMap_cons, List.length_cons, List.length_append]
    omega

theorem parseCommands_eq {cs : List (List Item)} {n k : Nat} {bg : Bool}
    (h : tokens = pre ++ (pipeTokens cs ++ if bg then [['&']] else [])) (hne : cs ≠ [])
    (hcs : ∀ c ∈ cs, c ≠ [] ∧ ∀ i ∈ c, IsWord i.text)
    (hargs : ∀ c ∈ cs, (words c).length + 1 < maxArgvLength) (hb : b.j = pre.length)
    (hcaught : b.caught = false) (hnone : b.args = []) :
    parseCommands tokens n cs.length k b = some (commandsFrom n k cs) := by
  induction cs generalizing pre b k with
  | nil => exact absurd rfl hne
  | cons c cs ih =>
    obtain ⟨hc, hwords⟩ := hcs c List.mem_cons_self
    have hroom := hargs c List.mem_cons_self
    have hstart : { b with redirectIn := none, redirectOut := none, cmd := none } =
        (⟨pre.length, false, [], none, none, none⟩ : Build) := by
      rw [hcaught, hnone, hb]
    have hlen := length_le_flatMap_tokens c
    cases cs with
    | nil =>
      -- the last command, with or without a `&` behind it
      rw [pipeTokens] at h
      obtain ⟨j, hj⟩ : ∃ j, parseCommand tokens (if k + 1 < n then some (k + 1) else none)
          (tokens.length + 1) ⟨pre.length, false, [], none, none, none⟩ =
            some (Build.after c (if k + 1 < n then some (k + 1) else none) j) := by
        have hfuel : c.length < tokens.length + 1 := by
          rw [h]
          simp only [List.length_append]
          omega
        cases bg with
        | true =>
          exact ⟨_, parseCommand_separated h (.inr ⟨rfl, rfl⟩) hwords (Nat.lt_of_succ_lt hroom) hfuel⟩
        | false => exact parseCommand_last (by simpa using h) hc hwords hroom hfuel
      rw [commandsFrom_cons]
      simp only [List.length_cons, List.length_nil, parseCommands, hstart, hj, Option.bind_eq_bind,
        Option.bind_some]
      rfl
    | cons c' cs =>
      have h' : tokens = pre ++ (c.flatMap Item.tokens ++ ['|'] ::
          (pipeTokens (c' :: cs) ++ if bg then [['&']] else [])) := by
        rw [h, pipeTokens]
        · simp only [List.append_assoc, List.cons_append]
        · simp
      have hfuel : c.length < tokens.length + 1 := by
        rw [h']
        simp only [List.length_append]
        omega
      have hj : parseCommand tokens (if k + 1 < n then some (k + 1) else none) (tokens.length + 1)
          ⟨pre.length, false, [], none, none, none⟩ = some _ :=
        parseCommand_separated h' (.inl rfl) hwords (Nat.lt_of_succ_lt hroom) hfuel
      have h'' : tokens = (pre ++ c.flatMap Item.tokens ++ [['|']]) ++
          (pipeTokens (c' :: cs) ++ if bg then [['&']] else []) := by
        rw [h']
        simp
      have hrest : parseCommands tokens n (c' :: cs).length (k + 1)
          (Build.after c (if k + 1 < n then some (k + 1) else none)
            (pre.length + (c.flatMap Item.tokens).length + 1)) = some (commandsFrom n (k + 1) (c' :: cs)) :=
        ih h'' (by simp) (fun d hd => hcs d (List.mem_cons_of_mem c hd))
          (fun d hd => hargs d (List.mem_cons_of_mem c hd)) (by simp [Build.after, Nat.add_assoc]) rfl rfl
      rw [commandsFrom_cons, List.length_cons]
      simp only [parseCommands, hstart, hj, Option.bind_eq_bind, Option.bind_some, hrest]
      rfl

/-! ### The tokens of a pipeline -/

theorem pipeTokens_cons (c : List Item) {cs : List (List Item)} (hcs : cs ≠ []) :
    pipeTokens (c :: cs) = c.flatMap Item.tokens ++ ['|'] :: pipeTokens cs := by
  cases cs with
  | nil => exact absurd rfl hcs
  | cons c' cs => rfl

theorem isWord_or_isSign_item (hi : IsWord i.text) (ht : t ∈ i.tokens) : IsWord t ∨ IsSign t := by
  cases i with
  | word w =>
    obtain rfl : t = w := by simpa [Item.tokens] using ht
    exact .inl hi
  | input w =>
    rcases List.mem_cons.mp ht with rfl | ht
    · exact .inr ⟨'<', rfl, rfl⟩
    · obtain rfl : t = w := by simpa using ht
      exact .inl hi
  | output w =>
    rcases List.mem_cons.mp ht with rfl | ht
    · exact .inr ⟨'>', rfl, rfl⟩
    · obtain rfl : t = w := by simpa using ht
      exact .inl hi

theorem isWord_or_isSign_pipe {cs : List (List Item)} (hcs : ∀ c ∈ cs, ∀ i ∈ c, IsWord i.text)
    (ht : t ∈ pipeTokens cs) : IsWord t ∨ IsSign t := by
  induction cs with
  | nil => cases ht
  | cons c cs ih =>
    have hitems : ∀ t ∈ c.flatMap Item.tokens, IsWord t ∨ IsSign t := by
      intro t ht
      obtain ⟨i, hi, hti⟩ := List.mem_flatMap.mp ht
      exact isWord_or_isSign_item (hcs c List.mem_cons_self i hi) hti
    by_cases hne : cs = []
    · subst hne
      exact hitems t ht
    · rw [pipeTokens_cons c hne] at ht
      rcases List.mem_append.mp ht with ht | ht
      · exact hitems t ht
      · rcases List.mem_cons.mp ht with rfl | ht
        · exact .inr ⟨'|', rfl, rfl⟩
        · exact ih (fun d hd => hcs d (List.mem_cons_of_mem c hd)) ht

theorem Line.WellFormed.isWord_or_isSign (hp : p.WellFormed) (ht : t ∈ p.tokens) :
    IsWord t ∨ IsSign t := by
  rcases List.mem_append.mp ht with ht | ht
  · exact isWord_or_isSign_pipe (fun c hc => (hp.2 c hc).2) ht
  · split at ht
    · obtain rfl : t = ['&'] := by simpa using ht
      exact .inr ⟨'&', rfl, rfl⟩
    · cases ht

/-- The words of a command are among the tokens. -/
theorem words_length_le (hitems : ∀ i ∈ items, IsWord i.text) :
    (words items).length ≤ wordCount (items.flatMap Item.tokens) := by
  induction items with
  | nil => simp [words]
  | cons i items ih =>
    have hle := ih fun j hj => hitems j (List.mem_cons_of_mem i hj)
    have hi := hitems i List.mem_cons_self
    simp only [wordCount, List.flatMap_cons, List.countP_append] at hle ⊢
    cases i with
    | word w =>
      have hw : IsWord w := hi
      simp only [words, List.filterMap_cons, List.length_cons, Item.tokens, List.countP_singleton, hw,
        decide_true, if_true] at hle ⊢
      omega
    | input w =>
      simp only [words, List.filterMap_cons] at hle ⊢
      omega
    | output w =>
      simp only [words, List.filterMap_cons] at hle ⊢
      omega

theorem wordCount_le_pipeTokens {cs : List (List Item)} {c : List Item} (hc : c ∈ cs) :
    wordCount (c.flatMap Item.tokens) ≤ wordCount (pipeTokens cs) := by
  induction cs with
  | nil => cases hc
  | cons d cs ih =>
    by_cases hne : cs = []
    · subst hne
      obtain rfl : c = d := by simpa using hc
      exact Nat.le_refl _
    · rw [pipeTokens_cons d hne]
      simp only [wordCount, List.countP_append, List.countP_cons] at ih ⊢
      rcases List.mem_cons.mp hc with rfl | hc
      · omega
      · have := ih hc
        omega

theorem count_pipe_items (hitems : ∀ i ∈ items, IsWord i.text) :
    (items.flatMap Item.tokens).count ['|'] = 0 := by
  refine List.count_eq_zero.mpr fun hmem => ?_
  obtain ⟨i, hi, ht⟩ := List.mem_flatMap.mp hmem
  have hne := (hitems i hi).ne_sign (c := '|') rfl
  cases i with
  | word w => exact hne (by simpa [Item.tokens, Item.text, eq_comm] using ht)
  | input w => exact hne (by simpa [Item.tokens, Item.text, eq_comm] using ht)
  | output w => exact hne (by simpa [Item.tokens, Item.text, eq_comm] using ht)

/-- There is one `|` less than there are commands. -/
theorem count_pipe {cs : List (List Item)} (hne : cs ≠ []) (hcs : ∀ c ∈ cs, ∀ i ∈ c, IsWord i.text) :
    1 + (pipeTokens cs).count ['|'] = cs.length := by
  induction cs with
  | nil => exact absurd rfl hne
  | cons c cs ih =>
    have hc := count_pipe_items (hcs c List.mem_cons_self)
    by_cases hnil : cs = []
    · subst hnil
      simpa [pipeTokens] using hc
    · have hrest := ih hnil fun d hd => hcs d (List.mem_cons_of_mem c hd)
      rw [pipeTokens_cons c hnil, List.count_append, hc, List.count_cons_self, List.length_cons]
      omega

/-- The last token of the commands is a word. -/
theorem getLast?_pipeTokens {cs : List (List Item)} (hne : cs ≠ [])
    (hcs : ∀ c ∈ cs, c ≠ [] ∧ ∀ i ∈ c, IsWord i.text) :
    ∃ w, (pipeTokens cs).getLast? = some w ∧ IsWord w := by
  induction cs with
  | nil => exact absurd rfl hne
  | cons c cs ih =>
    by_cases hnil : cs = []
    · subst hnil
      obtain ⟨hc, hitems⟩ := hcs c List.mem_cons_self
      obtain ⟨l, i, rfl⟩ : ∃ l i, c = l ++ [i] :=
        ⟨c.dropLast, c.getLast hc, (List.dropLast_concat_getLast hc).symm⟩
      refine ⟨i.text, ?_, hitems i (by simp)⟩
      cases i <;> simp [pipeTokens, Item.tokens, Item.text, List.getLast?_append]
    · obtain ⟨w, hlast, hw⟩ := ih hnil fun d hd => hcs d (List.mem_cons_of_mem c hd)
      refine ⟨w, ?_, hw⟩
      rw [pipeTokens_cons c hnil, List.getLast?_append, List.getLast?_cons, hlast]
      simp

theorem Line.WellFormed.getLast? (hp : p.WellFormed) :
    ∃ t, p.tokens.getLast? = some t ∧ decide (t = ['&']) = p.background := by
  obtain ⟨w, hlast, hw⟩ := getLast?_pipeTokens hp.1 hp.2
  have hne : w ≠ ['&'] := hw.ne_sign rfl
  cases hbg : p.background with
  | true => exact ⟨['&'], by simp [Line.tokens, hbg], by simp⟩
  | false => exact ⟨w, by simpa [Line.tokens, hbg] using hlast, by simpa using hne⟩

/-! ### The parser -/

/-- **The parser inverts rendering**: a command line of less than `MAX_LINE_LENGTH` bytes that spells a
pipeline is parsed as this pipeline. -/
theorem pipelineBuild_render (p : Line) (hp : p.WellFormed) (gap line : List Char) (hgap : Blank gap)
    (h : Renders p.tokens line) (hlen : (gap ++ line).length < maxLineLength) :
    pipelineBuild (gap ++ line) = some (p.commands.length, pipelineOf p) := by
  have hline : line.length < 512 := by
    have hlen' : gap.length + line.length < 512 := by simpa [maxLineLength] using hlen
    omega
  have htoks := fun t ht => hp.isWord_or_isSign (t := t) ht
  have htokens : findTokens (gap ++ line) = p.tokens := h.findTokens htoks hgap
  have hroom : ¬ maxTokens < p.tokens.length := by
    have hle := h.length_le htoks
    have hmax : maxTokens = 16448 := rfl
    omega
  have hargs : ∀ c ∈ p.commands, (words c).length + 1 < maxArgvLength := by
    intro c hc
    have h₁ := words_length_le (hp.2 c hc).2
    have h₂ := wordCount_le_pipeTokens hc
    have h₃ : wordCount (pipeTokens p.commands) ≤ wordCount p.tokens := by
      simp only [Line.tokens, wordCount, List.countP_append]
      omega
    have h₄ := h.two_mul_words_le htoks
    have hmax : maxArgvLength = 257 := rfl
    omega
  have hnum : findNumCmds p.tokens = p.commands.length := by
    have hcount := count_pipe hp.1 fun c hc => (hp.2 c hc).2
    have hamp : (if p.background then [['&']] else []).count (['|'] : Token) = 0 := by
      split <;> decide
    rw [findNumCmds, Line.tokens, List.count_append, hamp, Nat.add_zero]
    exact hcount
  have hparse : parseCommands p.tokens p.commands.length p.commands.length 0
      ⟨0, false, [], none, none, none⟩ = some (pipelineOf p).commands := by
    have heq : (pipelineOf p).commands = commandsFrom p.commands.length 0 p.commands := by
      simp only [pipelineOf, commandsFrom, Nat.zero_add]
    rw [heq]
    exact parseCommands_eq (List.nil_append _).symm hp.1 hp.2 hargs rfl rfl rfl
  obtain ⟨t, hlast, hbg⟩ := hp.getLast?
  have hlast' : p.tokens[p.tokens.length - 1]? = some t := by
    rw [← List.getLast?_eq_getElem?]
    exact hlast
  simp only [pipelineBuild, buildTokens, htokens, if_neg hroom, hnum, hparse, hlast', hbg, Option.bind_eq_bind,
    Option.bind_some]
  rfl

/-- `ls >out|wc -l &`, with a tab in front. -/
theorem pipelineBuild_render_count :
    pipelineBuild ['\t', 'l', 's', ' ', '>', 'o', 'u', 't', '|', 'w', 'c', ' ', '-', 'l', ' ', '&', '\n'] =
      some (2, ⟨[some ⟨[some ['l', 's'], none], none, some ['o', 'u', 't'], some 1⟩,
        some ⟨[some ['w', 'c'], some ['-', 'l'], none], none, none, none⟩], true⟩) :=
  pipelineBuild_render
    ⟨[[.word ['l', 's'], .output ['o', 'u', 't']], [.word ['w', 'c'], .word ['-', 'l']]], true⟩ (by decide)
    ['\t'] ['l', 's', ' ', '>', 'o', 'u', 't', '|', 'w', 'c', ' ', '-', 'l', ' ', '&', '\n'] (by decide)
    (@Renders.cons ['l', 's'] [' '] _ _ (by decide) (by decide)
      (@Renders.cons ['>'] [] _ _ (by decide) (by decide)
        (@Renders.cons ['o', 'u', 't'] [] _ _ (by decide) (by decide)
          (@Renders.cons ['|'] [] _ _ (by decide) (by decide)
            (@Renders.cons ['w', 'c'] [' '] _ _ (by decide) (by decide)
              (@Renders.cons ['-', 'l'] [' '] _ _ (by decide) (by decide)
                (@Renders.cons ['&'] [] _ _ (by decide) (by decide)
                  (@Renders.nil [] (by decide)))))))))
    (by decide)

end EC440.SimpleShell
