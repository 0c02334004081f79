import EC440.SimpleShell.Room
import Mathlib.Data.List.DropRight

/-!
# Which command lines give a well-formed pipeline

The number of commands is one more than the number of `|`, and each `|` ends a command, so the last command is
missing when nothing follows the last `|`.  Without any token, `pipeline_build` reads in front of the array.
And where there may be more arguments than `command_args` has room for, nothing is sure (`Room.lean`).  Every
other line gives a well-formed pipeline, whatever is on the heap (`wellFormed_iff`).
-/

namespace EC440.SimpleShell

variable {t : Token} {tokens : List Token} {line : List Char} {c : Char} {s : Scan}

/-- The elements that are visited from `next` on, up to the `NULL`, in at most `fuel` steps. -/
def follow (commands : List (Option PipelineCommand)) : Nat → Option Nat → Option (List Nat)
  | _, none => some []
  | 0, some _ => none
  | fuel + 1, some i => do
    let c ← commands[i]?.join
    let rest ← follow commands fuel c.next
    some (i :: rest)

/-- No access was outside of the arrays, every command is assigned, and the chain visits all of them. -/
def WellFormedResult (r : Option (Nat × Pipeline)) : Prop :=
  ∃ n p, r = some (n, p) ∧ p.commands.length = n ∧ (∀ c ∈ p.commands, c ≠ none) ∧
    follow p.commands n (some 0) = some (List.range n)

/-- The line gives a well-formed pipeline, whatever is on the heap. -/
def WellFormed (line : List Char) : Prop := ∀ heap, WellFormedResult (pipelineBuildIn heap line)

/-- The line without the word at its end and without the blanks in front of that. -/
def lexed (line : List Char) : List Char := (line.rdropWhile isWordChar).rdropWhile isWhiteSpace

/-- There is a token, and the last one is no `|`. -/
def EndsInCommand (line : List Char) : Prop := ∃ c, (lexed line).getLast? = some c ∧ c ≠ '|'

/-! ### The last token -/

theorem lexed_word (line : List Char) (hc : isWordChar c = true) : lexed (line ++ [c]) = lexed line := by
  rw [lexed, List.rdropWhile_concat_pos _ _ _ hc, lexed]

theorem lexed_sign (line : List Char) (hc : isSpecialToken c = true) : lexed (line ++ [c]) = line ++ [c] := by
  have hword : ¬ isWordChar c = true := by simp [isWordChar_of_isSpecialToken hc]
  have hwhite : ¬ isWhiteSpace c = true := by simp [isWhiteSpace_of_isSpecialToken hc]
  rw [lexed, List.rdropWhile_concat_neg _ _ _ hword, List.rdropWhile_concat_neg _ _ _ hwhite]

theorem lexed_white (line : List Char) (hc : isWhiteSpace c = true) :
    lexed (line ++ [c]) = line.rdropWhile isWhiteSpace := by
  have hword : ¬ isWordChar c = true := by simp [isWordChar_of_isWhiteSpace hc]
  rw [lexed, List.rdropWhile_concat_neg _ _ _ hword, List.rdropWhile_concat_pos _ _ _ hc]

/-- The last character of the last token. -/
def lastChar (tokens : List Token) : Option Char := tokens.getLast?.bind List.getLast?

theorem lastChar_concat (tokens : List Token) (t : Token) : lastChar (tokens ++ [t]) = t.getLast? := by
  simp [lastChar]

/-- A line within a word ends with the last character of it. -/
theorem Scanned.getLast? (h : Scanned line s) (hne : s.token ≠ []) : line.getLast? = s.token.getLast? := by
  obtain ⟨pre, hline, -⟩ := h.start
  rw [hline, List.getLast?_append, List.getLast?_eq_some_getLast hne]
  rfl

theorem rdropWhile_of_getLast? {p : Char → Bool} (h : ∀ c ∈ line.getLast?, p c = false) :
    line.rdropWhile p = line := by
  refine List.rdropWhile_eq_self_iff.mpr fun hne => ?_
  simp [h _ (List.getLast?_eq_some_getLast hne)]

theorem lastChar_tokens (line : List Char) : lastChar (scan line).tokens = (lexed line).getLast? := by
  induction line using List.reverseRecOn with
  | nil => rfl
  | append_singleton line c ih =>
    rw [scan_concat]
    rcases char_cases c with hc | hc | hc
    · rw [scanChar_white _ hc, lexed_white line hc, Scan.flushed]
      split
      · next hnil =>
        rw [ih, lexed, rdropWhile_of_getLast? ((token_eq_nil_iff line).mp hnil)]
      · next hne =>
        -- the line ends with the word that is complete now
        have h := scanned_scan line
        have hlast := h.getLast? hne
        rw [lastChar_concat, rdropWhile_of_getLast?, hlast]
        intro d hd
        rw [hlast] at hd
        exact isWhiteSpace_of_isWordChar (h.word d (List.mem_of_getLast? hd))
    · rw [scanChar_sign _ hc, lexed_sign line hc, lastChar_concat]
      simp
    · rw [scanChar_word _ hc, lexed_word line hc]
      exact ih

theorem endsInCommand_iff (line : List Char) :
    EndsInCommand line ↔ findTokens line ≠ [] ∧ (findTokens line).getLast? ≠ some ['|'] := by
  have hchar : lastChar (findTokens line) = (lexed line).getLast? := lastChar_tokens line
  rw [EndsInCommand, ← hchar]
  cases hlast : (findTokens line).getLast? with
  | none =>
    have hnil : findTokens line = [] := List.getLast?_eq_none_iff.mp hlast
    simp [hnil, lastChar]
  | some t =>
    have hmem : t ∈ findTokens line := List.mem_of_getLast? hlast
    have hne : findTokens line ≠ [] := List.ne_nil_of_mem hmem
    simp only [lastChar, hlast, Option.bind_some]
    constructor
    · rintro ⟨c, hc, hpipe⟩
      refine ⟨hne, fun ht => hpipe ?_⟩
      obtain rfl := Option.some.inj ht
      exact (Option.some.inj hc).symm
    · rintro ⟨-, hpipe⟩
      rcases (scanned_scan line).runs t hmem with ⟨c, -, rfl⟩ | ⟨htne, hword, -⟩
      · exact ⟨c, rfl, fun hc => hpipe (by rw [hc])⟩
      · refine ⟨t.getLast htne, List.getLast?_eq_some_getLast htne, ?_⟩
        intro hc
        have hbar := hword _ (List.getLast_mem htne)
        rw [hc] at hbar
        cases hbar

/-! ### The chain of the commands -/

theorem follow_assigned {cs : List (Option PipelineCommand)} {n : Nat} (hlen : cs.length = n)
    (hsome : ∀ c ∈ cs, c ≠ none)
    (hnext : ∀ m c, cs[m]? = some (some c) → c.next = if m + 1 < n then some (m + 1) else none)
    (k m : Nat) (hm : m + k = n) :
    follow cs k (if m < n then some m else none) = some (List.range' m k) := by
  induction k generalizing m with
  | zero =>
    rw [if_neg (by omega)]
    rfl
  | succ k ih =>
    have hlt : m < cs.length := by omega
    obtain ⟨c, hc⟩ : ∃ c, cs[m] = some c := Option.ne_none_iff_exists'.mp (hsome _ (List.getElem_mem hlt))
    have hget : cs[m]? = some (some c) := by rw [List.getElem?_eq_getElem hlt, hc]
    rw [if_pos (by omega), List.range'_succ]
    simp only [follow, hget, Option.join_some, Option.bind_eq_bind, Option.bind_some, hnext m c hget,
      ih (m + 1) (by omega)]

theorem wellFormedResult_iff (hargs : tokens.countP isOperand + lastSign tokens + 1 ≤ maxArgvLength)
    (hlt : tokens.length < maxTokens) :
    WellFormedResult (buildTokens tokens) ↔ tokens ≠ [] ∧ tokens.getLast? ≠ some ['|'] := by
  rcases buildTokens_cases hargs hlt with ⟨hnil, hnone⟩ | ⟨cs, bg, hne, hbuild, hparsed⟩
  · refine iff_of_false ?_ fun h => h.1 hnil
    rintro ⟨n, p, hsome, -⟩
    rw [hnone] at hsome
    cases hsome
  · have hassigned := hparsed.assigned_iff
    have hlen : cs.length = findNumCmds tokens := by
      rw [hparsed.length, pipesFrom, List.drop_zero, findNumCmds, Nat.add_comm]
    constructor
    · rintro ⟨n, p, hsome, -, hall, -⟩
      obtain ⟨rfl, rfl⟩ := Prod.mk.inj (Option.some.inj (hbuild.symm.trans hsome))
      exact ⟨hne, (hassigned.mp hall).2⟩
    · rintro ⟨-, hlast⟩
      have hall := hassigned.mpr ⟨List.length_pos_iff.mpr hne, hlast⟩
      refine ⟨_, _, hbuild, hlen, hall, ?_⟩
      have hfollow := follow_assigned hlen hall
        (fun m c hc => by simpa using hparsed.next_eq hc) _ 0 (Nat.zero_add _)
      rw [if_pos (by rw [findNumCmds]; omega), ← List.range_eq_range'] at hfollow
      exact hfollow

/-! ### Any heap -/

/-- The tokens are parsed without an access outside of the arrays, and no command is missing. -/
structure Parses (tokens : List Token) : Prop where
  room : tokens.countP isOperand + lastSign tokens + 1 ≤ maxArgvLength
  few : tokens.length < maxTokens
  ne : tokens ≠ []
  last : tokens.getLast? ≠ some ['|']

/-- The line ends in a command, and less than `MAX_ARGV_LENGTH` characters of it end a token. -/
def Parsable (line : List Char) : Prop := EndsInCommand line ∧ tokenEnds line < maxArgvLength

theorem room_of_tokenEnds (h : tokenEnds line < maxArgvLength) (heap : Nat → List Char) :
    (tokensIn heap line).countP isOperand + lastSign (tokensIn heap line) + 1 ≤ maxArgvLength ∧
      (tokensIn heap line).length < maxTokens := by
  have hcount : (tokensIn heap line).length = tokenEnds line := by
    rw [length_tokensIn, length_findTokens]
  refine ⟨room_of_length (hcount ▸ h), ?_⟩
  rw [hcount]
  exact Nat.lt_trans h (by decide)

theorem Parsable.parses (h : Parsable line) (hline : Char.ofNat 0 ∉ line) (heap : Nat → List Char) :
    Parses (tokensIn heap line) := by
  obtain ⟨hne, hlast⟩ := (endsInCommand_iff line).mp h.1
  obtain ⟨hroom, hfew⟩ := room_of_tokenEnds h.2 heap
  refine ⟨hroom, hfew, ?_, getLast?_tokensIn_ne heap hline hlast⟩
  rw [← List.length_pos_iff, length_tokensIn]
  exact List.length_pos_iff.mpr hne

/-- One byte behind each token is enough to leave the array of the arguments. -/
theorem tokenEnds_lt_of_isSome (hline : Char.ofNat 0 ∉ line)
    (h : (pipelineBuildIn (garbage line ['?']) line).isSome) : tokenEnds line < maxArgvLength := by
  by_contra hmany
  obtain ⟨⟨n, p⟩, hbuild⟩ := Option.isSome_iff_exists.mp h
  obtain ⟨hne, hnum, hcommands⟩ := buildTokens_commands hbuild
  have hroom : InRoom (stores (garbage line ['?']) line) := by
    rw [stores, storesOf, ← hnum, ← parseCommands_isSome_iff, hcommands]
    rfl
  have hmem := mem_stores_garbage hline fun hnil => hne (by rw [tokensIn, hnil]; rfl)
  rw [Nat.min_eq_right (Nat.not_lt.mp hmany)] at hmem
  exact Nat.lt_irrefl _ (hroom _ hmem)

/-- Two heaps tell whether a line is parsable: one with a byte behind each token, and one of zeros. -/
theorem parsable_of_last (hline : Char.ofNat 0 ∉ line)
    (hgarbage : (pipelineBuildIn (garbage line ['?']) line).isSome)
    (hlast : tokensIn (fun _ => []) line ≠ [] ∧ (tokensIn (fun _ => []) line).getLast? ≠ some ['|']) :
    Parsable line := by
  rw [tokensIn_zeroed (by simp) hline, ← endsInCommand_iff] at hlast
  exact ⟨hlast, tokenEnds_lt_of_isSome hline hgarbage⟩

/-- **Well-formed pipelines**: a line gives a well-formed pipeline on every heap just when it has a token, the
last one is no `|`, and less than `MAX_ARGV_LENGTH` characters of the line end a token. -/
theorem wellFormed_iff (line : List Char) (hline : Char.ofNat 0 ∉ line) :
    WellFormed line ↔ EndsInCommand line ∧ tokenEnds line < maxArgvLength := by
  constructor
  · intro h
    obtain ⟨n, p, hsome, -⟩ := h (garbage line ['?'])
    have hsome' : (pipelineBuildIn (garbage line ['?']) line).isSome := by
      rw [hsome]
      rfl
    obtain ⟨hroom, hfew⟩ := room_of_tokenEnds (tokenEnds_lt_of_isSome hline hsome') fun _ => []
    exact parsable_of_last hline hsome' ((wellFormedResult_iff hroom hfew).mp (h fun _ => []))
  · intro h heap
    have hparses := Parsable.parses h hline heap
    exact (wellFormedResult_iff hparses.room hparses.few).mpr ⟨hparses.ne, hparses.last⟩

/-- `a > | b`, where the path of the redirection is a `|`. -/
theorem wellFormed_swallowed : WellFormed ['a', '>', '|', 'b', '\n'] :=
  (wellFormed_iff ['a', '>', '|', 'b', '\n'] (by decide)).mpr ⟨⟨'b', by decide, by decide⟩, by decide⟩

/-- The command behind the last `|` of `ls |` is not assigned. -/
theorem wellFormed_false : ¬ WellFormed ['l', 's', ' ', '|', '\n'] := by
  intro h
  obtain ⟨n, p, hsome, -, hall, -⟩ := h fun _ => []
  have hbuild : pipelineBuildIn (fun _ => []) ['l', 's', ' ', '|', '\n'] =
      some (2, ⟨[some ⟨[some ['l', 's'], none], none, none, some 1⟩, none], false⟩) := by decide
  obtain ⟨-, rfl⟩ := Prod.mk.inj (Option.some.inj (hbuild.symm.trans hsome))
  exact hall none (by decide) rfl

end EC440.SimpleShell
