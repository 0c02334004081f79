import EC440.SimpleShell.Commands
import EC440.SimpleShell.Lexer

/-!
# The memory behind the tokens

`find_tokens` allocates as many bytes for a token as it copies, and writes no zero behind them.  So a token
goes on with the memory behind the allocation when it is read as a C string, and what `pipeline_build` returns
depends on it for every command line (`not_independent`).
-/

namespace EC440.SimpleShell

variable {t : Token} {line g : List Char} {tokens : List Token} {n : Nat} {p : Pipeline}

/-- The result is the same for any two contents of the heap. -/
def Independent (line : List Char) : Prop :=
  ∀ heap₁ heap₂, ∃ r, pipelineBuildIn heap₁ line = some r ∧ pipelineBuildIn heap₂ line = some r

/-! ### Reading a token -/

theorem cString_append (ht : Char.ofNat 0 ∉ t) (g : List Char) : cString (t ++ g) = t ++ cString g := by
  refine List.takeWhile_append_of_pos fun c hc => ?_
  simp only [ne_eq, decide_eq_true_eq]
  rintro rfl
  exact ht hc

theorem cString_of_not_mem (h : Char.ofNat 0 ∉ g) : cString g = g := by
  have happ := cString_append h []
  rwa [List.append_nil, show cString [] = [] from rfl, List.append_nil] at happ

theorem cString_zeroed (hg : ∀ c ∈ g, c = Char.ofNat 0) : cString g = [] := by
  cases g with
  | nil => rfl
  | cons c g => simp [cString, hg c List.mem_cons_self]

/-- The tokens are made of characters of the line. -/
theorem mem_line_of_mem_token {c : Char} (ht : t ∈ findTokens line) (hc : c ∈ t) : c ∈ line := by
  have htext := (scanned_scan line).text
  have hmem : c ∈ (scan line).tokens.flatten := List.mem_flatten.mpr ⟨t, ht, hc⟩
  have hmem' : c ∈ unblanked line := htext ▸ List.mem_append_left _ hmem
  exact (List.mem_filter.mp hmem').1

theorem not_mem_token (hline : Char.ofNat 0 ∉ line) (ht : t ∈ findTokens line) : Char.ofNat 0 ∉ t :=
  fun hc => hline (mem_line_of_mem_token ht hc)

theorem ne_nil_of_mem_findTokens (ht : t ∈ findTokens line) : t ≠ [] := by
  rcases (scanned_scan line).runs t ht with ⟨c, -, rfl⟩ | hrun
  · exact List.cons_ne_nil c []
  · exact hrun.1

theorem length_tokensIn (heap : Nat → List Char) (line : List Char) :
    (tokensIn heap line).length = (findTokens line).length := by
  rw [tokensIn, List.length_mapIdx]

/-- A token goes on with the memory behind it. -/
theorem getElem?_tokensIn (heap : Nat → List Char) (hline : Char.ofNat 0 ∉ line) (j : Nat) :
    (tokensIn heap line)[j]? =
      (findTokens line)[j]?.map fun t => t ++ cString ((heap j).drop t.length) := by
  rw [tokensIn, List.getElem?_mapIdx]
  cases hj : (findTokens line)[j]? with
  | none => rfl
  | some t =>
    have ht := not_mem_token hline (List.mem_of_getElem? hj)
    rw [Option.map_some, Option.map_some, memcpy, cString_append ht]

/-- On a heap of zeros the tokens are the ones that were found. -/
theorem tokensIn_zeroed {heap : Nat → List Char} (hheap : ∀ j, ∀ c ∈ heap j, c = Char.ofNat 0)
    (hline : Char.ofNat 0 ∉ line) : tokensIn heap line = findTokens line := by
  refine List.ext_getElem? fun j => ?_
  rw [getElem?_tokensIn heap hline]
  cases (findTokens line)[j]? with
  | none => rfl
  | some t =>
    have hzero : cString ((heap j).drop t.length) = [] :=
      cString_zeroed fun c hc => hheap j c (List.mem_of_mem_drop hc)
    rw [Option.map_some, hzero, List.append_nil]

theorem pipelineBuildIn_zeroed {heap : Nat → List Char} (hheap : ∀ j, ∀ c ∈ heap j, c = Char.ofNat 0)
    (hline : Char.ofNat 0 ∉ line) : pipelineBuildIn heap line = pipelineBuild line := by
  rw [pipelineBuildIn, tokensIn_zeroed hheap hline, pipelineBuild]

/-- No other token is read as a sign of one character. -/
theorem eq_of_append_eq_singleton {c : Char} (ht : t ≠ []) (h : t ++ g = [c]) : t = [c] := by
  obtain ⟨rfl, rfl⟩ | ⟨rfl, rfl⟩ := List.append_eq_singleton_iff.mp h
  · exact absurd rfl ht
  · rfl

theorem getLast?_tokensIn_ne (heap : Nat → List Char) (hline : Char.ofNat 0 ∉ line) {c : Char}
    (hlast : (findTokens line).getLast? ≠ some [c]) : (tokensIn heap line).getLast? ≠ some [c] := by
  rw [List.getLast?_eq_getElem?, getElem?_tokensIn heap hline, length_tokensIn,
    ← List.getLast?_eq_getElem?]
  intro h
  obtain ⟨t, ht, heq⟩ := Option.map_eq_some_iff.mp h
  have hne := ne_nil_of_mem_findTokens (List.mem_of_getLast? ht)
  exact hlast (by rw [ht, eq_of_append_eq_singleton hne heq])

/-! ### The last token -/

/-- All arguments and paths. -/
def Pipeline.texts (p : Pipeline) : List Token := p.commands.flatMap fun c => c.elim [] PipelineCommand.texts

theorem mem_texts_of_buildTokens (h : buildTokens tokens = some (n, p)) (hlast : tokens.getLast? = some t)
    (hlen : 2 ≤ t.length) : t ∈ p.texts := by
  obtain ⟨hne, -, hparsed⟩ := buildTokens_parsed h
  have hpipe : t ≠ ['|'] := by
    rintro rfl
    simp at hlen
  have hamp : t ≠ ['&'] := by
    rintro rfl
    simp at hlen
  obtain ⟨c, hc, ht⟩ := hparsed.mentions (List.length_pos_iff.mpr hne) hlast hpipe hamp
  exact List.mem_flatMap.mpr ⟨some c, hc, ht⟩

/-- The heap with `g` behind each token. -/
def garbage (line g : List Char) (j : Nat) : List Char := (findTokens line)[j]?.getD [] ++ g

theorem tokensIn_garbage (hline : Char.ofNat 0 ∉ line) (hg : Char.ofNat 0 ∉ g) :
    tokensIn (garbage line g) line = (findTokens line).map (· ++ g) := by
  refine List.ext_getElem? fun j => ?_
  rw [getElem?_tokensIn _ hline, List.getElem?_map]
  cases hj : (findTokens line)[j]? with
  | none => rfl
  | some t =>
    simp only [Option.map_some, garbage, hj, Option.getD_some, List.drop_left]
    rw [cString_of_not_mem hg]

/-- **The heap shows**: whatever the command line is, the result of `pipeline_build` depends on the memory
behind the tokens. -/
theorem not_independent (line : List Char) (hline : Char.ofNat 0 ∉ line) : ¬ Independent line := by
  intro h
  obtain ⟨⟨n, p⟩, hr, -⟩ := h (garbage line []) (garbage line [])
  -- more characters than there are in the whole result
  let g := List.replicate (p.texts.flatten.length + 2) 'x'
  have hg : Char.ofNat 0 ∉ g := by
    intro hmem
    have hx := List.eq_of_mem_replicate hmem
    revert hx
    decide
  obtain ⟨r, hr₁, hr₂⟩ := h (garbage line []) (garbage line g)
  obtain rfl : (n, p) = r := Option.some.inj (hr.symm.trans hr₁)
  rw [pipelineBuildIn, tokensIn_garbage hline hg] at hr₂
  have hne : (findTokens line).map (· ++ g) ≠ [] := (buildTokens_parsed hr₂).1
  obtain ⟨t, hlast⟩ : ∃ t, (findTokens line).getLast? = some t :=
    ⟨_, List.getLast?_eq_some_getLast fun hnil => hne (by rw [hnil]; rfl)⟩
  have hlast' : ((findTokens line).map (· ++ g)).getLast? = some (t ++ g) := by
    rw [List.getLast?_map, hlast]
    rfl
  have hlen : (t ++ g).length = t.length + (p.texts.flatten.length + 2) := by
    rw [List.length_append, List.length_replicate]
  have hmem : t ++ g ∈ p.texts := mem_texts_of_buildTokens hr₂ hlast' (by omega)
  have hle := (List.sublist_flatten_of_mem hmem).length_le
  omega

/-- The command line `ls`. -/
theorem not_independent_ls : ¬ Independent ['l', 's', '\n'] :=
  not_independent ['l', 's', '\n'] (by decide)

/-- The name of the command goes on with the memory behind it. -/
theorem ls_reads_heap :
    pipelineBuildIn (fun _ => []) ['l', 's', '\n'] ≠
      pipelineBuildIn (fun _ => ['?', '?', 'o', 'f']) ['l', 's', '\n'] := by decide

end EC440.SimpleShell
