import EC440.SimpleShell.Render
import Mathlib.Data.List.Induction

/-!
# What the lexer loses

After each character, the tokens and the word that is being read are together the characters read so far
without the blanks (`Scanned`).  `find_tokens` returns the tokens only: a word at the very end of the command
line is lost, and nothing else is (`losesNothing_iff`).
-/

namespace EC440.SimpleShell

variable {t : Token} {line : List Char} {c : Char} {s : Scan}

/-- A character that is neither blank nor special. -/
def isWordChar (c : Char) : Bool := !isWhiteSpace c && !isSpecialToken c

def unblanked (line : List Char) : List Char := line.filter fun c => !isWhiteSpace c

/-- A run of word characters in the line, with no word character on either side of it. -/
def MaximalRun (line : List Char) (t : Token) : Prop :=
  t ≠ [] ∧ (∀ c ∈ t, isWordChar c = true) ∧
    ∃ pre post, line = pre ++ t ++ post ∧ (∀ c ∈ pre.getLast?, isWordChar c = false) ∧
      ∀ c ∈ post.head?, isWordChar c = false

/-- The tokens are the line without its blanks, cut into signs and words. -/
def LosesNothing (line : List Char) : Prop :=
  (findTokens line).flatten = unblanked line ∧ ∀ t ∈ findTokens line, IsSign t ∨ MaximalRun line t

/-- The line is empty, or its last character is blank or special. -/
def EndsOutsideWord (line : List Char) : Prop := ∀ c ∈ line.getLast?, isWordChar c = false

/-! ### The kinds of characters -/

theorem char_cases (c : Char) :
    isWhiteSpace c = true ∨ isSpecialToken c = true ∨ isWordChar c = true := by
  cases hw : isWhiteSpace c with
  | true => exact .inl rfl
  | false =>
    cases hs : isSpecialToken c with
    | true => exact .inr (.inl rfl)
    | false => exact .inr (.inr (by simp [isWordChar, hw, hs]))

theorem isWhiteSpace_of_isWordChar (h : isWordChar c = true) : isWhiteSpace c = false := by
  cases hw : isWhiteSpace c with
  | true => simp [isWordChar, hw] at h
  | false => rfl

theorem isSpecialToken_of_isWordChar (h : isWordChar c = true) : isSpecialToken c = false := by
  cases hs : isSpecialToken c with
  | true => simp [isWordChar, hs] at h
  | false => rfl

theorem isWordChar_of_isWhiteSpace (h : isWhiteSpace c = true) : isWordChar c = false := by
  simp [isWordChar, h]

theorem isWordChar_of_isSpecialToken (h : isSpecialToken c = true) : isWordChar c = false := by
  simp [isWordChar, h]

theorem scanChar_word (s : Scan) (h : isWordChar c = true) : scanChar s c = ⟨s.tokens, s.token ++ [c]⟩ := by
  simp [scanChar, isWhiteSpace_of_isWordChar h, isSpecialToken_of_isWordChar h]

theorem flushed_flatten (s : Scan) : s.flushed.flatten = s.tokens.flatten ++ s.token := by
  rw [Scan.flushed]
  split
  · next h => rw [h, List.append_nil]
  · simp

theorem mem_flushed (h : t ∈ s.flushed) : t ∈ s.tokens ∨ t = s.token ∧ s.token ≠ [] := by
  rw [Scan.flushed] at h
  split at h
  · exact .inl h
  · next hne =>
    rcases List.mem_append.mp h with h | h
    · exact .inl h
    · exact .inr ⟨List.mem_singleton.mp h, hne⟩

/-! ### The line that was read -/

/-- The scanner after `line`. -/
def scan (line : List Char) : Scan := line.foldl scanChar ⟨[], []⟩

theorem scan_concat (line : List Char) (c : Char) : scan (line ++ [c]) = scanChar (scan line) c := by
  simp [scan]

/-- A maximal run with a character behind it, so that it stays one when the line goes on. -/
def EndedRun (line : List Char) (t : Token) : Prop :=
  t ≠ [] ∧ (∀ c ∈ t, isWordChar c = true) ∧
    ∃ pre d post, line = pre ++ t ++ d :: post ∧ (∀ c ∈ pre.getLast?, isWordChar c = false) ∧
      isWordChar d = false

theorem EndedRun.maximalRun (h : EndedRun line t) : MaximalRun line t := by
  obtain ⟨hne, hword, pre, d, post, hline, hpre, hd⟩ := h
  refine ⟨hne, hword, pre, d :: post, hline, hpre, ?_⟩
  intro c hc
  obtain rfl : d = c := by simpa using hc
  exact hd

theorem EndedRun.concat (h : EndedRun line t) (c : Char) : EndedRun (line ++ [c]) t := by
  obtain ⟨hne, hword, pre, d, post, hline, hpre, hd⟩ := h
  exact ⟨hne, hword, pre, d, post ++ [c], by simp [hline], hpre, hd⟩

/-- What the scanner holds after `line`. -/
structure Scanned (line : List Char) (s : Scan) : Prop where
  text : s.tokens.flatten ++ s.token = unblanked line
  word : ∀ c ∈ s.token, isWordChar c = true
  start : ∃ pre, line = pre ++ s.token ∧ ∀ c ∈ pre.getLast?, isWordChar c = false
  runs : ∀ t ∈ s.tokens, IsSign t ∨ EndedRun line t

theorem Scanned.runs_concat (h : Scanned line s) (ht : t ∈ s.tokens) (c : Char) :
    IsSign t ∨ EndedRun (line ++ [c]) t :=
  (h.runs t ht).imp_right fun hrun => hrun.concat c

/-- The word being read is complete at a character that does not belong to it. -/
theorem Scanned.runs_flushed (h : Scanned line s) (hc : isWordChar c = false) (ht : t ∈ s.flushed) :
    IsSign t ∨ EndedRun (line ++ [c]) t := by
  rcases mem_flushed ht with ht | ⟨rfl, hne⟩
  · exact h.runs_concat ht c
  · obtain ⟨pre, hline, hpre⟩ := h.start
    exact .inr ⟨hne, h.word, pre, c, [], by rw [hline], hpre, hc⟩

/-- The line ends outside a word, so the next word starts behind it. -/
theorem start_concat (line : List Char) (hc : isWordChar c = false) :
    ∃ pre, line ++ [c] = pre ++ ([] : Token) ∧ ∀ d ∈ pre.getLast?, isWordChar d = false := by
  refine ⟨line ++ [c], by simp, ?_⟩
  intro d hd
  obtain rfl : c = d := by simpa using hd
  exact hc

theorem Scanned.step (h : Scanned line s) (c : Char) : Scanned (line ++ [c]) (scanChar s c) := by
  rcases char_cases c with hc | hc | hc
  · have hout := isWordChar_of_isWhiteSpace hc
    rw [scanChar_white s hc]
    refine ⟨?_, by simp, start_concat line hout, fun t ht => h.runs_flushed hout ht⟩
    rw [flushed_flatten, h.text]
    simp [unblanked, hc]
  · have hout := isWordChar_of_isSpecialToken hc
    rw [scanChar_sign s hc]
    refine ⟨?_, by simp, start_concat line hout, ?_⟩
    · have hw := isWhiteSpace_of_isSpecialToken hc
      rw [List.flatten_append, flushed_flatten, h.text]
      simp [unblanked, hw]
    · intro t ht
      rcases List.mem_append.mp ht with ht | ht
      · exact h.runs_flushed hout ht
      · exact .inl ⟨c, hc, List.mem_singleton.mp ht⟩
  · rw [scanChar_word s hc]
    refine ⟨?_, ?_, ?_, fun t ht => h.runs_concat ht c⟩
    · have hw := isWhiteSpace_of_isWordChar hc
      have htext := congrArg (· ++ [c]) h.text
      simpa [unblanked, hw] using htext
    · intro d hd
      rcases List.mem_append.mp hd with hd | hd
      · exact h.word d hd
      · rw [List.mem_singleton.mp hd]
        exact hc
    · obtain ⟨pre, hline, hpre⟩ := h.start
      exact ⟨pre, by rw [hline, List.append_assoc], hpre⟩

theorem scanned_scan (line : List Char) : Scanned line (scan line) := by
  induction line using List.reverseRecOn with
  | nil => exact ⟨rfl, by simp [scan], ⟨[], rfl, by simp⟩, by simp [scan]⟩
  | append_singleton line c ih =>
    rw [scan_concat]
    exact ih.step c

/-! ### The end of the line -/

/-- The word being read is empty just when the line ends outside a word. -/
theorem token_eq_nil_iff (line : List Char) : (scan line).token = [] ↔ EndsOutsideWord line := by
  have h := scanned_scan line
  obtain ⟨pre, hline, hpre⟩ := h.start
  have hends : line.getLast? = (pre ++ (scan line).token).getLast? := congrArg List.getLast? hline
  rw [EndsOutsideWord, hends]
  constructor
  · intro hnil
    rw [hnil, List.append_nil]
    exact hpre
  · intro hout
    by_contra hne
    -- otherwise the last character of the line is the last one of the word
    have hlast : (pre ++ (scan line).token).getLast? = some ((scan line).token.getLast hne) := by
      rw [List.getLast?_append, List.getLast?_eq_some_getLast hne]
      rfl
    have hword := h.word _ (List.getLast_mem hne)
    rw [hout _ hlast] at hword
    cases hword

/-- **The lexer loses nothing**: the tokens are the line without its blanks, cut into signs and maximal
words, just when the line does not end within a word. -/
theorem losesNothing_iff (line : List Char) : LosesNothing line ↔ EndsOutsideWord line := by
  have h := scanned_scan line
  have htokens : findTokens line = (scan line).tokens := rfl
  have htext := h.text
  rw [← token_eq_nil_iff]
  constructor
  · intro hall
    rw [← hall.1, htokens] at htext
    exact List.append_right_eq_self.mp htext
  · intro hnil
    rw [hnil, List.append_nil] at htext
    refine ⟨by rw [htokens, htext], ?_⟩
    intro t ht
    exact (h.runs t ht).imp_right EndedRun.maximalRun

/-- `ls`, as the last line of the input. -/
theorem losesNothing_false : ¬ LosesNothing ['l', 's'] := by
  intro h
  have htext : (findTokens ['l', 's']).flatten = unblanked ['l', 's'] := h.1
  revert htext
  decide

end EC440.SimpleShell
