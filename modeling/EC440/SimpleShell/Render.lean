import EC440.SimpleShell.Parser

/-!
# Command lines and what they say

A pipeline as the user means it (`Line`), its tokens, and the command lines that spell these tokens:
spaces and tabs may stand between any two of them, and must between two words (`Renders`).
`find_tokens` finds the tokens of every such command line (`Renders.findTokens`).
-/

namespace EC440.SimpleShell

/-! ### Pipelines -/

def IsWord (t : Token) : Prop :=
  t ≠ [] ∧ ∀ c ∈ t, isWhiteSpace c = false ∧ isSpecialToken c = false ∧ c ≠ Char.ofNat 0

instance (t : Token) : Decidable (IsWord t) := @instDecidableAnd _ _ inferInstance (List.decidableBAll _ t)

/-- A word of a command, or a redirection. -/
inductive Item
  | word (w : Token)
  | input (w : Token)
  | output (w : Token)
deriving DecidableEq, Repr

def Item.text : Item → Token
  | .word w => w
  | .input w => w
  | .output w => w

def Item.tokens : Item → List Token
  | .word w => [w]
  | .input w => [['<'], w]
  | .output w => [['>'], w]

/-- The pipeline of a command line: its commands, and whether it ends with `&`. -/
structure Line where
  commands : List (List Item)
  background : Bool
deriving DecidableEq, Repr

def Line.WellFormed (p : Line) : Prop :=
  p.commands ≠ [] ∧ ∀ c ∈ p.commands, c ≠ [] ∧ ∀ i ∈ c, IsWord i.text

instance (p : Line) : Decidable p.WellFormed := inferInstanceAs (Decidable (_ ∧ _))

/-- The tokens of the commands `cs`, with `|` between them. -/
def pipeTokens : List (List Item) → List Token
  | [] => []
  | [c] => c.flatMap Item.tokens
  | c :: cs => c.flatMap Item.tokens ++ ['|'] :: pipeTokens cs

def Line.tokens (p : Line) : List Token :=
  pipeTokens p.commands ++ if p.background then [['&']] else []

/-! ### What the parser should make of it -/

def words (c : List Item) : List Token :=
  c.filterMap fun
    | .word w => some w
    | _ => none

/-- The path of the last redirection of the input. -/
def lastInput (c : List Item) : Option Token :=
  (c.filterMap fun
    | .input w => some w
    | _ => none).getLast?

def lastOutput (c : List Item) : Option Token :=
  (c.filterMap fun
    | .output w => some w
    | _ => none).getLast?

def commandOf (c : List Item) (next : Option Nat) : PipelineCommand :=
  ⟨(words c).map some ++ [none], lastInput c, lastOutput c, next⟩

def pipelineOf (p : Line) : Pipeline where
  commands := p.commands.mapIdx fun i c =>
    some (commandOf c (if i + 1 < p.commands.length then some (i + 1) else none))
  isBackground := p.background

/-! ### Command lines -/

def Blank (gap : List Char) : Prop := ∀ c ∈ gap, c = ' ' ∨ c = '\t'

instance (gap : List Char) : Decidable (Blank gap) := List.decidableBAll _ gap

/-- The first of the tokens is a word. -/
def StartsWithWord : List Token → Prop
  | [] => False
  | t :: _ => IsWord t

instance : (ts : List Token) → Decidable (StartsWithWord ts)
  | [] => inferInstanceAs (Decidable False)
  | t :: _ => inferInstanceAs (Decidable (IsWord t))

/-- The tokens in order, each with the blanks behind it, and a newline.  Two words are kept apart. -/
inductive Renders : List Token → List Char → Prop
  | nil {gap : List Char} (blank : Blank gap) : Renders [] (gap ++ ['\n'])
  | cons {t : Token} {gap : List Char} {ts : List Token} {line : List Char} (blank : Blank gap)
      (apart : IsWord t → StartsWithWord ts → gap ≠ []) (rest : Renders ts line) :
      Renders (t :: ts) (t ++ gap ++ line)

/-- A sign of the grammar. -/
def IsSign (t : Token) : Prop := ∃ c, isSpecialToken c = true ∧ t = [c]

variable {t : Token} {ts toks : List Token} {gap line : List Char} {c : Char} {p : Line}

theorem not_isWord_of_isSign (h : IsSign t) : ¬ IsWord t := by
  obtain ⟨c, hc, rfl⟩ := h
  intro hw
  have hc' := (hw.2 c (by simp)).2.1
  rw [hc] at hc'
  cases hc'

theorem isWhiteSpace_of_isSpecialToken (h : isSpecialToken c = true) : isWhiteSpace c = false := by
  simp only [isSpecialToken, Bool.or_eq_true, beq_iff_eq] at h
  rcases h with ((rfl | rfl) | rfl) | rfl <;> rfl

theorem Blank.isWhiteSpace (h : Blank gap) (hc : c ∈ gap) : isWhiteSpace c = true := by
  rcases h c hc with rfl | rfl <;> rfl

/-! ### `find_tokens` on them -/

/-- The tokens once the one being read is complete. -/
def Scan.flushed (s : Scan) : List Token := if s.token = [] then s.tokens else s.tokens ++ [s.token]

theorem scanChar_white (s : Scan) (hc : isWhiteSpace c = true) : scanChar s c = ⟨s.flushed, []⟩ := by
  obtain ⟨tokens, token⟩ := s
  cases token with
  | nil => simp [scanChar, hc, Scan.flushed]
  | cons a token => simp [scanChar, hc, Scan.flushed]

theorem scanChar_sign (s : Scan) (hc : isSpecialToken c = true) :
    scanChar s c = ⟨s.flushed ++ [[c]], []⟩ := by
  obtain ⟨tokens, token⟩ := s
  have hw := isWhiteSpace_of_isSpecialToken hc
  cases token with
  | nil => simp [scanChar, hc, hw, Scan.flushed]
  | cons a token => simp [scanChar, hc, hw, Scan.flushed]

theorem foldl_scanChar_word (s : Scan) (w : List Char)
    (hw : ∀ c ∈ w, isWhiteSpace c = false ∧ isSpecialToken c = false) :
    w.foldl scanChar s = ⟨s.tokens, s.token ++ w⟩ := by
  induction w generalizing s with
  | nil => simp
  | cons c w ih =>
    obtain ⟨hc, hc'⟩ := hw c List.mem_cons_self
    rw [List.foldl_cons, ih _ fun d hd => hw d (List.mem_cons_of_mem c hd)]
    simp [scanChar, hc, hc']

theorem foldl_scanChar_blank (s : Scan) (hgap : Blank gap) :
    gap.foldl scanChar s = if gap = [] then s else ⟨s.flushed, []⟩ := by
  induction gap generalizing s with
  | nil => rfl
  | cons c gap ih =>
    rw [List.foldl_cons, scanChar_white s (hgap.isWhiteSpace List.mem_cons_self),
      ih _ fun d hd => hgap d (List.mem_cons_of_mem c hd)]
    simp [Scan.flushed]

/-- The token being read is complete when a sign or the end of the line follows. -/
theorem Renders.foldl_scanChar (h : Renders toks line) (htoks : ∀ t ∈ toks, IsWord t ∨ IsSign t)
    (s : Scan) (hs : s.token = [] ∨ ¬ StartsWithWord toks) :
    line.foldl scanChar s = ⟨s.flushed ++ toks, []⟩ := by
  induction h generalizing s with
  | @nil gap hgap =>
    rw [List.foldl_append, foldl_scanChar_blank s hgap, List.foldl_cons, List.foldl_nil,
      scanChar_white _ rfl]
    split <;> simp [Scan.flushed]
  | @cons t gap ts line hgap hapart hrest ih =>
    have ih' := ih fun t ht => htoks t (List.mem_cons_of_mem _ ht)
    rw [List.foldl_append, List.foldl_append]
    rcases htoks t List.mem_cons_self with hword | hsign
    · -- a word: nothing is being read before it
      have hnone : s.token = [] := hs.resolve_right (not_not_intro hword)
      have hflushed : s.flushed = s.tokens := by rw [Scan.flushed, if_pos hnone]
      rw [foldl_scanChar_word s t fun c hc => ⟨(hword.2 c hc).1, (hword.2 c hc).2.1⟩, hnone,
        List.nil_append, foldl_scanChar_blank _ hgap, hflushed]
      have hread : Scan.flushed ⟨s.tokens, t⟩ = s.tokens ++ [t] := by
        rw [Scan.flushed, if_neg hword.1]
      by_cases hempty : gap = []
      · rw [if_pos hempty, ih' _ (.inr fun hstart => hapart hword hstart hempty), hread]
        simp
      · rw [if_neg hempty, ih' _ (.inl rfl), hread]
        simp [Scan.flushed]
    · obtain ⟨c, hc, rfl⟩ := hsign
      rw [List.foldl_cons, List.foldl_nil, scanChar_sign s hc, foldl_scanChar_blank _ hgap]
      have hsame : (if gap = [] then (⟨s.flushed ++ [[c]], []⟩ : Scan)
          else ⟨Scan.flushed ⟨s.flushed ++ [[c]], []⟩, []⟩) = ⟨s.flushed ++ [[c]], []⟩ := by
        split <;> simp [Scan.flushed]
      rw [hsame, ih' _ (.inl rfl)]
      simp [Scan.flushed]

theorem Renders.findTokens (h : Renders toks line) (htoks : ∀ t ∈ toks, IsWord t ∨ IsSign t)
    (hgap : Blank gap) : findTokens (gap ++ line) = toks := by
  rw [SimpleShell.findTokens, List.foldl_append, foldl_scanChar_blank _ hgap]
  have hsame : (if gap = [] then (⟨[], []⟩ : Scan) else ⟨Scan.flushed ⟨[], []⟩, []⟩) = ⟨[], []⟩ := by
    split <;> simp [Scan.flushed]
  rw [hsame, h.foldl_scanChar htoks _ (.inl rfl)]
  simp [Scan.flushed]

end EC440.SimpleShell
