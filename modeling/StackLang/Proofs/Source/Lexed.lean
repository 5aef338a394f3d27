/-
What tokens of a source text carry.

A name token carries its text and a number token a row of ASCII digits (`Token.Lexed`), and every token of a source
text is so (`lexed_of_tokenize`). On such a row the numeral reader gives its decimal value, and fails exactly on rows
of more than 4300 digits (`integer?_digits`).
-/
import Mathlib.Data.List.TakeWhile
import Mathlib.Tactic
import StackLang.Source.Lexeme
import StackLang.Text.Numeral

namespace StackLang

/-- the number that a row of ASCII digits stands for -/
def decimal (s : String) : Nat :=
  s.toList.foldl (fun n c => 10 * n + (c.toNat - '0'.toNat)) 0

/-! ## Numerals -/

namespace Text

theorem toNat_of_isDigit {c : Char} (h : c.isDigit = true) : 48 ≤ c.toNat ∧ c.toNat ≤ 57 := by
  simp only [Char.isDigit, Bool.and_eq_true, decide_eq_true_eq] at h
  exact h

theorem not_isBlank_of_isDigit {c : Char} (h : c.isDigit = true) : isBlank c = false := by
  obtain ⟨hlo, hhi⟩ := toNat_of_isDigit h
  unfold isBlank blankRanges
  -- above the first two ranges and below the third
  rw [inRanges, if_neg (by omega), inRanges, if_neg (by omega), inRanges, if_pos (by omega)]
  exact decide_eq_false (by omega)

theorem not_isNumeralBlank_of_isDigit {c : Char} (h : c.isDigit = true) : isNumeralBlank c = false := by
  simp [isNumeralBlank, not_isBlank_of_isDigit h]

theorem digitValue?_of_isDigit {c : Char} (h : c.isDigit = true) : digitValue? c = some (c.toNat - 48) := by
  obtain ⟨_, hhi⟩ := toNat_of_isDigit h
  unfold digitValue?
  rw [if_pos (by omega), if_pos h]

/-- a row of ASCII digits is read digit by digit -/
theorem digitRow?_digits {cs : List Char} (hne : cs ≠ []) (h : ∀ c ∈ cs, c.isDigit = true) :
    digitRow? cs = some (cs.map fun c => c.toNat - 48) := by
  induction cs with
  | nil => exact absurd rfl hne
  | cons c rest ih =>
    have hc := digitValue?_of_isDigit (h c (by simp))
    cases rest with
    | nil => simp [digitRow?, hc]
    | cons d rest =>
      have hd : d ≠ '_' := by
        rintro rfl
        have := h '_' (by simp)
        revert this
        decide
      have hrest := ih (by simp) (fun c hc => h c (List.mem_cons_of_mem _ hc))
      rw [digitRow?, hc, hrest]
      · rfl
      · intro hnil
        cases hnil
      · intro rest' heq
        cases heq
        exact hd rfl

theorem natural?_digits {cs : List Char} (hne : cs ≠ []) (h : ∀ c ∈ cs, c.isDigit = true) :
    natural? cs = if cs.length ≤ maxDigits then some (valueOfDigits (cs.map fun c => c.toNat - 48)) else none := by
  rw [natural?, digitRow?_digits hne h]
  simp

theorem dropWhile_digits {cs : List Char} (h : ∀ c ∈ cs, c.isDigit = true) : cs.dropWhile isNumeralBlank = cs := by
  cases cs with
  | nil => rfl
  | cons c rest => simp [not_isNumeralBlank_of_isDigit (h c (by simp))]

/-- a row of ASCII digits has no blanks to drop and no sign -/
theorem integer?_eq_natural? {s : String} (h : ∀ c ∈ s.toList, c.isDigit = true) :
    integer? s = (natural? s.toList).map fun n => (n : Int) := by
  have hrev : ∀ c ∈ s.toList.reverse, c.isDigit = true := fun c hc => h c (List.mem_reverse.1 hc)
  unfold integer?
  rw [dropWhile_digits h, dropWhile_digits hrev, List.reverse_reverse]
  dsimp only
  split
  · rename_i rest heq
    have hminus := h '-' (by rw [heq]; simp)
    exact absurd hminus (by decide)
  · rename_i rest heq
    have hplus := h '+' (by rw [heq]; simp)
    exact absurd hplus (by decide)
  · cases natural? s.toList <;> rfl

/-- a row of ASCII digits has its decimal value, unless it is too long -/
theorem integer?_digits {s : String} (hne : s.toList ≠ []) (h : ∀ c ∈ s.toList, c.isDigit = true) :
    integer? s = if s.toList.length ≤ maxDigits then some (decimal s : Int) else none := by
  have hvalue : valueOfDigits (s.toList.map fun c => c.toNat - 48) = decimal s := by
    unfold valueOfDigits decimal
    rw [List.foldl_map]
    rfl
  rw [integer?_eq_natural? h, natural?_digits hne h, hvalue]
  split <;> rfl

end Text

/-! ## Tokens -/

/-- what a token of a source text carries -/
structure Token.Lexed (t : Token) : Prop where
  name_text : t.kind = .name → ∃ s, t.text = some s
  number_text : t.kind = .number → ∃ s, t.text = some s ∧ s.toList ≠ [] ∧ ∀ c ∈ s.toList, c.isDigit = true

/-- a number token of at most 4300 digits -/
def Token.Short (t : Token) : Prop :=
  ∀ s, t.kind = .number → t.text = some s → s.toList.length ≤ 4300

/-- the text of a number token stands for its decimal value exactly if it is short -/
theorem Token.Lexed.integer? {t : Token} (h : t.Lexed) (hkind : t.kind = .number) :
    ∃ s, t.text = some s ∧ Text.integer? s = if s.toList.length ≤ 4300 then some (decimal s : Int) else none := by
  obtain ⟨s, hs, hne, hdigits⟩ := h.number_text hkind
  exact ⟨s, hs, Text.integer?_digits hne hdigits⟩

theorem signKind?_ne {c : Char} {kind : TokenKind} (h : signKind? c = some kind) : kind ≠ .name ∧ kind ≠ .number := by
  unfold signKind? at h
  split at h <;> first | (cases h; exact ⟨by decide, by decide⟩) | cases h

theorem wordKind_ne_number (w : String) : wordKind w ≠ .number := by
  unfold wordKind
  split_ifs <;> decide

theorem Lexeme.lexed_token {c : Char} {rest : List Char} {l : Lexeme} (h : first? c rest = some l) {p : Position}
    {t : Token} (ht : l.token? p = some t) : t.Lexed := by
  obtain ⟨kind, hkind, ht⟩ := Option.map_eq_some_iff.1 ht
  subst ht
  unfold first? at h
  split_ifs at h with hblank hword hdigit hpower
  · cases h
    cases hkind
  · cases h
    cases hkind
    constructor
    · intro hname
      exact ⟨_, if_pos (.inl hname)⟩
    · intro hnumber
      exact absurd hnumber (wordKind_ne_number _)
  · cases h
    cases hkind
    constructor
    · intro hname
      cases hname
    · intro _
      refine ⟨String.ofList (c :: rest.takeWhile Char.isDigit), rfl, ?_, ?_⟩
      · simp
      · intro d hd
        rw [String.toList_ofList, List.mem_cons] at hd
        rcases hd with rfl | hd
        · exact hdigit
        · exact List.mem_takeWhile_imp hd
  · cases h
    cases hkind
    constructor <;> intro hname <;> cases hname
  · obtain ⟨k, hk, rfl⟩ := Option.map_eq_some_iff.1 h
    cases hkind
    obtain ⟨hname, hnumber⟩ := signKind?_ne hk
    exact ⟨fun h => absurd h hname, fun h => absurd h hnumber⟩

theorem lexed_of_tokensFrom {found tokens : List Token} {p : Position} {cs : List Char}
    (hfound : ∀ t ∈ found, t.Lexed) (h : tokensFrom found p cs = .ok tokens) : ∀ t ∈ tokens, t.Lexed := by
  fun_induction tokensFrom found p cs with
  | case1 found p =>
    cases h
    simpa using hfound
  | case2 => cases h
  | case3 found p c rest l hl ih =>
    refine ih ?_ h
    intro t ht
    rcases List.mem_append.1 ht with hnew | hold
    · exact Lexeme.lexed_token hl (Option.mem_toList.1 hnew)
    · exact hfound t hold

/-- every token of a source text carries the text that its kind asks for -/
theorem lexed_of_tokenize {source : String} {tokens : List Token} (h : tokenize source = .ok tokens) :
    ∀ t ∈ tokens, t.Lexed :=
  lexed_of_tokensFrom (by simp) h

end StackLang
