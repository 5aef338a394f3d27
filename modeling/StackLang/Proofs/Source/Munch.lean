/-
Texts cut into the longest pieces.

What a piece of a text may be is said by a language for each kind (`Belongs`): blanks, names, numbers, and the reserved
words and signs with their one spelling. A text is munched (`Munched`) if it is cut into pieces that cannot be
lengthened: no piece, together with characters that follow it, belongs to any of the languages. There is at most one way
to cut a text so (`Munched.unique`), the lexemes are cut so (`first?_eq_some_iff`), and the tokens of a text are what the
pieces report, each at the place counted from the text in front of it (`tokenize_munches`).
-/
import StackLang.Proofs.Source.Respelled
import StackLang.Proofs.Source.Scanned

namespace StackLang

/-! ## Languages of pieces -/

/-- a letter or numeral that is no decimal digit, and then any letters, numerals and digits -/
def IsWord (cs : List Char) : Prop :=
  ∃ c rest, cs = c :: rest ∧ Text.isAlphanumeric c = true ∧ Text.isDecimalDigit c = false ∧
    ∀ x ∈ rest, Text.isAlphanumeric x = true

def reservedWords : List String :=
  ["return", "let", "fun"]

def TokenKind.reserved : List TokenKind :=
  [.returnWord, .letWord, .funWord]

/-- the characters are a piece of the kind, or blanks if there is none -/
inductive Belongs : Option TokenKind → List Char → Prop
  | blanks {cs : List Char} : cs ≠ [] → (∀ c ∈ cs, Text.isBlank c = true) → Belongs none cs
  | name {cs : List Char} : IsWord cs → String.ofList cs ∉ reservedWords → Belongs (some .name) cs
  | number {cs : List Char} : cs ≠ [] → (∀ c ∈ cs, c.isDigit = true) → Belongs (some .number) cs
  | fixed {kind : TokenKind} {cs : List Char} : kind.spelling? = some (String.ofList cs) → Belongs (some kind) cs

/-- the piece stands in front of the text, and no longer front of the text is a piece that it could be lengthened to -/
structure Longest (l : Lexeme) (text : List Char) : Prop where
  belongs : Belongs l.kind l.chars
  front : l.chars <+: text
  longest : ∀ kind chars, Belongs kind chars → l.chars <+: chars → chars <+: text → chars = l.chars

/-- the text is cut into these pieces, none of which can be lengthened by what follows it -/
inductive Munched : List Char → List Lexeme → Prop
  | nil : Munched [] []
  | cons {l : Lexeme} {rest : List Char} {pieces : List Lexeme} :
      Longest l (l.chars ++ rest) → Munched rest pieces → Munched (l.chars ++ rest) (l :: pieces)

/-- what a piece behind a text reports: names and numbers with their characters, nothing for blanks -/
def Lexeme.report (before : List Char) (l : Lexeme) : List Token :=
  match l.kind with
  | none => []
  | some .name => [⟨.name, some (String.ofList l.chars), .behind before⟩]
  | some .number => [⟨.number, some (String.ofList l.chars), .behind before⟩]
  | some kind => [⟨kind, none, .behind before⟩]

/-- what pieces one after the other report, the first of them behind a text -/
def reports (before : List Char) : List Lexeme → List Token
  | [] => []
  | l :: pieces => l.report before ++ reports (before ++ l.chars) pieces

/-- blanks over two lines are no token, and the columns start again -/
example : reports [] [⟨some .letWord, "let".toList⟩, ⟨none, " \n  ".toList⟩, ⟨some .name, "x".toList⟩] =
    [⟨.letWord, none, ⟨1, 1⟩⟩, ⟨.name, some "x", ⟨2, 3⟩⟩] := by
  decide

/-! ## Pieces by themselves -/

section

variable {c : Char} {cs rest : List Char} {l : Lexeme} {kind kind' : Option TokenKind}

theorem Belongs.ne_nil (h : Belongs kind cs) : cs ≠ [] := by
  cases h with
  | blanks hne _ => exact hne
  | name hword _ =>
    obtain ⟨c, rest, rfl, -⟩ := hword
    exact List.cons_ne_nil c rest
  | number hne _ => exact hne
  | @fixed kind _ hspelling =>
    rintro rfl
    cases kind <;> simp [TokenKind.spelling?] at hspelling

theorem wordKind_of_notMem {w : String} (h : w ∉ reservedWords) : wordKind w = .name := by
  simp only [reservedWords, List.mem_cons, List.not_mem_nil, or_false, not_or] at h
  rw [wordKind, if_neg h.1, if_neg h.2.1, if_neg h.2.2]

/-- a piece of a language is the one lexeme of its own characters -/
theorem Belongs.first?_alone (h : Belongs kind (c :: cs)) : Lexeme.first? c cs = some ⟨kind, c :: cs⟩ := by
  cases h with
  | blanks _ hall =>
    obtain ⟨hc, hcs⟩ := List.forall_mem_cons.1 hall
    rw [Lexeme.first?, if_pos hc, List.takeWhile_eq_self_iff.2 hcs]
  | name hword hfree =>
    obtain ⟨_, _, ⟨⟩, hc, hdigit, hcs⟩ := hword
    have hblank : ¬ Text.isBlank c = true := fun hblank => by
      rw [Text.not_isAlphanumeric_of_isBlank hblank] at hc
      cases hc
    rw [Lexeme.first?, if_neg hblank, if_pos (by simp [isWordStart, hc, hdigit]), List.takeWhile_eq_self_iff.2 hcs]
    dsimp only
    rw [wordKind_of_notMem hfree]
  | number _ hall =>
    obtain ⟨hc, hcs⟩ := List.forall_mem_cons.1 hall
    have hstart : ¬ isWordStart c = true := by
      simp [isWordStart, Text.isDecimalDigit, Text.digitValue?_of_isDigit hc]
    rw [Lexeme.first?, if_neg (by simp [Text.not_isBlank_of_isDigit hc]), if_neg hstart, if_pos hc,
      List.takeWhile_eq_self_iff.2 hcs]
  | @fixed kind _ hspelling =>
    have hchars : (Word.sign kind).chars = c :: cs := by simp [Word.sign, Word.chars, hspelling]
    have halone := (Word.lexes_sign hspelling).alone
    rw [Word.alone?, hchars] at halone
    exact halone

/-- no characters are pieces of two kinds -/
theorem Belongs.unique (h : Belongs kind cs) (h' : Belongs kind' cs) : kind = kind' := by
  obtain ⟨c, rest, rfl⟩ := List.exists_cons_of_ne_nil h.ne_nil
  exact congrArg Lexeme.kind (Option.some.inj (h.first?_alone.symm.trans h'.first?_alone))

/-- a piece is a reserved word exactly if the whole of it is spelled as one -/
theorem Belongs.reserved_iff (h : Belongs kind cs) :
    (∃ word ∈ TokenKind.reserved, kind = some word) ↔ String.ofList cs ∈ reservedWords := by
  constructor
  · rintro ⟨word, hword, rfl⟩
    cases h with
    | name _ _ => exact absurd hword (by decide)
    | number _ _ => exact absurd hword (by decide)
    | fixed hspelling =>
      have hall : ∀ word ∈ TokenKind.reserved, ∀ s ∈ word.spelling?, s ∈ reservedWords := by decide
      exact hall word hword _ hspelling
  · intro hmem
    have hall : ∀ s ∈ reservedWords, ∃ word ∈ TokenKind.reserved, word.spelling? = some s := by decide
    obtain ⟨word, hword, hspelling⟩ := hall _ hmem
    exact ⟨word, hword, h.unique (.fixed hspelling)⟩

/-! ## Lexemes are the longest pieces -/

namespace Lexeme

theorem belongs_of_first? (h : first? c rest = some l) : Belongs l.kind l.chars := by
  unfold first? at h
  split_ifs at h with hblank hword hdigit hpower
  · cases h
    exact .blanks (List.cons_ne_nil _ _) (List.forall_mem_cons.2 ⟨hblank, fun _ => List.mem_takeWhile_imp⟩)
  · cases h
    dsimp only
    obtain ⟨hc, hstart⟩ : Text.isAlphanumeric c = true ∧ Text.isDecimalDigit c = false := by
      simpa [isWordStart] using hword
    by_cases hname : wordKind (String.ofList (c :: rest.takeWhile Text.isAlphanumeric)) = .name
    · rw [hname]
      refine .name ⟨c, _, rfl, hc, hstart, fun _ => List.mem_takeWhile_imp⟩ fun hmem => ?_
      have hall : ∀ w ∈ reservedWords, wordKind w ≠ .name := by decide
      exact hall _ hmem hname
    · exact .fixed (spelling?_wordKind hname)
  · cases h
    exact .number (List.cons_ne_nil _ _) (List.forall_mem_cons.2 ⟨hdigit, fun _ => List.mem_takeWhile_imp⟩)
  · cases h
    exact .fixed rfl
  · obtain ⟨kind, hkind, rfl⟩ := Option.map_eq_some_iff.1 h
    exact .fixed (spelling?_signKind hkind)

theorem takeWhile_prefix_append (p : Char → Bool) (cs more : List Char) :
    cs.takeWhile p <+: (cs ++ more).takeWhile p := by
  rw [List.takeWhile_append]
  split_ifs with hall
  · rw [(List.takeWhile_prefix p).eq_of_length hall]
    exact List.prefix_append _ _
  · exact List.prefix_rfl

/-- with more text behind, the first lexeme is the same or longer -/
theorem first?_lengthened (h : first? c cs = some l) (more : List Char) :
    ∃ l', first? c (cs ++ more) = some l' ∧ l.chars <+: l'.chars := by
  unfold first? at h ⊢
  split_ifs at h ⊢ with hblank hword hdigit htwo hone hone
  · cases h
    exact ⟨_, rfl, (List.prefix_cons_inj c).2 (takeWhile_prefix_append _ cs more)⟩
  · cases h
    exact ⟨_, rfl, (List.prefix_cons_inj c).2 (takeWhile_prefix_append _ cs more)⟩
  · cases h
    exact ⟨_, rfl, (List.prefix_cons_inj c).2 (takeWhile_prefix_append _ cs more)⟩
  · exact ⟨_, rfl, by cases h; exact List.prefix_rfl⟩
  · -- a star that turns out to be one of two
    obtain ⟨kind, -, rfl⟩ := Option.map_eq_some_iff.1 h
    exact ⟨_, rfl, ['*'], by rw [htwo.1]; rfl⟩
  · obtain ⟨tail, rfl⟩ := List.head?_eq_some_iff.1 hone.2
    exact absurd ⟨hone.1, rfl⟩ htwo
  · exact ⟨l, h, List.prefix_rfl⟩

/-- any piece in front of a text is part of its first lexeme -/
theorem first?_of_belongs (h : Belongs kind cs) (hfront : cs <+: c :: rest) :
    ∃ l, first? c rest = some l ∧ cs <+: l.chars := by
  obtain ⟨d, ds, rfl⟩ := List.exists_cons_of_ne_nil h.ne_nil
  obtain ⟨more, hmore⟩ := hfront
  obtain ⟨rfl, rfl⟩ := List.cons.inj hmore
  exact first?_lengthened h.first?_alone more

/-- the first lexeme of a text is the piece that cannot be lengthened -/
theorem first?_eq_some_iff : first? c rest = some l ↔ Longest l (c :: rest) := by
  constructor
  · intro h
    have hfront : l.chars <+: c :: rest := List.prefix_iff_eq_append.2 (chars_append h)
    refine ⟨belongs_of_first? h, hfront, fun kind chars hbelongs hlonger hchars => ?_⟩
    obtain ⟨l', hl', hpart⟩ := first?_of_belongs hbelongs hchars
    cases h.symm.trans hl'
    exact hpart.eq_of_length_le hlonger.length_le
  · rintro ⟨hbelongs, hfront, hlongest⟩
    obtain ⟨l', hl', hpart⟩ := first?_of_belongs hbelongs hfront
    have hbelongs' := belongs_of_first? hl'
    have hchars : l'.chars = l.chars :=
      hlongest l'.kind l'.chars hbelongs' hpart (List.prefix_iff_eq_append.2 (chars_append hl'))
    have hkind : l'.kind = l.kind := (hchars ▸ hbelongs').unique hbelongs
    rw [hl', show l' = ⟨l'.kind, l'.chars⟩ from rfl, hkind, hchars]

end Lexeme

/-! ## Texts cut into lexemes -/

theorem munched_cons_iff {pieces : List Lexeme} :
    Munched (c :: rest) pieces ↔
      ∃ l tail, Lexeme.first? c rest = some l ∧ pieces = l :: tail ∧ Munched ((c :: rest).drop l.chars.length) tail := by
  constructor
  · intro h
    generalize htext : c :: rest = text at h
    cases h with
    | nil => cases htext
    | @cons l behind tail hlongest htail =>
      rw [← htext] at hlongest
      refine ⟨l, tail, Lexeme.first?_eq_some_iff.2 hlongest, rfl, ?_⟩
      rwa [List.drop_left]
  · rintro ⟨l, tail, hl, rfl, htail⟩
    have hlongest := Lexeme.first?_eq_some_iff.1 hl
    have hsplit := Lexeme.chars_append hl
    rw [← hsplit] at hlongest ⊢
    exact .cons hlongest htail

/-- a text is cut in one way at most -/
theorem Munched.unique {text : List Char} {pieces others : List Lexeme} (h : Munched text pieces)
    (h' : Munched text others) : pieces = others := by
  induction h generalizing others with
  | nil =>
    generalize htext : ([] : List Char) = text at h'
    cases h' with
    | nil => rfl
    | @cons l _ _ hlongest _ => exact absurd (List.append_eq_nil_iff.1 htext.symm).1 hlongest.belongs.ne_nil
  | @cons l rest tail hlongest _ ih =>
    obtain ⟨c, cs, hcs⟩ := List.exists_cons_of_ne_nil (List.append_ne_nil_of_left_ne_nil hlongest.belongs.ne_nil rest)
    have hdrop : (l.chars ++ rest).drop l.chars.length = rest := List.drop_left
    rw [hcs] at hlongest h' hdrop
    obtain ⟨l', tail', hl', rfl, htail'⟩ := munched_cons_iff.1 h'
    cases hl'.symm.trans (Lexeme.first?_eq_some_iff.2 hlongest)
    rw [hdrop] at htail'
    rw [ih htail']

theorem Munched.belongs {text : List Char} {pieces : List Lexeme} (h : Munched text pieces) :
    ∀ l ∈ pieces, Belongs l.kind l.chars := by
  induction h with
  | nil => simp
  | cons hlongest _ ih => exact List.forall_mem_cons.2 ⟨hlongest.belongs, ih⟩

theorem Lexeme.toList_token? (before : List Char) (l : Lexeme) :
    (l.token? (.behind before)).toList = l.report before := by
  obtain ⟨kind, chars⟩ := l
  rcases kind with _ | kind
  · rfl
  · cases kind <;> rfl

/-- the tokens behind those that are found are what the pieces of the text report -/
theorem tokensFrom_eq_ok_iff (found : List Token) (before : List Char) {text : List Char} {tokens : List Token} :
    tokensFrom found (.behind before) text = .ok tokens ↔
      ∃ pieces, Munched text pieces ∧ found.reverse ++ reports before pieces = tokens := by
  generalize hp : Position.behind before = p
  fun_induction tokensFrom found p text generalizing before with
  | case1 found p =>
    constructor
    · intro h
      cases h
      exact ⟨[], .nil, by simp [reports]⟩
    · rintro ⟨pieces, hmunched, rfl⟩
      rw [hmunched.unique .nil, reports, List.append_nil]
  | case2 found p c rest hnone =>
    refine iff_of_false (by simp) ?_
    rintro ⟨pieces, hmunched, -⟩
    obtain ⟨l, _, hl, -⟩ := munched_cons_iff.1 hmunched
    cases hnone.symm.trans hl
  | case3 found p c rest l hl ih =>
    have hplace : Position.behind (before ++ l.chars) = p.after l.chars := by rw [← hp, Position.after_behind]
    have hreport : ∀ tail, ((l.token? p).toList ++ found).reverse ++ reports (before ++ l.chars) tail =
        found.reverse ++ reports before (l :: tail) := by
      intro tail
      rw [reports, ← Lexeme.toList_token?, hp]
      cases l.token? p <;> simp
    rw [ih _ hplace]
    constructor
    · rintro ⟨tail, htail, rfl⟩
      exact ⟨l :: tail, munched_cons_iff.2 ⟨l, tail, hl, rfl, htail⟩, (hreport tail).symm⟩
    · rintro ⟨pieces, hmunched, rfl⟩
      obtain ⟨l', tail, hl', rfl, htail⟩ := munched_cons_iff.1 hmunched
      cases hl'.symm.trans hl
      exact ⟨tail, htail, hreport tail⟩

end

/-- **The longest pieces, in order and in place.** A text has tokens exactly if it can be cut into blanks, names,
numbers, reserved words and signs that cannot be lengthened. It is cut so in one way only; a piece is a reserved word
exactly if the whole of it is spelled as one; and the tokens are what the pieces report, in their order: the characters
of names and numbers, and for every piece the line and column that are counted in the text in front of it. -/
theorem tokenize_munches {source : String} {tokens : List Token} :
    tokenize source = .ok tokens ↔
      ∃ pieces, Munched source.toList pieces ∧ (∀ others, Munched source.toList others → others = pieces) ∧
        (∀ l ∈ pieces, (∃ word ∈ TokenKind.reserved, l.kind = some word) ↔ String.ofList l.chars ∈ reservedWords) ∧
        reports [] pieces = tokens := by
  have hcut : tokenize source = .ok tokens ↔ ∃ pieces, Munched source.toList pieces ∧ reports [] pieces = tokens :=
    tokensFrom_eq_ok_iff [] []
  rw [hcut]
  constructor
  · rintro ⟨pieces, hmunched, hreports⟩
    exact ⟨pieces, hmunched, fun _ hothers => hothers.unique hmunched, fun l hl => (hmunched.belongs l hl).reserved_iff,
      hreports⟩
  · rintro ⟨pieces, hmunched, -, -, hreports⟩
    exact ⟨pieces, hmunched, hreports⟩

end StackLang
