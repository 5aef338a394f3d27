/-
Tokens written out again.

A lexeme cut out of a text is the same lexeme when it stands alone (`Lexeme.first?_self`), so every token of a text is a
word that lexes by itself (`lexes_of_tokenize`). Such words written one after the other, with any blanks between them but
none left out, are split into the same words again (`tokenize_joined`).
-/
import StackLang.Proofs.Source.Words

namespace StackLang

/-! ## Lexemes alone -/

namespace Lexeme

variable {c : Char} {rest : List Char} {l : Lexeme}

theorem takeWhile_again (p : Char → Bool) (cs : List Char) : (cs.takeWhile p).takeWhile p = cs.takeWhile p :=
  List.takeWhile_eq_self_iff.2 fun _ hx => List.mem_takeWhile_imp hx

/-- a lexeme of a text is the first and only one of its own characters -/
theorem first?_self (h : first? c rest = some l) : ∃ cs, l.chars = c :: cs ∧ first? c cs = some l := by
  unfold first? at h
  split_ifs at h with hblank hword hdigit hpower
  · cases h
    exact ⟨_, rfl, by rw [first?, if_pos hblank, takeWhile_again]⟩
  · cases h
    exact ⟨_, rfl, by rw [first?, if_neg hblank, if_pos hword, takeWhile_again]⟩
  · cases h
    exact ⟨_, rfl, by rw [first?, if_neg hblank, if_neg hword, if_pos hdigit, takeWhile_again]⟩
  · cases h
    obtain ⟨rfl, -⟩ := hpower
    exact ⟨['*'], rfl, by decide⟩
  · obtain ⟨kind, hkind, rfl⟩ := Option.map_eq_some_iff.1 h
    refine ⟨[], rfl, ?_⟩
    rw [first?, if_neg hblank, if_neg hword, if_neg hdigit, if_neg (by simp), hkind]
    rfl

/-! ## Spellings -/

theorem spelling?_wordKind {w : String} (h : wordKind w ≠ .name) : (wordKind w).spelling? = some w := by
  unfold wordKind at h ⊢
  split_ifs at h ⊢ with hreturn hlet hfun
  · rw [hreturn]; rfl
  · rw [hlet]; rfl
  · rw [hfun]; rfl
  · exact absurd rfl h

theorem spelling?_signKind {kind : TokenKind} (h : signKind? c = some kind) :
    kind.spelling? = some (String.ofList [c]) := by
  unfold signKind? at h
  split at h <;> first | (cases h; rfl) | cases h

/-- a lexeme of a fixed kind has the characters that the kind is written with -/
theorem spelling?_of_first? {kind : TokenKind} (h : first? c rest = some l) (hkind : l.kind = some kind)
    (hname : kind ≠ .name) (hnumber : kind ≠ .number) : kind.spelling? = some (String.ofList l.chars) := by
  unfold first? at h
  split_ifs at h with hblank hword hdigit hpower
  · cases h
    cases hkind
  · cases h
    cases hkind
    exact spelling?_wordKind hname
  · cases h
    cases hkind
    exact absurd rfl hnumber
  · cases h
    cases hkind
    rfl
  · obtain ⟨found, hfound, rfl⟩ := Option.map_eq_some_iff.1 h
    cases hkind
    exact spelling?_signKind hfound

/-- the word of a lexeme is written with the lexeme's characters -/
theorem chars_word {p : Position} {t : Token} (h : first? c rest = some l) (ht : l.token? p = some t) :
    l.kind = some t.kind ∧ t.word.chars = l.chars ∧
      t.text = if t.kind = .name ∨ t.kind = .number then some (String.ofList l.chars) else none := by
  obtain ⟨kind, hkind, rfl⟩ := Option.map_eq_some_iff.1 ht
  refine ⟨hkind, ?_, rfl⟩
  by_cases hopen : kind = .name ∨ kind = .number
  · simp [Word.chars, Token.word, hopen]
  · obtain ⟨hname, hnumber⟩ := not_or.1 hopen
    simp [Word.chars, Token.word, hname, hnumber, spelling?_of_first? h hkind hname hnumber]

/-- the token of a lexeme is a word that lexes by itself -/
theorem lexes_word {p : Position} {t : Token} (h : first? c rest = some l) (ht : l.token? p = some t) :
    t.word.Lexes := by
  obtain ⟨hkind, hchars, htext⟩ := chars_word h ht
  obtain ⟨cs, hcs, halone⟩ := first?_self h
  refine ⟨?_, ?_⟩
  · rw [Word.alone?, hchars, hcs]
    dsimp only
    rw [halone, ← hcs]
    exact congrArg some (congrArg (Lexeme.mk · l.chars) hkind)
  · rw [hchars]
    exact htext

end Lexeme

/-! ## Tokens of a text -/

/-- what holds of the token of every lexeme holds of every token of a text -/
theorem forall_tokensFrom {P : Token → Prop}
    (hP : ∀ c rest l p t, Lexeme.first? c rest = some l → l.token? p = some t → P t)
    {found tokens : List Token} {p : Position} {cs : List Char} (hfound : ∀ t ∈ found, P t)
    (h : tokensFrom found p cs = .ok tokens) : ∀ t ∈ tokens, P t := by
  fun_induction tokensFrom found p cs with
  | case1 found p =>
    cases h
    simpa using hfound
  | case2 => cases h
  | case3 found p c rest l hl ih =>
    refine ih ?_ h
    intro t ht
    rcases List.mem_append.1 ht with hnew | hold
    · exact hP c rest l p t hl (Option.mem_toList.1 hnew)
    · exact hfound t hold

theorem lexes_of_tokenize {source : String} {tokens : List Token} (h : tokenize source = .ok tokens) :
    ∀ t ∈ tokens, t.word.Lexes :=
  forall_tokensFrom (fun _ _ _ _ _ => Lexeme.lexes_word) (by simp) h

/-! ## Words joined by blanks -/

def Word.spelling (w : Word) : String :=
  w.text.getD (w.kind.spelling?.getD "")

/-- words one after the other, with a gap between each two: the first gap behind the first word, and so on -/
def Word.joined (gap : Nat → String) : List Word → String
  | [] => ""
  | [w] => w.spelling
  | w :: v :: rest => w.spelling ++ gap 0 ++ joined (fun i => gap (i + 1)) (v :: rest)

/-- not empty, and of blanks only -/
def IsGap (s : String) : Prop :=
  s ≠ "" ∧ ∀ c ∈ s.toList, Text.isBlank c = true

theorem Spaced.behind_blanks {words : List Word} {blanks cs : List Char} (h : Spaced words cs)
    (hblanks : ∀ b ∈ blanks, Text.isBlank b = true) : Spaced words (blanks ++ cs) := by
  cases h with
  | nil hrest => exact .nil (List.forall_mem_append.2 ⟨hblanks, hrest⟩)
  | cons hfront hnext hrest =>
    rw [List.append_assoc, ← List.append_assoc blanks, ← List.append_assoc (blanks ++ _)]
    exact .cons (List.forall_mem_append.2 ⟨hblanks, hfront⟩) hnext hrest

theorem spaced_joined {gap : Nat → String} (hgap : ∀ i, IsGap (gap i)) (words : List Word) :
    Spaced words (Word.joined gap words).toList := by
  induction words generalizing gap with
  | nil => exact .nil (by simp [Word.joined])
  | cons w words ih =>
    cases words with
    | nil =>
      have hlast : Spaced [w] ([] ++ w.chars ++ []) := .cons (by simp) (by simp) (.nil (by simp))
      rw [List.nil_append, List.append_nil] at hlast
      exact hlast
    | cons v rest =>
      obtain ⟨hne, hblank⟩ := hgap 0
      have hrest := (ih fun i => hgap (i + 1)).behind_blanks hblank
      obtain ⟨b, bs, hb⟩ := List.exists_cons_of_ne_nil (mt String.toList_eq_nil_iff.1 hne)
      have hnext : ∀ x ∈ ((gap 0).toList ++ (Word.joined (fun i => gap (i + 1)) (v :: rest)).toList).head?,
          Text.isBlank x = true := by
        rw [hb]
        rintro x ⟨⟩
        exact hblank b (hb ▸ List.mem_cons_self)
      have hall : Spaced (w :: v :: rest) ([] ++ w.chars ++ _) := .cons (by simp) hnext hrest
      rw [Word.joined, String.toList_append, String.toList_append, List.append_assoc]
      exact hall

/-- the words of a text, joined by any gaps, are split into the same words -/
theorem tokenize_joined {source : String} {tokens : List Token} (h : tokenize source = .ok tokens)
    {gap : Nat → String} (hgap : ∀ i, IsGap (gap i)) :
    ∃ again, tokenize (Word.joined gap (tokens.map Token.word)) = .ok again ∧
      again.map Token.word = tokens.map Token.word := by
  apply tokenize_spaced (spaced_joined hgap _)
  intro w hw
  obtain ⟨t, ht, rfl⟩ := List.mem_map.1 hw
  exact lexes_of_tokenize h t ht

end StackLang
