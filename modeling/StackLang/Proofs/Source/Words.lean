/-
Texts written word by word.

A word is a token without its place. Words written one after the other with blanks between them (`Spaced`) are split
into exactly these words again (`tokenize_spaced`), if each of them is one lexeme when it stands alone (`Word.Lexes`).
Reserved words and signs are such words, the decimal notation of a number is, and so is every text that is split into a
single name (`lexes_name`).
-/
import StackLang.Proofs.Source.Lexed
import StackLang.Proofs.Source.Separated

namespace StackLang

/-! ## Words -/

/-- a word or a sign: a token without its place -/
structure Word where
  kind : TokenKind
  text : Option String
deriving DecidableEq, Repr

def Token.word (x : Token) : Word :=
  ⟨x.kind, x.text⟩

namespace Word

def sign (kind : TokenKind) : Word :=
  ⟨kind, none⟩

def name (x : Name) : Word :=
  ⟨.name, x.text⟩

/-- a number in decimal notation; a negative one has none, and is written as zero -/
def number (n : Int) : Word :=
  ⟨.number, some (toString n.toNat)⟩

/-- the characters of a word: its text, or those that its kind is written with -/
def chars (w : Word) : List Char :=
  (w.text.getD (w.kind.spelling?.getD "")).toList

/-- the first lexeme of the word by itself -/
def alone? (w : Word) : Option Lexeme :=
  match w.chars with
  | [] => none
  | c :: rest => Lexeme.first? c rest

/-- by itself the word is one lexeme, and carries the text that a token of its kind carries -/
structure Lexes (w : Word) : Prop where
  alone : w.alone? = some ⟨some w.kind, w.chars⟩
  text : w.text = if w.kind = .name ∨ w.kind = .number then some (String.ofList w.chars) else none

theorem lexes_sign {kind : TokenKind} {s : String} (h : kind.spelling? = some s) : (sign kind).Lexes := by
  cases kind <;> cases h <;> exact ⟨by decide, by decide⟩

/-! ## Numbers -/

theorem toList_toString (n : Nat) : (toString n).toList = Nat.toDigits 10 n := by
  rw [Nat.toString_eq_repr, Nat.repr_eq_ofList_toDigits, String.toList_ofList]

theorem isDigit_of_mem {n : Nat} {c : Char} (h : c ∈ (toString n).toList) : c.isDigit = true := by
  rw [toList_toString] at h
  exact Nat.isDigit_of_mem_toDigits (by omega) (by omega) h

theorem toString_ne_nil (n : Nat) : (toString n).toList ≠ [] := by
  rw [toList_toString]
  exact List.ne_nil_of_length_pos Nat.length_toDigits_pos

/-- decimal notation is read back -/
theorem decimal_toString (n : Nat) : decimal (toString n) = n := by
  unfold decimal
  rw [toList_toString, ← Nat.ofDigitChars_eq_foldl]
  exact Nat.ofDigitChars_ten_toDigits

theorem integer?_toString {n : Int} (hn : 0 ≤ n) (hlen : (toString n.toNat).length ≤ 4300) :
    Text.integer? (toString n.toNat) = some n := by
  have hshort : (toString n.toNat).toList.length ≤ Text.maxDigits := hlen
  rw [Text.integer?_digits (toString_ne_nil _) (fun c => isDigit_of_mem), if_pos hshort, decimal_toString,
    Int.toNat_of_nonneg hn]

theorem lexes_number (n : Int) : (number n).Lexes := by
  obtain ⟨c, rest, hchars⟩ := List.exists_cons_of_ne_nil (toString_ne_nil n.toNat)
  have hdigits : ∀ d ∈ c :: rest, d.isDigit = true := fun d hd => isDigit_of_mem (hchars ▸ hd)
  obtain ⟨hc, hrest⟩ := List.forall_mem_cons.1 hdigits
  have hword : isWordStart c = false := by
    simp [isWordStart, Text.isDecimalDigit, Text.digitValue?_of_isDigit hc]
  have hfirst : Lexeme.first? c rest = some ⟨some .number, c :: rest⟩ := by
    rw [Lexeme.first?, if_neg (by simp [Text.not_isBlank_of_isDigit hc]), if_neg (by simp [hword]), if_pos hc,
      List.takeWhile_eq_self_iff.2 hrest]
  have hword : (number n).chars = c :: rest := hchars
  refine ⟨?_, ?_⟩
  · rw [alone?, hword]
    exact hfirst
  · rw [hword, ← hchars, String.ofList_toList]
    rfl

/-! ## Names -/

/-- no token of a text has a text longer than it -/
theorem length_text_le {found ts : List Token} {p : Position} {cs : List Char} (h : tokensFrom found p cs = .ok ts)
    {x : Token} (hx : x ∈ ts) : x ∈ found ∨ ∀ s, x.text = some s → s.toList.length ≤ cs.length := by
  fun_induction tokensFrom found p cs with
  | case1 found p =>
    cases h
    exact .inl (List.mem_reverse.1 hx)
  | case2 => cases h
  | case3 found p c rest l hl ih =>
    rcases ih h with hfound | hlater
    · rcases List.mem_append.1 hfound with hnew | hold
      · right
        intro s hs
        obtain ⟨kind, -, rfl⟩ := Option.map_eq_some_iff.1 (Option.mem_toList.1 hnew)
        dsimp only at hs
        split_ifs at hs
        cases hs
        simpa using Lexeme.length_first? hl
      · exact .inl hold
    · right
      intro s hs
      have hle := hlater s hs
      rw [List.length_drop] at hle
      omega

/-- a text that is split starts with a lexeme -/
theorem exists_first? {found ts : List Token} {p : Position} {c : Char} {rest : List Char}
    (h : tokensFrom found p (c :: rest) = .ok ts) : ∃ l, Lexeme.first? c rest = some l := by
  by_contra hnone
  rw [tokensFrom] at h
  split at h
  · cases h
  · rename_i l hl
    exact hnone ⟨l, hl⟩

/-- a text that is split into a single name, which is the whole of it, is one lexeme -/
theorem lexes_name {s : String} (h : tokenize s = .ok [⟨.name, some s, .start⟩]) : (name ⟨some s⟩).Lexes := by
  rw [tokenize] at h
  cases hchars : s.toList with
  | nil =>
    rw [hchars, tokensFrom] at h
    cases h
  | cons c rest =>
    rw [hchars] at h
    obtain ⟨l, hl⟩ := exists_first? h
    rw [tokensFrom_cons hl] at h
    cases hkind : l.kind with
    | none =>
      -- behind blanks there is too little left for the name
      rw [Lexeme.token?, hkind] at h
      rcases length_text_le h List.mem_cons_self with hfound | hshort
      · cases hfound
      · have hle := hshort s rfl
        have hpos := Lexeme.first?_chars_pos hl
        rw [hchars, List.length_drop, List.length_cons] at hle
        omega
    | some kind =>
      rw [Lexeme.token?, hkind, Option.map_some, Option.toList_some, List.append_nil] at h
      rcases tokensFrom_alike _ [] _ .start ((c :: rest).drop l.chars.length) with ⟨ts, _, hok, -⟩ | ⟨bad, _, herror, -⟩
      · rw [hok, List.reverse_singleton, List.singleton_append] at h
        obtain ⟨hfirst, -⟩ := List.cons.inj (Except.ok.inj h)
        obtain ⟨rfl, htext, -⟩ := Token.mk.inj hfirst
        have hall : l.chars = s.toList := by
          rw [← Option.some.inj htext, String.toList_ofList]
        have hl' : l = ⟨some .name, s.toList⟩ := by
          rw [← hkind, ← hall]
        refine ⟨?_, ?_⟩
        · rw [alone?, show (name ⟨some s⟩).chars = c :: rest from hchars]
          exact hl.trans (congrArg some (hl'.trans (by rw [hchars]; rfl)))
        · rw [show (name ⟨some s⟩).chars = s.toList from rfl, String.ofList_toList]
          rfl
      · cases herror.symm.trans h

end Word

/-! ## Words with blanks between them -/

theorem Text.mem_of_inRanges {table : List (Nat × Nat)} {n : Nat} (h : inRanges table n = true) :
    ∃ r ∈ table, r.1 ≤ n ∧ n ≤ r.2 := by
  induction table with
  | nil => cases h
  | cons r table ih =>
    rw [inRanges] at h
    split_ifs at h with hle
    · exact ⟨r, List.mem_cons_self, of_decide_eq_true h, hle⟩
    · obtain ⟨r', hr', hbounds⟩ := ih h
      exact ⟨r', List.mem_cons_of_mem r hr', hbounds⟩

theorem Text.not_isAlphanumeric_of_isBlank {c : Char} (h : isBlank c = true) : isAlphanumeric c = false := by
  have hall : ∀ r ∈ blankRanges, ∀ k ∈ List.range (r.2 + 1 - r.1), isAlphanumeric (Char.ofNat (r.1 + k)) = false := by
    decide +kernel
  obtain ⟨r, hr, hlo, hhi⟩ := mem_of_inRanges h
  have hchar := hall r hr (c.toNat - r.1) (List.mem_range.2 (by omega))
  rwa [Nat.add_sub_of_le hlo, Char.ofNat_toNat] at hchar

/-- words one after the other, each in front of a blank or of the end; blanks may also stand in front of the first and
behind the last -/
inductive Spaced : List Word → List Char → Prop
  | nil {blanks : List Char} : (∀ b ∈ blanks, Text.isBlank b = true) → Spaced [] blanks
  | cons {w : Word} {words : List Word} {blanks rest : List Char} :
      (∀ b ∈ blanks, Text.isBlank b = true) → (∀ b ∈ rest.head?, Text.isBlank b = true) → Spaced words rest →
      Spaced (w :: words) (blanks ++ w.chars ++ rest)

/-- words with one blank in front of each -/
theorem spaced_blanks (words : List Word) : Spaced words (words.flatMap fun w => ' ' :: w.chars) := by
  induction words with
  | nil => exact .nil (by simp)
  | cons w words ih =>
    have hblank : Text.isBlank ' ' = true := by decide +kernel
    have hnext : ∀ b ∈ (words.flatMap fun w => ' ' :: w.chars).head?, Text.isBlank b = true := by
      cases words with
      | nil => simp
      | cons v words => simp [hblank]
    exact .cons (List.forall_mem_singleton.2 hblank) hnext ih

/-- the word is taken off the front of a text, in which nothing but a blank may follow it -/
theorem Word.Lexes.first?_append {w : Word} (h : w.Lexes) {rest : List Char}
    (hrest : ∀ b ∈ rest.head?, Text.isBlank b = true) :
    ∃ c cs, w.chars = c :: cs ∧ Text.isBlank c = false ∧ Lexeme.first? c (cs ++ rest) = some ⟨some w.kind, w.chars⟩ := by
  have halone := h.alone
  unfold alone? at halone
  cases hchars : w.chars with
  | nil =>
    rw [hchars] at halone
    cases halone
  | cons c cs =>
    rw [hchars] at halone
    dsimp only at halone
    have hblank : Text.isBlank c = false := by
      rw [← Bool.not_eq_true]
      intro hblank
      rw [Lexeme.first?, if_pos hblank] at halone
      cases halone
    refine ⟨c, cs, rfl, hblank, ?_⟩
    cases rest with
    | nil =>
      rw [List.append_nil]
      exact halone
    | cons b ds =>
      have hb := hrest b rfl
      rw [Lexeme.first?_append hb (Text.not_isAlphanumeric_of_isBlank hb) (by simp [hblank])]
      exact halone

theorem tokensFrom_spaced {words : List Word} {cs : List Char} (h : Spaced words cs) (hlexes : ∀ w ∈ words, w.Lexes)
    (found : List Token) (p : Position) :
    ∃ ts, tokensFrom found p cs = .ok (found.reverse ++ ts) ∧ ts.map Token.word = words := by
  induction h generalizing found p with
  | @nil blanks hblanks =>
    obtain ⟨q, hdrop⟩ := tokensFrom_dropBlanks found p blanks
    refine ⟨[], ?_, rfl⟩
    rw [hdrop, List.dropWhile_eq_nil_iff.2 hblanks, tokensFrom, List.append_nil]
  | @cons w words blanks rest hblanks hrest _ ih =>
    obtain ⟨hw, hlexes⟩ := List.forall_mem_cons.1 hlexes
    obtain ⟨c, cs, hchars, hblank, hfirst⟩ := hw.first?_append hrest
    obtain ⟨q, hdrop⟩ := tokensFrom_dropBlanks found p (blanks ++ w.chars ++ rest)
    have hfront : (blanks ++ w.chars ++ rest).dropWhile Text.isBlank = c :: (cs ++ rest) := by
      rw [List.append_assoc, List.dropWhile_append_of_pos hblanks, hchars, List.cons_append,
        List.dropWhile_cons_of_neg (by simp [hblank])]
    have hbehind : (c :: (cs ++ rest)).drop w.chars.length = rest := by
      rw [hchars, ← List.cons_append, List.drop_left]
    have htoken : Lexeme.token? ⟨some w.kind, w.chars⟩ q = some ⟨w.kind, w.text, q⟩ := by
      rw [hw.text]
      rfl
    obtain ⟨ts, hts, hwords⟩ := ih hlexes (⟨w.kind, w.text, q⟩ :: found) (q.after w.chars)
    refine ⟨⟨w.kind, w.text, q⟩ :: ts, ?_, ?_⟩
    · rw [hdrop, hfront, tokensFrom_cons hfirst, htoken, hbehind, Option.toList_some, List.singleton_append, hts]
      simp
    · rw [List.map_cons, hwords]
      rfl

/-- words with blanks between them are split into these words -/
theorem tokenize_spaced {words : List Word} {source : String} (h : Spaced words source.toList)
    (hlexes : ∀ w ∈ words, w.Lexes) : ∃ tokens, tokenize source = .ok tokens ∧ tokens.map Token.word = words :=
  tokensFrom_spaced h hlexes [] .start

end StackLang
