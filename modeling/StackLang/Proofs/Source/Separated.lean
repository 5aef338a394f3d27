/-
Texts behind one another with a blank between them.

A blank ends every lexeme but a blank one, so the lexemes in front of it do not depend on what is behind
(`Lexeme.first?_append`), and blanks at the front of a text are no tokens (`tokensFrom_dropBlanks`). Where a text starts
changes the places of its tokens only (`tokensFrom_alike`). So two texts with a line feed between them have the tokens
of the first and then tokens like those of the second (`tokenize_append`).
-/
import Mathlib.Data.List.TakeWhile
import Mathlib.Tactic
import StackLang.Proofs.Source.SideBySide
import StackLang.Source.Lexeme

namespace StackLang

/-! ## Blanks end lexemes -/

theorem takeWhile_append_stop {p : Char → Bool} {b : Char} (hb : p b = false) (cs ds : List Char) :
    (cs ++ b :: ds).takeWhile p = cs.takeWhile p := by
  rw [List.takeWhile_append]
  split_ifs with hall
  · rw [List.takeWhile_cons_of_neg (by simp [hb]), List.append_nil]
    exact ((List.takeWhile_prefix p).eq_of_length hall).symm
  · rfl

theorem drop_length_takeWhile (p : Char → Bool) (cs : List Char) :
    cs.drop (cs.takeWhile p).length = cs.dropWhile p := by
  have hsplit := List.takeWhile_append_dropWhile (p := p) (l := cs)
  calc cs.drop (cs.takeWhile p).length
      = (cs.takeWhile p ++ cs.dropWhile p).drop (cs.takeWhile p).length := by rw [hsplit]
    _ = cs.dropWhile p := List.drop_left

theorem Text.isAlphanumeric_of_isDigit {c : Char} (h : c.isDigit = true) : isAlphanumeric c = true := by
  have hascii : c.toNat < 0x80 := by
    simp only [Char.isDigit, Bool.and_eq_true, decide_eq_true_eq] at h
    exact Nat.lt_of_le_of_lt h.2 (by decide)
  rw [isAlphanumeric, if_pos hascii, Char.isAlphanum, h, Bool.or_true]

variable {b c : Char} {rest cs ds : List Char} {l : Lexeme}

/-- a lexeme is the same with a blank behind the text, unless the text is blank as a whole -/
theorem Lexeme.first?_append (hb : Text.isBlank b = true) (hword : Text.isAlphanumeric b = false)
    (h : (c :: rest).all Text.isBlank = false) : first? c (rest ++ b :: ds) = first? c rest := by
  have hdigit : b.isDigit = false := by
    rw [← Bool.not_eq_true]
    intro hdigit
    rw [Text.isAlphanumeric_of_isDigit hdigit] at hword
    cases hword
  have hstar : (rest ++ b :: ds).head? = some '*' ↔ rest.head? = some '*' := by
    cases rest with
    | nil =>
      refine iff_of_false ?_ (by simp)
      rintro ⟨⟩
      revert hb
      decide
    | cons => rfl
  unfold first?
  by_cases hblank : Text.isBlank c = true
  · -- the blanks at the front end before the text does
    have hrest : ¬ (rest.takeWhile Text.isBlank).length = rest.length := by
      intro hall
      rw [List.all_cons, hblank, Bool.true_and, ← Bool.not_eq_true, List.all_eq_true] at h
      refine h fun x hx => ?_
      rw [← (List.takeWhile_prefix Text.isBlank).eq_of_length hall] at hx
      exact List.mem_takeWhile_imp hx
    rw [if_pos hblank, if_pos hblank, List.takeWhile_append, if_neg hrest]
  · rw [if_neg hblank, if_neg hblank, takeWhile_append_stop hword, takeWhile_append_stop hdigit]
    simp only [hstar]

theorem Lexeme.length_first? (h : first? c rest = some l) : l.chars.length ≤ (c :: rest).length := by
  unfold first? at h
  split_ifs at h with hblank hword hdigit hpower
  · cases h
    simpa using (List.takeWhile_prefix Text.isBlank).length_le
  · cases h
    simpa using (List.takeWhile_prefix Text.isAlphanumeric).length_le
  · cases h
    simpa using (List.takeWhile_prefix Char.isDigit).length_le
  · cases h
    cases rest with
    | nil => cases hpower.2
    | cons => simp
  · obtain ⟨kind, _, rfl⟩ := Option.map_eq_some_iff.1 h
    simp

/-! ## Blanks are no tokens -/

theorem tokensFrom_cons {found : List Token} {p : Position} (h : Lexeme.first? c rest = some l) :
    tokensFrom found p (c :: rest) =
      tokensFrom ((l.token? p).toList ++ found) (p.after l.chars) ((c :: rest).drop l.chars.length) := by
  rw [tokensFrom]
  split
  · rename_i hnone
    cases hnone.symm.trans h
  · rename_i l' hl'
    cases hl'.symm.trans h
    rfl

theorem tokensFrom_dropBlanks (found : List Token) (p : Position) (cs : List Char) :
    ∃ q, tokensFrom found p cs = tokensFrom found q (cs.dropWhile Text.isBlank) := by
  cases cs with
  | nil => exact ⟨p, rfl⟩
  | cons c rest =>
    by_cases hblank : Text.isBlank c = true
    · have hfirst : Lexeme.first? c rest = some ⟨none, c :: rest.takeWhile Text.isBlank⟩ := if_pos hblank
      refine ⟨p.after (c :: rest.takeWhile Text.isBlank), ?_⟩
      rw [tokensFrom_cons hfirst, List.dropWhile_cons_of_pos hblank, List.length_cons, List.drop_succ_cons,
        drop_length_takeWhile]
      rfl
    · exact ⟨p, by rw [List.dropWhile_cons_of_neg hblank]⟩

/-- behind a text and a blank the tokens go on with those of what follows, from some place -/
theorem tokensFrom_append (hb : Text.isBlank b = true) (hword : Text.isAlphanumeric b = false) {found ts : List Token}
    {p : Position} (h : tokensFrom found p cs = .ok ts) :
    ∃ q, tokensFrom found p (cs ++ b :: ds) = tokensFrom ts.reverse q (ds.dropWhile Text.isBlank) := by
  fun_induction tokensFrom found p cs with
  | case1 found p =>
    cases h
    rw [List.reverse_reverse, ← List.dropWhile_cons_of_pos hb]
    exact tokensFrom_dropBlanks found p (b :: ds)
  | case2 => cases h
  | case3 found p c rest l hl ih =>
    by_cases hall : ∀ x ∈ c :: rest, Text.isBlank x = true
    · obtain ⟨q, hq⟩ := tokensFrom_dropBlanks found p (c :: rest)
      rw [← tokensFrom_cons hl, hq, List.dropWhile_eq_nil_iff.2 hall, tokensFrom] at h
      cases h
      rw [List.reverse_reverse, ← List.dropWhile_cons_of_pos hb, ← List.dropWhile_append_of_pos hall]
      exact tokensFrom_dropBlanks found p (c :: rest ++ b :: ds)
    · have hfirst : Lexeme.first? c (rest ++ b :: ds) = some l := by
        rw [Lexeme.first?_append hb hword, hl]
        rwa [← Bool.not_eq_true, List.all_eq_true]
      obtain ⟨q, hq⟩ := ih h
      refine ⟨q, ?_⟩
      rw [List.cons_append, tokensFrom_cons hfirst, ← List.cons_append,
        List.drop_append_of_le_length (Lexeme.length_first? hl), hq]

/-! ## Places -/

/-- the same text behind other tokens and at another place: the tokens it adds are alike, and it is refused in both
cases or in none -/
theorem tokensFrom_alike (found found' : List Token) (p q : Position) (cs : List Char) :
    (∃ ts ts', tokensFrom found p cs = .ok (found.reverse ++ ts) ∧ tokensFrom found' q cs = .ok (found'.reverse ++ ts') ∧
      List.Forall₂ Token.Like ts ts') ∨
    ∃ bad bad', tokensFrom found p cs = .error bad ∧ tokensFrom found' q cs = .error bad' := by
  fun_induction tokensFrom found p cs generalizing found' q with
  | case1 found p => exact .inl ⟨[], [], by simp, by simp [tokensFrom], .nil⟩
  | case2 found p c rest hnone =>
    refine .inr ⟨_, ⟨c, q⟩, rfl, ?_⟩
    rw [tokensFrom]
    split
    · rfl
    · rename_i hsome
      cases hnone.symm.trans hsome
  | case3 found p c rest l hl ih =>
    rw [tokensFrom_cons hl]
    rcases ih ((l.token? q).toList ++ found') (q.after l.chars) with ⟨ts, ts', hok, hok', hlike⟩ | herror
    · refine .inl ⟨(l.token? p).toList ++ ts, (l.token? q).toList ++ ts', ?_, ?_, ?_⟩
      · rw [hok]
        cases l.token? p <;> simp
      · rw [hok']
        cases l.token? q <;> simp
      · refine List.rel_append ?_ hlike
        unfold Lexeme.token?
        cases l.kind with
        | none => exact .nil
        | some kind => exact .cons ⟨rfl, rfl⟩ .nil
    · exact .inr herror

/-- two texts with a line feed between them -/
theorem tokenize_append {first : String} {ts : List Token} (h : tokenize first = .ok ts) (second : String) :
    (∃ ts₂ ts₂', tokenize second = .ok ts₂ ∧ tokenize (first ++ "\n" ++ second) = .ok (ts ++ ts₂') ∧
      List.Forall₂ Token.Like ts₂ ts₂') ∨
    ∃ bad bad', tokenize second = .error bad ∧ tokenize (first ++ "\n" ++ second) = .error bad' := by
  have hchars : (first ++ "\n" ++ second).toList = first.toList ++ '\n' :: second.toList := by
    simp
  obtain ⟨p, hwhole⟩ := tokensFrom_append (b := '\n') (by decide) (by decide) h
  obtain ⟨q, hsecond⟩ := tokensFrom_dropBlanks [] .start second.toList
  unfold tokenize
  rw [hchars, hwhole, hsecond]
  simpa using tokensFrom_alike [] ts.reverse q p (second.toList.dropWhile Text.isBlank)

end StackLang
