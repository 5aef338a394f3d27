/-
Which texts are refused, and where.

A character is stray (`IsStray`) if it is neither blank nor alphanumeric nor a sign. An alphanumeric run, the longest
row of alphanumeric characters around a place, is cut into a number and a word, so it goes wrong in one way only: behind
its leading ASCII digits comes a decimal digit of another script, which starts no lexeme. These are the two offences
(`Offends`).

Seen from its own place (`Blocked`) a character offends by itself and the run in front of it, whatever follows. Lexemes
hold no such character, and no lexeme ends where the run in front would be forgotten (`Passes`). So a text is refused
exactly if it has an offence, and then at the earliest one (`tokenize_refuses`).
-/
import StackLang.Proofs.Source.Munch

namespace StackLang

/-! ## Offences -/

def signChars : List Char :=
  [';', '(', ')', '\x7b', '\x7d', '=', '+', '-', '*', '/', ',']

/-- neither blank, nor alphanumeric, nor a sign -/
def IsStray (c : Char) : Prop :=
  Text.isBlank c = false ∧ Text.isAlphanumeric c = false ∧ c ∉ signChars

/-- a row of alphanumeric characters of the text, with no other one next to it on either side -/
structure IsRun (text front run behind : List Char) : Prop where
  split : text = front ++ run ++ behind
  alphanumeric : ∀ c ∈ run, Text.isAlphanumeric c = true
  left : ∀ c ∈ front.getLast?, Text.isAlphanumeric c = false
  right : ∀ c ∈ behind.head?, Text.isAlphanumeric c = false

/-- a character of the text, with what stands before it, that keeps the text from being split -/
inductive Offends (text : List Char) : List Char → Char → Prop
  | stray {before rest : List Char} {c : Char} : text = before ++ c :: rest → IsStray c → Offends text before c
  /-- behind its leading ASCII digits the run goes on with a decimal digit -/
  | digit {front run behind tail : List Char} {c : Char} : IsRun text front run behind →
      run.dropWhile Char.isDigit = c :: tail → Text.isDecimalDigit c = true →
      Offends text (front ++ run.takeWhile Char.isDigit) c

/-- the alphanumeric characters right in front of a place, latest first -/
def runBefore (before : List Char) : List Char :=
  before.reverse.takeWhile Text.isAlphanumeric

/-- an offence seen from its place: the character, and what stands right in front of it -/
def Blocked (before : List Char) (c : Char) : Prop :=
  IsStray c ∨ (Text.isAlphanumeric c = true ∧ Text.isDecimalDigit c = true ∧ c.isDigit = false) ∧
    ∀ x ∈ runBefore before, x.isDigit = true

/-! ## Classes of characters -/

section

variable {c : Char} {before cs rest : List Char}

theorem isDecimalDigit_of_isDigit (h : c.isDigit = true) : Text.isDecimalDigit c = true := by
  simp [Text.isDecimalDigit, Text.digitValue?_of_isDigit h]

theorem isWordStart_iff : isWordStart c = true ↔ Text.isAlphanumeric c = true ∧ Text.isDecimalDigit c = false := by
  simp [isWordStart]

/-- signs are neither blank nor alphanumeric -/
theorem not_isBlank_of_mem_signChars (h : c ∈ signChars) : Text.isBlank c = false ∧ Text.isAlphanumeric c = false := by
  have hall : signChars.all (fun c => !Text.isBlank c && !Text.isAlphanumeric c) = true := by decide +kernel
  simpa using List.all_eq_true.1 hall c h

theorem signKind?_eq_none_iff : signKind? c = none ↔ c ∉ signChars := by
  unfold signKind? signChars
  split <;> simp_all

/-- no lexeme starts at a stray character or at a decimal digit that is not an ASCII digit, and at these only -/
theorem first?_eq_none_iff : Lexeme.first? c rest = none ↔
    IsStray c ∨ Text.isAlphanumeric c = true ∧ Text.isDecimalDigit c = true ∧ c.isDigit = false := by
  unfold Lexeme.first? IsStray
  split_ifs with hblank hword hdigit hpower
  · have halnum := Text.not_isAlphanumeric_of_isBlank hblank
    simp [hblank, halnum]
  · obtain ⟨halnum, hdecimal⟩ := isWordStart_iff.1 hword
    simp [halnum, hdecimal]
  · simp [Text.isAlphanumeric_of_isDigit hdigit, hdigit]
  · obtain ⟨rfl, -⟩ := hpower
    have hstar := not_isBlank_of_mem_signChars (c := '*') (by decide)
    simp [hstar.2, signChars]
  · rw [Option.map_eq_none_iff, signKind?_eq_none_iff]
    by_cases halnum : Text.isAlphanumeric c = true
    · have hdecimal : Text.isDecimalDigit c = true := by
        rw [isWordStart_iff] at hword
        simpa [halnum] using hword
      have hsign : c ∉ signChars := by
        intro hmem
        rw [(not_isBlank_of_mem_signChars hmem).2] at halnum
        cases halnum
      simp [halnum, hdecimal, hdigit, hsign]
    · simp [hblank, halnum]

/-- a digit of another script goes on with a word but starts nothing -/
example : Lexeme.first? 'x' ['٣'] = some ⟨some .name, ['x', '٣']⟩ ∧
    Lexeme.first? '1' ['٣'] = some ⟨some .number, ['1']⟩ ∧ Lexeme.first? '٣' [] = none := by
  decide +kernel

/-! ## Offences seen from their place -/

theorem not_of_mem_head?_dropWhile {p : Char → Bool} (h : c ∈ (cs.dropWhile p).head?) : p c = false := by
  have hhead := List.head?_dropWhile_not p cs
  rw [h] at hhead
  exact hhead

/-- behind a row of alphanumeric characters the run in front is longer by that row -/
theorem runBefore_append (h : ∀ x ∈ cs, Text.isAlphanumeric x = true) :
    runBefore (before ++ cs) = cs.reverse ++ runBefore before := by
  unfold runBefore
  rw [List.reverse_append, List.takeWhile_append_of_pos (by simpa using h)]

/-- behind any other character there is no run in front -/
theorem runBefore_concat (h : Text.isAlphanumeric c = false) : runBefore (before ++ [c]) = [] := by
  unfold runBefore
  rw [List.reverse_append, List.reverse_singleton, List.singleton_append, List.takeWhile_cons_of_neg (by simp [h])]

theorem runBefore_eq_nil (h : ∀ x ∈ before.getLast?, Text.isAlphanumeric x = false) : runBefore before = [] := by
  rcases List.eq_nil_or_concat before with rfl | ⟨front, x, rfl⟩
  · rfl
  · rw [List.concat_eq_append] at h ⊢
    exact runBefore_concat (h x (by simp))

/-- a text up to a place is what is in front of the run before the place, and that run -/
theorem append_runBefore (before : List Char) :
    ∃ front, before = front ++ (runBefore before).reverse ∧ ∀ x ∈ front.getLast?, Text.isAlphanumeric x = false := by
  refine ⟨(before.reverse.dropWhile Text.isAlphanumeric).reverse, ?_, ?_⟩
  · calc before = before.reverse.reverse := (List.reverse_reverse before).symm
      _ = (runBefore before ++ before.reverse.dropWhile Text.isAlphanumeric).reverse := by
        rw [runBefore, List.takeWhile_append_dropWhile]
      _ = _ := List.reverse_append
  · intro x hx
    rw [List.getLast?_reverse] at hx
    exact not_of_mem_head?_dropWhile hx

theorem takeWhile_dropWhile_stop {p : Char → Bool} {digits : List Char} (hdigits : ∀ x ∈ digits, p x = true)
    (hc : p c = false) (cs : List Char) :
    (digits ++ c :: cs).takeWhile p = digits ∧ (digits ++ c :: cs).dropWhile p = c :: cs := by
  rw [List.takeWhile_append_of_pos hdigits, List.dropWhile_append_of_pos hdigits,
    List.takeWhile_cons_of_neg (by simp [hc]), List.dropWhile_cons_of_neg (by simp [hc]), List.append_nil]
  exact ⟨rfl, rfl⟩

/-- the two views of an offence -/
theorem offends_iff {text : List Char} :
    Offends text before c ↔ (∃ rest, text = before ++ c :: rest) ∧ Blocked before c := by
  constructor
  · rintro (⟨htext, hstray⟩ | ⟨hrun, hdrop, hdecimal⟩)
    · exact ⟨⟨_, htext⟩, .inl hstray⟩
    · -- the run before the place is made of the digits that the whole run starts with
      rename_i front run behind tail
      have hsplit : run.takeWhile Char.isDigit ++ c :: tail = run := by
        rw [← hdrop, List.takeWhile_append_dropWhile]
      have halnum : ∀ x ∈ run.takeWhile Char.isDigit ++ c :: tail, Text.isAlphanumeric x = true := by
        rw [hsplit]
        exact hrun.alphanumeric
      have hdigits : ∀ x ∈ run.takeWhile Char.isDigit, x.isDigit = true := fun x hx => List.mem_takeWhile_imp hx
      have hc : c.isDigit = false := not_of_mem_head?_dropWhile (by rw [hdrop]; rfl)
      refine ⟨⟨tail ++ behind, ?_⟩, .inr ⟨⟨halnum c (by simp), hdecimal, hc⟩, ?_⟩⟩
      · rw [hrun.split]
        nth_rewrite 1 [← hsplit]
        simp
      · rw [runBefore_append fun x hx => halnum x (List.mem_append_left _ hx), runBefore_eq_nil hrun.left]
        simpa using hdigits
  · rintro ⟨⟨rest, htext⟩, hstray | ⟨⟨halnum, hdecimal, hc⟩, hdigits⟩⟩
    · exact .stray htext hstray
    · -- the whole run is the run before the place, the character, and the row as far as it goes on
      obtain ⟨front, hfront, hleft⟩ := append_runBefore before
      have hdigits : ∀ x ∈ (runBefore before).reverse, x.isDigit = true := by simpa using hdigits
      set digits := (runBefore before).reverse
      obtain ⟨htake, hdrop⟩ := takeWhile_dropWhile_stop hdigits hc (rest.takeWhile Text.isAlphanumeric)
      have hrun : IsRun text front (digits ++ c :: rest.takeWhile Text.isAlphanumeric)
          (rest.dropWhile Text.isAlphanumeric) := by
        refine ⟨?_, ?_, hleft, ?_⟩
        · rw [htext, hfront]
          simp
        · intro x hx
          rcases List.mem_append.1 hx with hx | hx
          · exact Text.isAlphanumeric_of_isDigit (hdigits x hx)
          · rcases List.mem_cons.1 hx with rfl | hx
            · exact halnum
            · exact List.mem_takeWhile_imp hx
        · intro x hx
          exact not_of_mem_head?_dropWhile hx
      have hoffends := Offends.digit hrun hdrop hdecimal
      rwa [htake, ← hfront] at hoffends

/-! ## Lexemes hold no offence -/

/-- no character of the row offends, where the row stands -/
def Clear (before cs : List Char) : Prop :=
  ∀ front x back, cs = front ++ x :: back → ¬ Blocked (before ++ front) x

/-- a run that goes on at this place has had ASCII digits only so far -/
def StartsFresh (before cs : List Char) : Prop :=
  ∀ c ∈ cs.head?, Text.isAlphanumeric c = true → ∀ x ∈ runBefore before, x.isDigit = true

/-- the row is clear, and what comes behind it starts fresh -/
structure Passes (before cs rest : List Char) : Prop where
  clear : Clear before cs
  fresh : StartsFresh (before ++ cs) rest

theorem Clear.append {ds : List Char} (h : Clear before cs) (h' : Clear (before ++ cs) ds) :
    Clear before (cs ++ ds) := by
  intro front x back heq
  rcases List.append_eq_append_iff.1 heq with ⟨more, hfront, hds⟩ | ⟨more, hcs, hback⟩
  · rw [hfront, ← List.append_assoc]
    exact h' more x back hds
  · cases more with
    | nil =>
      rw [List.append_nil] at hcs
      rw [← hcs, ← List.append_nil (before ++ cs)]
      exact h' [] x back hback.symm
    | cons y more =>
      obtain ⟨rfl, -⟩ := List.cons.inj hback
      exact h front x more hcs

/-- a row with characters of some class other than the alphanumeric one -/
theorem passes_others (hne : cs ≠ []) (h : ∀ x ∈ cs, ¬ IsStray x ∧ Text.isAlphanumeric x = false) :
    Passes before cs rest := by
  constructor
  · intro front x back heq hblocked
    obtain ⟨hstray, halnum⟩ := h x (by simp [heq])
    rcases hblocked with hx | ⟨⟨hx, -⟩, -⟩
    · exact hstray hx
    · rw [halnum] at hx
      cases hx
  · intro c _ _ x hx
    obtain ⟨front, last, rfl⟩ := (List.eq_nil_or_concat cs).resolve_left hne
    rw [List.concat_eq_append] at h hx
    rw [← List.append_assoc, runBefore_concat (h last (by simp)).2] at hx
    cases hx

/-- a word as far as it goes: later digits stand behind its first character, which is none -/
theorem passes_word (hc : isWordStart c = true) (hcs : ∀ x ∈ cs, Text.isAlphanumeric x = true)
    (hrest : ∀ x ∈ rest.head?, Text.isAlphanumeric x = false) : Passes before (c :: cs) rest := by
  obtain ⟨halnum, hdecimal⟩ := isWordStart_iff.1 hc
  have hall : ∀ x ∈ c :: cs, Text.isAlphanumeric x = true := List.forall_mem_cons.2 ⟨halnum, hcs⟩
  constructor
  · intro front x back heq hblocked
    rcases hblocked with ⟨-, hx, -⟩ | ⟨⟨-, hx, -⟩, hdigits⟩
    · rw [hall x (by simp [heq])] at hx
      cases hx
    · cases front with
      | nil =>
        obtain ⟨rfl, -⟩ := List.cons.inj heq
        rw [hdecimal] at hx
        cases hx
      | cons d front =>
        obtain ⟨rfl, -⟩ := List.cons.inj heq
        have hfront : ∀ y ∈ c :: front, Text.isAlphanumeric y = true := by
          intro y hy
          exact hall y (by rw [heq]; exact List.mem_append_left _ hy)
        have hdigit := hdigits c (by simp [runBefore_append hfront])
        rw [isDecimalDigit_of_isDigit hdigit] at hdecimal
        cases hdecimal
  · intro x hx hword
    rw [hrest x hx] at hword
    cases hword

/-- a number at a fresh place -/
theorem passes_number (hcs : ∀ x ∈ cs, x.isDigit = true) (hbefore : ∀ x ∈ runBefore before, x.isDigit = true) :
    Passes before cs rest := by
  constructor
  · intro front x back heq hblocked
    have hx := hcs x (by simp [heq])
    rcases hblocked with ⟨-, hword, -⟩ | ⟨⟨-, -, hdigit⟩, -⟩
    · rw [Text.isAlphanumeric_of_isDigit hx] at hword
      cases hword
    · rw [hx] at hdigit
      cases hdigit
  · intro c _ _ x hx
    rw [runBefore_append fun y hy => Text.isAlphanumeric_of_isDigit (hcs y hy)] at hx
    rcases List.mem_append.1 hx with hx | hx
    · exact hcs x (List.mem_reverse.1 hx)
    · exact hbefore x hx

/-- **One lexeme.** The first lexeme of a text that starts fresh holds no offence, and the text behind it starts fresh
again. -/
theorem passes_first? {l : Lexeme} (h : Lexeme.first? c rest = some l) (hfresh : StartsFresh before (c :: rest)) :
    Passes before l.chars ((c :: rest).drop l.chars.length) := by
  have hsign : ∀ x ∈ signChars, ¬ IsStray x ∧ Text.isAlphanumeric x = false := by
    intro x hx
    exact ⟨fun hstray => hstray.2.2 hx, (not_isBlank_of_mem_signChars hx).2⟩
  unfold Lexeme.first? at h
  split_ifs at h with hblank hword hdigit hpower
  · cases h
    refine passes_others (List.cons_ne_nil _ _) ?_
    intro x hx
    have hx : Text.isBlank x = true := by
      rcases List.mem_cons.1 hx with rfl | hx
      · exact hblank
      · exact List.mem_takeWhile_imp hx
    refine ⟨fun hstray => ?_, Text.not_isAlphanumeric_of_isBlank hx⟩
    rw [hstray.1] at hx
    cases hx
  · cases h
    refine passes_word hword (fun x hx => List.mem_takeWhile_imp hx) ?_
    intro x hx
    rw [List.length_cons, List.drop_succ_cons, drop_length_takeWhile] at hx
    exact not_of_mem_head?_dropWhile hx
  · cases h
    refine passes_number ?_ (hfresh c rfl (Text.isAlphanumeric_of_isDigit hdigit))
    intro x hx
    rcases List.mem_cons.1 hx with rfl | hx
    · exact hdigit
    · exact List.mem_takeWhile_imp hx
  · cases h
    refine passes_others (List.cons_ne_nil _ _) ?_
    intro x hx
    have hstar : x = '*' := by simpa using hx
    rw [hstar]
    exact hsign '*' (by decide)
  · obtain ⟨kind, hkind, rfl⟩ := Option.map_eq_some_iff.1 h
    refine passes_others (List.cons_ne_nil _ _) ?_
    intro x hx
    rw [List.mem_singleton.1 hx]
    apply hsign
    by_contra hmem
    rw [signKind?_eq_none_iff.2 hmem] at hkind
    cases hkind

/-! ## Whole texts -/

/-- what the outcome says about a text behind another one -/
def Settled (before cs : List Char) : Except BadCharacter (List Token) → Prop
  | .ok _ => Clear before cs
  | .error bad => ∃ front c rest, cs = front ++ c :: rest ∧ Clear before front ∧ Blocked (before ++ front) c ∧
      bad = ⟨c, .behind (before ++ front)⟩

/-- lexeme by lexeme, the text is clear up to where it is refused -/
theorem tokensFrom_settled (found : List Token) (hfresh : StartsFresh before cs) :
    Settled before cs (tokensFrom found (.behind before) cs) := by
  -- lexemes are cut off from the front; what carries over is that the text left starts fresh
  generalize hp : Position.behind before = p
  fun_induction tokensFrom found p cs generalizing before with
  | case1 found p =>
    intro front x back heq
    simp at heq
  | case2 found p c rest hnone =>
    refine ⟨[], c, rest, rfl, ?_, ?_, by rw [List.append_nil, hp]⟩
    · intro front x back heq
      simp at heq
    · rw [List.append_nil]
      rcases first?_eq_none_iff.1 hnone with hstray | hdigit
      · exact .inl hstray
      · exact .inr ⟨hdigit, hfresh c rfl hdigit.1⟩
  | case3 found p c rest l hl ih =>
    obtain ⟨hclear, hnext⟩ := passes_first? hl hfresh
    have hsplit := Lexeme.chars_append hl
    have hplace : Position.behind (before ++ l.chars) = p.after l.chars := by rw [← hp, Position.after_behind]
    have hrest := ih hnext hplace
    generalize tokensFrom _ _ _ = outcome at hrest ⊢
    cases outcome with
    | ok tokens =>
      have hall := hclear.append hrest
      rwa [hsplit] at hall
    | error bad =>
      obtain ⟨front, d, tail, hcs, hfront, hblocked, hbad⟩ := hrest
      rw [List.append_assoc] at hblocked hbad
      exact ⟨l.chars ++ front, d, tail, by rw [← hsplit, hcs, List.append_assoc], hclear.append hfront, hblocked, hbad⟩

theorem tokenize_settled (source : String) : Settled [] source.toList (tokenize source) := by
  refine tokensFrom_settled [] ?_
  intro c _ _ x hx
  cases hx

/-- no offence of the text comes before this one -/
def IsFirstOffence (text before : List Char) (c : Char) : Prop :=
  Offends text before c ∧ ∀ other d, Offends text other d → before.length ≤ other.length

theorem IsFirstOffence.unique {text other : List Char} {d : Char} (h : IsFirstOffence text before c)
    (h' : IsFirstOffence text other d) : before = other ∧ c = d := by
  obtain ⟨⟨rest, htext⟩, -⟩ := offends_iff.1 h.1
  obtain ⟨⟨rest', htext'⟩, -⟩ := offends_iff.1 h'.1
  have hlength : before.length = other.length := le_antisymm (h.2 other d h'.1) (h'.2 before c h.1)
  obtain ⟨hbefore, htail⟩ := List.append_inj (htext.symm.trans htext') hlength
  exact ⟨hbefore, (List.cons.inj htail).1⟩

/-- behind a clear row the first offence is the one at its end -/
theorem isFirstOffence_of_clear (hclear : Clear [] before) (hblocked : Blocked before c) :
    IsFirstOffence (before ++ c :: rest) before c := by
  refine ⟨offends_iff.2 ⟨⟨rest, rfl⟩, hblocked⟩, ?_⟩
  intro other d hother
  obtain ⟨⟨rest', htext⟩, hd⟩ := offends_iff.1 hother
  by_contra hshort
  rcases List.append_eq_append_iff.1 htext with ⟨more, rfl, -⟩ | ⟨more, hbefore, hrest⟩
  · simp at hshort
  · cases more with
    | nil => simp [hbefore] at hshort
    | cons x more =>
      obtain ⟨rfl, -⟩ := List.cons.inj hrest
      exact hclear other d more hbefore hd

theorem tokenize_eq_error_iff {source : String} {bad : BadCharacter} : tokenize source = .error bad ↔
    ∃ before c, IsFirstOffence source.toList before c ∧ bad = ⟨c, .behind before⟩ := by
  have hsettled := tokenize_settled source
  cases htokens : tokenize source with
  | ok tokens =>
    rw [htokens] at hsettled
    refine iff_of_false (by simp) ?_
    rintro ⟨before, c, ⟨hoffends, -⟩, -⟩
    obtain ⟨⟨rest, htext⟩, hblocked⟩ := offends_iff.1 hoffends
    exact hsettled before c rest htext hblocked
  | error told =>
    rw [htokens] at hsettled
    obtain ⟨front, c, rest, htext, hclear, hblocked, rfl⟩ := hsettled
    have hfirst : IsFirstOffence source.toList front c := by
      rw [htext]
      exact isFirstOffence_of_clear hclear hblocked
    constructor
    · rintro ⟨⟩
      exact ⟨front, c, hfirst, rfl⟩
    · rintro ⟨before, d, hother, rfl⟩
      obtain ⟨rfl, rfl⟩ := hfirst.unique hother
      rfl

/-- a text with an offence has a first one -/
theorem exists_isFirstOffence {text : List Char} (h : Offends text before c) :
    ∃ before c, IsFirstOffence text before c := by
  classical
  have hsome : ∃ n before c, Offends text before c ∧ before.length = n := ⟨_, before, c, h, rfl⟩
  obtain ⟨front, d, hoffends, hlength⟩ := Nat.find_spec hsome
  refine ⟨front, d, hoffends, ?_⟩
  intro other e hother
  rw [hlength]
  exact Nat.find_min' hsome ⟨other, e, hother, rfl⟩

end

/-- **Which texts are refused, and where.** A text is refused exactly if it holds a character that is neither blank nor
alphanumeric nor a sign, or an alphanumeric run that goes on with a decimal digit behind its leading ASCII digits. It is
refused at the earliest character of the text that offends in one of these ways: the message names this character, and
the place is its line and column, counted in the text before it. -/
theorem tokenize_refuses (source : String) :
    ((∃ bad, tokenize source = .error bad) ↔
      (∃ c ∈ source.toList, IsStray c) ∨
        ∃ front run behind c tail, IsRun source.toList front run behind ∧ run.dropWhile Char.isDigit = c :: tail ∧
          Text.isDecimalDigit c = true) ∧
      ∀ bad, tokenize source = .error bad ↔
        ∃ before c, Offends source.toList before c ∧
          (∀ other d, Offends source.toList other d → before.length ≤ other.length) ∧
          bad = ⟨c, ⟨1 + before.count '\n', 1 + (before.reverse.takeWhile (· ≠ '\n')).length⟩⟩ ∧
          bad.diagnostic = ⟨.lexical, "unrecognized character " ++ Text.quoted c.toString, some (1 + before.count '\n'),
            some (1 + (before.reverse.takeWhile (· ≠ '\n')).length)⟩ := by
  refine ⟨?_, fun bad => ?_⟩
  · constructor
    · rintro ⟨bad, hbad⟩
      obtain ⟨before, c, ⟨hoffends, -⟩, -⟩ := tokenize_eq_error_iff.1 hbad
      rcases hoffends with ⟨htext, hstray⟩ | ⟨hrun, hdrop, hdecimal⟩
      · exact .inl ⟨c, by simp [htext], hstray⟩
      · exact .inr ⟨_, _, _, c, _, hrun, hdrop, hdecimal⟩
    · intro hoffence
      have hsome : ∃ before c, Offends source.toList before c := by
        rcases hoffence with ⟨c, hc, hstray⟩ | ⟨front, run, behind, c, tail, hrun, hdrop, hdecimal⟩
        · obtain ⟨before, rest, htext⟩ := List.append_of_mem hc
          exact ⟨before, c, .stray htext hstray⟩
        · exact ⟨_, c, .digit hrun hdrop hdecimal⟩
      obtain ⟨before, c, hoffends⟩ := hsome
      obtain ⟨front, d, hfirst⟩ := exists_isFirstOffence hoffends
      exact ⟨_, tokenize_eq_error_iff.2 ⟨front, d, hfirst, rfl⟩⟩
  · rw [tokenize_eq_error_iff]
    constructor
    · rintro ⟨before, c, ⟨hoffends, hfirst⟩, rfl⟩
      exact ⟨before, c, hoffends, hfirst, rfl, rfl⟩
    · rintro ⟨before, c, hoffends, hfirst, rfl, -⟩
      exact ⟨before, c, ⟨hoffends, hfirst⟩, rfl⟩

end StackLang
