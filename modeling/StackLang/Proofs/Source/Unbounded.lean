/-
Reading without bounds.

Levels and rounds are bounds that reading never needs. Without levels, the readers of expressions have to satisfy the
equations of `Readers.Unfolds`, in which they call each other, and there is exactly one way to do so. With levels enough
for the tokens ahead, a reader with levels is the one without (`Readers.Unfolds.expression_eq`). In the same way a loop
that counts its rounds along the tokens ahead is the only loop without a count that does the same in each round
(`Counted.endsByItself`), since a round that is not the last takes a token. So all of reading ends, and a program has no
more statements than tokens (`reading_advances_and_ends`).
-/
import StackLang.Proofs.Source.Progress

namespace StackLang.Parse

open Step (UpTo)

/-! ## Recursion without levels -/

namespace Readers

/-- each reader reads its parts with the readers themselves -/
structure Unfolds (r : Readers) : Prop where
  expression : r.expression = r.expressionAbove
  arithmetic : r.arithmetic = r.arithmeticAbove
  operand : r.operand = r.operandAbove

/-- readers with as many levels as the tokens ahead call for -/
def unbounded : Readers where
  expression s := Parse.expression (2 * s.left + 3) s
  arithmetic threshold s := Parse.arithmetic (2 * s.left + 2) threshold s
  operand s := Parse.operand (2 * s.left + 1) s

end Readers

variable {s : ParseState} {depth : Nat}

theorem expression_ne_tooDeep (h : 2 * s.left + 3 ≤ depth) (t : ParseState) : expression depth s ≠ .error .tooDeep t :=
  fun hdeep => ((takesAt depth).expression h s (Nat.le_refl _)).of_error hdeep rfl

theorem arithmetic_ne_tooDeep (h : 2 * s.left + 2 ≤ depth) (threshold : Nat) (t : ParseState) :
    arithmetic depth threshold s ≠ .error .tooDeep t :=
  fun hdeep => ((takesAt depth).arithmetic h threshold s (Nat.le_refl _)).of_error hdeep rfl

theorem operand_ne_tooDeep (h : 2 * s.left + 1 ≤ depth) (t : ParseState) : operand depth s ≠ .error .tooDeep t :=
  fun hdeep => ((takesAt depth).operand h s (Nat.le_refl _)).of_error hdeep rfl

/-- a step that is enough for a state is what steps with fewer levels and with more of them are up to -/
theorem upTo_enough {x : Nat → Parse Tree} (hwithin : ∀ {levels more}, levels ≤ more → Within (x levels) (x more))
    {enough : ParseState → Nat} (henough : ∀ s t, x (enough s) s ≠ .error .tooDeep t) (depth : Nat) :
    Within (x depth) fun s => x (enough s) s := by
  intro s
  rcases Nat.le_total depth (enough s) with hfew | hmore
  · exact hwithin hfew s
  · exact .inl ((hwithin hmore).eq (henough s))

namespace Readers

/-- readers with levels end as those without do, unless phrases nest too deeply for them -/
theorem within_unbounded (depth : Nat) : (readersAt depth).Within unbounded where
  expression := upTo_enough (fun h => (withinAt h).expression) (fun _ => expression_ne_tooDeep (Nat.le_refl _)) depth
  arithmetic threshold := upTo_enough (x := fun depth => Parse.arithmetic depth threshold)
    (fun h => (withinAt h).arithmetic threshold) (fun _ => arithmetic_ne_tooDeep (Nat.le_refl _) threshold) depth
  operand := upTo_enough (fun h => (withinAt h).operand) (fun _ => operand_ne_tooDeep (Nat.le_refl _)) depth

theorem unfolds_unbounded : unbounded.Unfolds where
  expression := by
    funext s
    exact ((within_unbounded (2 * s.left + 2)).expressionAbove.eq (expression_ne_tooDeep (Nat.le_refl _))).symm
  arithmetic := by
    funext threshold s
    have habove := (within_unbounded (2 * s.left + 1)).arithmeticAbove threshold
    exact (habove.eq (arithmetic_ne_tooDeep (Nat.le_refl _) threshold)).symm
  operand := by
    funext s
    exact ((within_unbounded (2 * s.left)).operandAbove.eq (operand_ne_tooDeep (Nat.le_refl _))).symm

variable {r : Readers}

theorem Unfolds.within (h : r.Unfolds) (depth : Nat) : (readersAt depth).Within r := by
  induction depth with
  | zero => exact ⟨UpTo.throw _ _, fun _ => UpTo.throw _ _, UpTo.throw _ _⟩
  | succ depth ih =>
    rw [readersAt_succ]
    refine ⟨?_, ?_, ?_⟩
    · rw [h.expression]
      exact ih.expressionAbove
    · rw [h.arithmetic]
      exact ih.arithmeticAbove
    · rw [h.operand]
      exact ih.operandAbove

/-- with levels enough for the tokens ahead, levels make no difference -/
theorem Unfolds.expression_eq (h : r.Unfolds) (henough : 2 * s.left + 3 ≤ depth) :
    Parse.expression depth s = r.expression s :=
  ((h.within depth).expression.eq (expression_ne_tooDeep henough)).symm

theorem Unfolds.arithmetic_eq (h : r.Unfolds) (henough : 2 * s.left + 2 ≤ depth) (threshold : Nat) :
    Parse.arithmetic depth threshold s = r.arithmetic threshold s :=
  (((h.within depth).arithmetic threshold).eq (arithmetic_ne_tooDeep henough threshold)).symm

theorem Unfolds.operand_eq (h : r.Unfolds) (henough : 2 * s.left + 1 ≤ depth) : Parse.operand depth s = r.operand s :=
  ((h.within depth).operand.eq (operand_ne_tooDeep henough)).symm

theorem Unfolds.eq_unbounded (h : r.Unfolds) : r = unbounded := by
  obtain ⟨expression, arithmetic, operand⟩ := r
  congr
  · funext s
    exact (h.expression_eq (Nat.le_refl _)).symm
  · funext threshold s
    exact (h.arithmetic_eq (Nat.le_refl _) threshold).symm
  · funext s
    exact (h.operand_eq (Nat.le_refl _)).symm

end Readers

/-! ## Loops without a count -/

variable {κ α : Type}

/-- the loop does one round, and then goes on with what the round leaves for the next, or ends with its result -/
def Endless (round : κ → Parse (κ ⊕ α)) (loop : κ → Parse α) : Prop :=
  ∀ k, loop k = round k >>= Sum.elim loop pure

/-- a loop that counts its rounds along a row of tokens. A round that is not the last takes a token, and with none ahead
no round is needed. -/
structure Counted (round : κ → Parse (κ ⊕ α)) (loop : κ → List Token → Parse α) : Prop where
  cons : ∀ k x rounds, loop k (x :: rounds) = round k >>= Sum.elim (loop · rounds) pure
  nil : ∀ k s, s.left = 0 → ∀ next : κ → Parse α, loop k [] s = (round k >>= Sum.elim next pure) s
  takes : ∀ {k next s t}, round k s = .ok (.inl next) t → t.left < s.left

/-- there is exactly one loop without a count, and a count along at least the tokens ahead never cuts it short -/
def EndsByItself (round : κ → Parse (κ ⊕ α)) (counted : κ → List Token → Parse α) : Prop :=
  (∃! loop, Endless round loop) ∧
    ∀ loop, Endless round loop → ∀ k s rounds, s.left ≤ rounds.length → counted k rounds s = loop k s

namespace Counted

variable {round : κ → Parse (κ ⊕ α)} {counted : κ → List Token → Parse α}

/-- going on in the same way after a round goes on in the same way from before it -/
theorem round_congr (h : Counted round counted) {f g : κ → Parse α} {k : κ} {s : ParseState}
    (hnext : ∀ next t, t.left < s.left → f next t = g next t) :
    (round k >>= Sum.elim f pure) s = (round k >>= Sum.elim g pure) s := by
  refine Step.bind_congr_of_ok ?_
  intro next t hround
  cases next with
  | inl next => exact hnext next t (h.takes hround)
  | inr a => rfl

/-- a loop with enough tokens to count along does a round and goes on along one token less -/
def Unrolls (round : κ → Parse (κ ⊕ α)) (loop : κ → List Token → Parse α) : Prop :=
  ∀ k (s : ParseState) (rounds : List Token), s.left ≤ rounds.length →
    loop k rounds s = (round k >>= Sum.elim (loop · rounds.tail) pure) s

theorem unrolls (h : Counted round counted) : Unrolls round counted := by
  intro k s rounds hrounds
  cases rounds with
  | nil => exact h.nil k s (Nat.le_zero.1 hrounds) _
  | cons x rounds => exact congrFun (h.cons k x rounds) s

/-- loops with the same rounds agree, whatever they count along, if it is enough -/
theorem agree (h : Counted round counted) {f g : κ → List Token → Parse α} (hf : Unrolls round f)
    (hg : Unrolls round g) (k : κ) (s : ParseState) (rounds rounds' : List Token) (hrounds : s.left ≤ rounds.length)
    (hrounds' : s.left ≤ rounds'.length) : f k rounds s = g k rounds' s := by
  -- by the tokens ahead, which a round that is not the last makes fewer
  induction hleft : s.left using Nat.strong_induction_on generalizing k s rounds rounds' with
  | _ left ih =>
    rw [hf k s rounds hrounds, hg k s rounds' hrounds']
    refine h.round_congr ?_
    intro next t hless
    refine ih t.left (hleft ▸ hless) next t rounds.tail rounds'.tail ?_ ?_ rfl
    · rw [List.length_tail]
      omega
    · rw [List.length_tail]
      omega

/-- a loop that counts along the tokens ahead does not need the count -/
theorem endless (h : Counted round counted) : Endless round fun k s => counted k s.cursor.ahead s := by
  intro k
  funext s
  refine (h.unrolls k s _ (Nat.le_refl s.left)).trans (h.round_congr ?_)
  intro next t hless
  refine h.agree h.unrolls h.unrolls next t _ _ ?_ (Nat.le_refl _)
  unfold ParseState.left at *
  rw [List.length_tail]
  omega

/-- counted along enough tokens, the loop is every loop without a count -/
theorem eq_endless (h : Counted round counted) {loop : κ → Parse α} (hloop : Endless round loop) (k : κ)
    (s : ParseState) (rounds : List Token) (hrounds : s.left ≤ rounds.length) : counted k rounds s = loop k s := by
  have hunrolls : Unrolls round fun k _ => loop k := fun k s _ _ => congrFun (hloop k) s
  exact h.agree h.unrolls hunrolls k s rounds rounds hrounds hrounds

theorem endsByItself (h : Counted round counted) : EndsByItself round counted := by
  refine ⟨⟨_, h.endless, ?_⟩, fun loop => h.eq_endless⟩
  intro loop hloop
  funext k s
  exact (h.eq_endless hloop k s s.cursor.ahead (Nat.le_refl _)).symm

end Counted

/-! ## The loops of reading -/

/-- an argument and the separator behind it -/
def argumentRound (argument : Parse Tree) (found : List Tree) : Parse (List Tree ⊕ List Tree) := do
  let tree ← argument
  let separator ← advance
  if separator.kind = .closeParen then
    return .inr (tree :: found).reverse
  else if separator.kind = .comma then
    return .inl (tree :: found)
  else
    expected .commaOrClose separator

/-- an operator above the threshold with its right side, or the end of the operators -/
def operatorRound (right : Nat → Parse Tree) (threshold : Nat) (left : Tree) : Parse (Tree ⊕ Tree) := do
  match ← kindAt 0 with
  | none => return .inr left
  | some kind =>
    match kind.operator? with
    | none => return .inr left
    | some op =>
      if kind.precedence ≤ threshold then
        return .inr left
      else
        let _ ← advance
        let tree ← right kind.precedence
        return .inl (.binary op left tree)

/-- a parameter and the separator behind it -/
def parameterRound (found : List Parameter) : Parse (List Parameter ⊕ List Parameter) := do
  let name ← expect .name .argumentName
  let type ← expect .name .argumentType
  if name.name ∈ found.map (·.name) then
    violate (.redeclaredVariable name.name) name
  else
    let found := ⟨name.name, type.name⟩ :: found
    let separator ← advance
    if separator.kind = .closeParen then
      return .inr found.reverse
    else if separator.kind = .comma then
      return .inl found
    else
      expected .commaOrClose separator

/-- a statement of a body, or its closing brace -/
def blockRound (depth : Nat) (found : List Tree) : Parse (List Tree ⊕ List Tree) := do
  let token ← current
  if token.kind = .closeBrace then
    let _ ← advance
    return .inr found.reverse
  else
    let tree ← bodyStatement depth
    return .inl (tree :: found)

/-- a statement of a program, or its end -/
def statementRound (depth : Nat) (found : List Tree) : Parse (List Tree ⊕ List Tree) := do
  if ← exhausted then
    return .inr found.reverse
  else
    let tree ← statement depth
    return .inl (tree :: found)

theorem behind_of_advance {x : Token} {t : ParseState} (h : advance s = .ok x t) : s.Behind 1 t :=
  (advance_eq_ok.1 h).behind

theorem behind_of_expect {kind : TokenKind} {wanted : Wanted} {x : Token} {t : ParseState}
    (h : expect kind wanted s = .ok x t) : s.Behind 1 t :=
  (expect_eq_ok.1 h).2.behind

theorem current_of_end (h : s.left = 0) : current s = .error (s.cursor.missing 0) s := by
  obtain ⟨⟨passed, tokens⟩, functions, finished, declared⟩ := s
  obtain rfl : tokens = [] := List.length_eq_zero_iff.1 h
  rfl

theorem expect_of_end (h : s.left = 0) (kind : TokenKind) (wanted : Wanted) :
    expect kind wanted s = .error (s.cursor.missing 0) s :=
  Step.bind_of_error (current_of_end h) _

theorem counted_arguments {argument : Parse Tree} (hend : ∀ s, s.left = 0 → argument s = .error (s.cursor.missing 0) s)
    (htakes : ∀ {s tree t}, argument s = .ok tree t → s.Behind 1 t) :
    Counted (argumentRound argument) (arguments argument) where
  cons found x rounds := by
    rw [arguments, argumentRound, bind_assoc]
    refine bind_congr fun tree => ?_
    rw [bind_assoc]
    refine bind_congr fun separator => ?_
    split
    · rfl
    · split
      · rfl
      · rfl
  nil found s hs next := by
    rw [argumentRound, bind_assoc, Step.bind_of_error (hend s hs)]
    rfl
  takes := by
    intro found next s t h
    obtain ⟨tree, u, hargument, h⟩ := Step.bind_eq_ok.1 h
    obtain ⟨separator, v, hadvance, h⟩ := Step.bind_eq_ok.1 h
    have hfirst := (htakes hargument).left
    have hsecond := (behind_of_advance hadvance).left
    split_ifs at h
    · cases h
    · cases h
      omega
    · cases h

theorem counted_operators {right : Nat → Parse Tree}
    (htakes : ∀ {precedence s tree t}, right precedence s = .ok tree t → s.Behind 1 t) (threshold : Nat) :
    Counted (operatorRound right threshold) (operators right threshold) where
  cons left x rounds := by
    rw [operators, operatorRound, bind_assoc]
    refine bind_congr fun kind => ?_
    cases kind with
    | none => rfl
    | some kind =>
      dsimp only
      cases kind.operator? with
      | none => rfl
      | some op =>
        dsimp only
        split
        · rfl
        · rw [bind_assoc]
          refine bind_congr fun _ => ?_
          rw [bind_assoc]
          rfl
  nil left s hs next := by
    obtain ⟨⟨passed, tokens⟩, functions, finished, declared⟩ := s
    obtain rfl : tokens = [] := List.length_eq_zero_iff.1 hs
    rfl
  takes := by
    intro left next s t h
    rw [operatorRound, Step.bind_of_ok (kindAt_zero s)] at h
    cases hkind : s.cursor.ahead.head?.map Token.kind with
    | none =>
      rw [hkind] at h
      cases h
    | some kind =>
      rw [hkind] at h
      dsimp only at h
      cases hop : kind.operator? with
      | none =>
        rw [hop] at h
        cases h
      | some op =>
        rw [hop] at h
        dsimp only at h
        split_ifs at h
        · cases h
        · obtain ⟨_, u, hadvance, h⟩ := Step.bind_eq_ok.1 h
          obtain ⟨tree, v, hright, h⟩ := Step.bind_eq_ok.1 h
          cases h
          have hfirst := (behind_of_advance hadvance).left
          have hsecond := (htakes hright).left
          omega

theorem counted_parameters : Counted parameterRound parametersAfter where
  cons found x rounds := by
    rw [parametersAfter, parameterRound, bind_assoc]
    refine bind_congr fun name => ?_
    rw [bind_assoc]
    refine bind_congr fun type => ?_
    split
    · rfl
    · rw [bind_assoc]
      refine bind_congr fun separator => ?_
      split
      · rfl
      · split
        · rfl
        · rfl
  nil found s hs next := by
    rw [parameterRound, bind_assoc, Step.bind_of_error (expect_of_end hs _ _)]
    rfl
  takes := by
    intro found next s t h
    obtain ⟨name, u, hname, h⟩ := Step.bind_eq_ok.1 h
    obtain ⟨type, v, htype, h⟩ := Step.bind_eq_ok.1 h
    split_ifs at h
    · cases h
    · obtain ⟨separator, w, hadvance, h⟩ := Step.bind_eq_ok.1 h
      have hfirst := (behind_of_expect hname).left
      have hsecond := (behind_of_expect htype).left
      have hthird := (behind_of_advance hadvance).left
      split_ifs at h
      · cases h
      · cases h
        omega
      · cases h

theorem counted_block (depth : Nat) : Counted (blockRound depth) (block depth) where
  cons found x rounds := by
    rw [block, blockRound, bind_assoc]
    refine bind_congr fun token => ?_
    split
    · rw [bind_assoc]
      rfl
    · rw [bind_assoc]
      rfl
  nil found s hs next := by
    rw [blockRound, bind_assoc, Step.bind_of_error (current_of_end hs)]
    rfl
  takes := by
    intro found next s t h
    obtain ⟨token, u, hcurrent, h⟩ := Step.bind_eq_ok.1 h
    obtain ⟨-, rfl⟩ := current_eq_ok.1 hcurrent
    split_ifs at h
    · obtain ⟨_, v, -, h⟩ := Step.bind_eq_ok.1 h
      cases h
    · obtain ⟨r, v, hstatement, h⟩ := Step.bind_eq_ok.1 h
      cases h
      exact (behind_of_bodyStatement hstatement).left

theorem counted_statements (depth : Nat) : Counted (statementRound depth) (statements depth) where
  cons found x rounds := by
    rw [statements, statementRound, bind_assoc]
    refine bind_congr fun done => ?_
    split
    · rfl
    · rw [bind_assoc]
      rfl
  nil found s hs next := by
    obtain ⟨⟨passed, tokens⟩, functions, finished, declared⟩ := s
    obtain rfl : tokens = [] := List.length_eq_zero_iff.1 hs
    rfl
  takes := by
    intro found next s t h
    rw [statementRound, Step.bind_of_ok (exhausted_apply s)] at h
    split_ifs at h
    · cases h
    · obtain ⟨tree, u, hstatement, h⟩ := Step.bind_eq_ok.1 h
      cases h
      exact (behind_of_statement hstatement).left

namespace Readers.Unfolds

variable {r : Readers}

theorem endsByItself_arguments (h : r.Unfolds) :
    EndsByItself (argumentRound r.expression) (arguments r.expression) := by
  refine (counted_arguments ?_ ?_).endsByItself
  · intro s hs
    rw [h.expression]
    exact Step.bind_of_error (current_of_end hs) _
  · intro s tree t hread
    rw [← h.expression_eq (Nat.le_refl _)] at hread
    exact behind_of_expression hread

theorem endsByItself_operators (h : r.Unfolds) (threshold : Nat) :
    EndsByItself (operatorRound r.arithmetic threshold) (operators r.arithmetic threshold) := by
  refine (counted_operators ?_ threshold).endsByItself
  intro precedence s tree t hread
  rw [← h.arithmetic_eq (Nat.le_refl _)] at hread
  exact behind_of_arithmetic hread

end Readers.Unfolds

/-! ## Reading as a whole -/

/-- a step that succeeds has moved on in the row of tokens, at most to its end -/
def Advances (x : Parse α) : Prop :=
  ∀ s a t, x s = .ok a t → t.cursor.tokens = s.cursor.tokens ∧ s.cursor.position < t.cursor.position ∧
    t.cursor.position ≤ s.cursor.tokens.length

theorem Advances.of_behind {x : Parse α} {count : Nat} (hcount : 0 < count)
    (h : ∀ {s a t}, x s = .ok a t → s.Behind count t) : Advances x := by
  intro s a t hx
  exact ⟨(h hx).tokens, (h hx).position_lt hcount⟩

/-- reading needs no bounds -/
structure ReadingEnds : Prop where
  /-- the readers of expressions call each other without levels in exactly one way -/
  readers : ∃! r : Readers, r.Unfolds
  /-- with levels enough for the tokens ahead, the readers with levels are those without -/
  levels : ∀ r : Readers, r.Unfolds → ∀ depth s,
    (2 * s.left + 3 ≤ depth → expression depth s = r.expression s) ∧
    (2 * s.left + 2 ≤ depth → ∀ threshold, arithmetic depth threshold s = r.arithmetic threshold s) ∧
    (2 * s.left + 1 ≤ depth → operand depth s = r.operand s)
  arguments : ∀ r : Readers, r.Unfolds → EndsByItself (argumentRound r.expression) (arguments r.expression)
  operators : ∀ r : Readers, r.Unfolds → ∀ threshold,
    EndsByItself (operatorRound r.arithmetic threshold) (operators r.arithmetic threshold)
  parameters : EndsByItself parameterRound parametersAfter
  blocks : ∀ depth, EndsByItself (blockRound depth) (block depth)
  statements : ∀ depth, EndsByItself (statementRound depth) (statements depth)
  /-- a program does not nest too deeply for levels enough for its tokens, and more levels make no difference to it -/
  program : ∀ depth s, 2 * s.left + 3 ≤ depth →
    (∀ t, program depth s ≠ .error .tooDeep t) ∧ ∀ more, depth ≤ more → program more s = program depth s

theorem readingEnds : ReadingEnds where
  readers := ⟨_, Readers.unfolds_unbounded, fun _ => Readers.Unfolds.eq_unbounded⟩
  levels r hr depth s := ⟨hr.expression_eq, hr.arithmetic_eq, hr.operand_eq⟩
  arguments r hr := hr.endsByItself_arguments
  operators r hr := hr.endsByItself_operators
  parameters := counted_parameters.endsByItself
  blocks depth := (counted_block depth).endsByItself
  statements depth := (counted_statements depth).endsByItself
  program depth s henough := by
    have hdeep (t : ParseState) : program depth s ≠ .error .tooDeep t :=
      fun h => (takes_program henough s (Nat.le_refl _)).of_error h rfl
    exact ⟨hdeep, fun more hmore => (program_within hmore).eq hdeep⟩

/-- A reader that succeeds has moved on in its row of tokens, though it may go back over a call in between. Reading ends
without any bound: its recursion has exactly one solution, which takes no more levels than twice the tokens ahead and the
rank of the reader, and each of its loops ends by itself. A program has at most as many statements as tokens. -/
theorem reading_advances_and_ends :
    (∀ depth, Advances (statement depth) ∧ Advances (bodyStatement depth) ∧ Advances (expression depth) ∧
      Advances (functionCall (expression depth)) ∧ (∀ threshold, Advances (arithmetic depth threshold)) ∧
      Advances (operand depth)) ∧
    ReadingEnds ∧
    ∀ depth s trees t, program depth s = .ok (.program trees) t → trees.length ≤ s.left := by
  refine ⟨?_, readingEnds, ?_⟩
  · intro depth
    refine ⟨.of_behind Nat.one_pos behind_of_statement, .of_behind Nat.one_pos behind_of_bodyStatement,
      .of_behind Nat.one_pos behind_of_expression, .of_behind (Nat.succ_pos 2) behind_of_functionCall, ?_,
      .of_behind Nat.one_pos behind_of_operand⟩
    intro threshold
    exact .of_behind Nat.one_pos behind_of_arithmetic
  · intro depth s trees t h
    rw [program, Step.bind_of_ok (ahead_apply s)] at h
    obtain ⟨found, u, hread, hpure⟩ := Step.bind_eq_ok.1 h
    cases hpure
    have hlength := length_of_statements hread
    rw [List.length_nil] at hlength
    omega

end StackLang.Parse
