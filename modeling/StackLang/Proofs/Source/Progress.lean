/-
Reading takes tokens, and needs no more levels than the tokens call for.

`Takes room count x`: with at most `room` tokens ahead, the step does not nest too deeply, and if it succeeds it has taken
at least `count` tokens of the row. A step behind another one starts with so much less room. So the readers of expressions
have it by induction on their levels: enough are twice the tokens ahead and the rank of the reader, three for expressions,
two for arithmetic, one for operands (`takesAt`). Going back to the start of a call gives its tokens back but no level:
the call is read again by a reader of lower rank (`takes_again`). What succeeds with fewer levels succeeds alike with
enough of them, so it has taken tokens as well (`behind_of_ok`).
-/
import StackLang.Proofs.Source.Nesting
import StackLang.Proofs.Source.SideBySide

namespace StackLang

open Step (Ensures UpTo)

/-! ## Places -/

/-- the second state stands in the same row of tokens, with at least so many tokens fewer ahead -/
structure ParseState.Behind (count : Nat) (s t : ParseState) : Prop where
  tokens : t.cursor.tokens = s.cursor.tokens
  left : t.left + count ≤ s.left

namespace ParseState.Behind

variable {s t u : ParseState} {count count' : Nat}

theorem refl (s : ParseState) : Behind 0 s s :=
  ⟨rfl, Nat.le_refl _⟩

theorem trans (h : Behind count s t) (h' : Behind count' t u) : Behind (count + count') s u := by
  refine ⟨h'.tokens.trans h.tokens, ?_⟩
  have h₁ := h.left
  have h₂ := h'.left
  omega

theorem mono (h : Behind count s t) (hle : count' ≤ count) : Behind count' s t := by
  refine ⟨h.tokens, ?_⟩
  have hleft := h.left
  omega

/-- in a row of tokens, fewer ahead means further on -/
theorem position_lt (h : Behind count s t) (hpos : 0 < count) :
    s.cursor.position < t.cursor.position ∧ t.cursor.position ≤ s.cursor.tokens.length := by
  have hleft : t.cursor.ahead.length + count ≤ s.cursor.ahead.length := h.left
  have hlength := congrArg List.length h.tokens
  rw [Cursor.length_tokens, Cursor.length_tokens] at hlength
  rw [Cursor.length_tokens]
  unfold Cursor.size at *
  unfold Cursor.position
  omega

end ParseState.Behind

theorem Took.behind {ts : List Token} {s t : ParseState} (h : Took ts s t) : s.Behind ts.length t := by
  refine ⟨?_, ?_⟩
  · unfold Cursor.tokens
    rw [h.ahead, h.passed]
    simp
  · have hlength := h.length
    unfold ParseState.left
    omega

namespace Parse

variable {α β : Type} {room count count' : Nat}

/-! ## Steps that take tokens -/

/-- with at most so much room ahead, the step takes at least so many tokens or fails, but not for want of levels -/
def Takes (room count : Nat) (x : Parse α) : Prop :=
  ∀ s : ParseState, s.left ≤ room → Ensures x s (fun _ t => s.Behind count t) fun fault _ => fault ≠ .tooDeep

namespace Takes

theorem pure (a : α) : Takes room 0 (pure a : Parse α) :=
  fun s _ => .refl s

theorem throw {fault : ParseFault} (h : fault ≠ .tooDeep) : Takes room count (throw fault : Parse α) :=
  fun _ _ => h

theorem mono {room' : Nat} {x : Parse α} (h : Takes room count x) (hroom : room' ≤ room) (hcount : count' ≤ count) :
    Takes room' count' x :=
  fun s hs => (h s (hs.trans hroom)).imp (fun _ _ ht => ht.mono hcount) fun _ _ hfault => hfault

/-- a step behind another one has so much less room, and so many tokens less to take -/
theorem bind {x : Parse α} {f : α → Parse β} (hx : Takes room count x)
    (hf : count ≤ room → ∀ a, Takes (room - count) (count' - count) (f a)) : Takes room count' (x >>= f) := by
  intro s hs
  refine (hx s hs).bind ?_
  intro a t ht
  have hleft := ht.left
  refine (hf (by omega) a t (by omega)).imp ?_ fun _ _ hfault => hfault
  intro b u hu
  exact (ht.trans hu).mono (by omega)

/-- behind a look at the state -/
theorem after {x : Parse α} {f : α → Parse β} (hx : Takes room 0 x) (hf : ∀ a, Takes room count (f a)) :
    Takes room count (x >>= f) :=
  hx.bind fun _ => hf

/-- in front of what takes no tokens -/
theorem before {x : Parse α} {f : α → Parse β} (hx : Takes room count x) (hf : ∀ a, Takes (room - count) 0 (f a)) :
    Takes room count (x >>= f) := by
  refine hx.bind fun _ a => ?_
  rw [Nat.sub_self]
  exact hf a

theorem refuse (fault : GrammarFault) (token : Token) : Takes room count (Parse.refuse fault token : Parse α) :=
  throw (by simp)

theorem violate (violation : Violation) (token : Token) : Takes room count (Parse.violate violation token : Parse α) :=
  throw (by simp)

theorem expected (wanted : Wanted) (token : Token) : Takes room count (Parse.expected wanted token : Parse α) :=
  refuse _ _

theorem get : Takes room 0 (get : Parse ParseState) :=
  fun s _ => .refl s

theorem kindAt (distance : Int) : Takes room 0 (kindAt distance) :=
  get.after fun _ => pure _

theorem ahead : Takes room 0 ahead :=
  get.after fun _ => pure _

theorem exhausted : Takes room 0 exhausted :=
  get.after fun _ => pure _

theorem checkAt (token : Token) (e : Except Violation α) : Takes room 0 (checkAt token e) := by
  cases e with
  | ok a => exact pure a
  | error violation => exact violate _ _

theorem missing (s : ParseState) : s.cursor.missing 0 ≠ .tooDeep := by
  simp [Cursor.missing]

section

variable {change : ParseState → ParseState} (hchange : ∀ s, (change s).cursor = s.cursor)
include hchange

/-- a change of the state that does not move the cursor -/
theorem modify : Takes room 0 (modify change : Parse PUnit) := by
  intro s _
  have hcursor := hchange s
  exact ⟨congrArg Cursor.tokens hcursor, by simp [ParseState.left, hcursor]⟩

theorem leaving {x : Parse α} (h : Takes room count x) : Takes room count (Step.leaving change x) := by
  intro s hs
  refine Ensures.leaving ((h s hs).imp ?_ fun _ _ hfault => hfault)
  intro _ t ht
  have hcursor := hchange t
  exact ⟨(congrArg Cursor.tokens hcursor).trans ht.tokens, by simpa [ParseState.left, hcursor] using ht.left⟩

end

theorem declare (name : Token) : Takes room 0 (declare name) := by
  refine get.after fun s => ?_
  split
  · exact pure _
  · split
    · exact violate _ _
    · exact modify (by intro; rfl)

theorem endOfInput : Takes room count (endOfInput : Parse α) :=
  get.after fun s => throw (missing s)

/-- where a token is seen there is room for one -/
theorem current {f : Token → Parse β} (hf : 0 < room → ∀ token, Takes room count (f token)) :
    Takes room count (current >>= f) := by
  intro s hs
  obtain ⟨⟨passed, tokens⟩, functions, finished, declared⟩ := s
  cases tokens with
  | nil => exact missing ⟨⟨passed, []⟩, functions, finished, declared⟩
  | cons x rest =>
    unfold Ensures
    rw [Step.bind_of_ok current_cons]
    exact hf (Nat.lt_of_lt_of_le (Nat.succ_pos _) hs) x _ hs

theorem advance : Takes room 1 advance := by
  intro s hs
  obtain ⟨⟨passed, tokens⟩, functions, finished, declared⟩ := s
  cases tokens with
  | nil => exact missing ⟨⟨passed, []⟩, functions, finished, declared⟩
  | cons x rest => exact (advance_eq_ok.1 advance_cons).behind

theorem expect (kind : TokenKind) (wanted : Wanted) : Takes room 1 (expect kind wanted) := by
  refine current fun _ token => ?_
  split
  · exact advance
  · exact expected _ _

end Takes

/-! ## Expressions -/

section

variable {argument : Parse Tree}

theorem takes_arguments (h : Takes room 1 argument) (rounds : List Token) (found : List Tree) :
    Takes room 2 (arguments argument found rounds) := by
  induction rounds generalizing found with
  | nil => exact .endOfInput
  | cons _ rounds ih =>
    refine h.bind fun _ tree => Takes.advance.before fun separator => ?_
    split
    · exact .pure _
    · split
      · exact (ih (tree :: found)).mono (by omega) (by omega)
      · exact .expected _ _

/-- a call takes its name and its parentheses; the arguments have two tokens less ahead -/
theorem takes_functionCall (h : 2 ≤ room → Takes (room - 2) 1 argument) : Takes room 3 (functionCall argument) := by
  refine (Takes.expect _ _).bind fun _ name => .after .get fun s => .after (.checkAt _ _) fun _ => ?_
  refine (Takes.expect _ _).bind fun hroom _ => .current fun _ next => ?_
  split
  · exact Takes.advance.before fun _ => .pure _
  · refine .after .ahead fun rounds => Takes.before ?_ fun _ => .pure _
    exact (takes_arguments (h (by omega)) rounds []).mono (by omega) (by omega)

theorem takes_callOperand (h : 2 ≤ room → Takes (room - 2) 1 argument) : Takes room 3 (callOperand argument) := by
  refine .current fun _ name => (takes_functionCall h).before fun call => .after .get fun s => ?_
  refine .after (.checkAt _ _) fun signature => ?_
  split
  · exact .pure _
  · exact .violate _ _

end

theorem takes_numberLiteral (token : Token) : Takes room 1 (numberLiteral token) := by
  refine Takes.advance.before fun _ => ?_
  split
  · exact .throw (by simp)
  · split
    · exact .pure _
    · exact .violate _ _

/-- every round of operators takes the operator and a right side -/
theorem takes_operators {right : Nat → Parse Tree} (h : 1 ≤ room → ∀ precedence, Takes (room - 1) 1 (right precedence))
    (threshold : Nat) (rounds : List Token) (left : Tree) : Takes room 0 (operators right threshold left rounds) := by
  induction rounds generalizing left with
  | nil => exact .pure _
  | cons _ rounds ih =>
    refine .after (.kindAt 0) fun kind => ?_
    split
    · exact .pure _
    · split
      · exact .pure _
      · split
        · exact .pure _
        · refine Takes.advance.bind fun hroom _ => (h hroom _).bind fun _ tree => ?_
          exact (ih _).mono (by omega) (by omega)

/-- going back over a call gives its tokens back, and the second reading takes them anew -/
theorem takes_callExpression {depth : Nat} {again : Parse Tree} (hcall : Takes room 1 (functionCall (expression depth)))
    (hagain : Takes room 1 again) : Takes room 1 (callExpression (expression depth) again) := by
  intro s hs
  cases hrun : functionCall (expression depth) s with
  | error fault t =>
    rw [Ensures, callExpression_of_error hrun]
    exact (hcall s hs).of_error hrun
  | ok call t =>
    rw [Ensures, callExpression_of_call hrun]
    split_ifs
    · refine (hagain { t with cursor := s.cursor } hs).imp ?_ fun _ _ hfault => hfault
      intro _ u hu
      exact ⟨hu.tokens, hu.left⟩
    · exact (hcall s hs).of_ok hrun

/-- the readers of expressions take tokens, and have levels enough with twice the tokens ahead and their rank -/
structure TakesAt (depth : Nat) : Prop where
  expression : ∀ {room}, 2 * room + 3 ≤ depth → Takes room 1 (expression depth)
  arithmetic : ∀ {room}, 2 * room + 2 ≤ depth → ∀ threshold, Takes room 1 (arithmetic depth threshold)
  operand : ∀ {room}, 2 * room + 1 ≤ depth → Takes room 1 (operand depth)

section

variable {depth : Nat} (ih : TakesAt depth)
include ih

theorem takes_expression (hdepth : 2 * room + 3 ≤ depth + 1) : Takes room 1 (expression (depth + 1)) := by
  have harithmetic := ih.arithmetic (by omega : 2 * room + 2 ≤ depth) 0
  rw [expression]
  refine .current fun _ token => .after (.kindAt 1) fun following => ?_
  split
  · exact harithmetic
  · split
    · refine .after (.kindAt (-1)) fun before => ?_
      split
      · -- the arguments stand behind two tokens of the call
        have hcall := takes_functionCall fun _ => ih.expression (by omega : 2 * (room - 2) + 3 ≤ depth)
        exact takes_callExpression (hcall.mono (Nat.le_refl _) (by omega)) harithmetic
      · exact Takes.advance.before fun _ => .pure _
    · exact .expected _ _

theorem takes_arithmetic (hdepth : 2 * room + 2 ≤ depth + 1) (threshold : Nat) :
    Takes room 1 (arithmetic (depth + 1) threshold) := by
  rw [arithmetic]
  refine (ih.operand (by omega)).bind fun _ left => .after .ahead fun rounds => ?_
  exact takes_operators (fun _ => ih.arithmetic (by omega)) threshold rounds left

theorem takes_operand (hdepth : 2 * room + 1 ≤ depth + 1) : Takes room 1 (operand (depth + 1)) := by
  rw [operand]
  refine .current fun _ token => ?_
  split
  · exact takes_numberLiteral token
  · refine .after (.kindAt 1) fun following => ?_
    split
    · exact (takes_callOperand fun _ => ih.expression (by omega)).mono (Nat.le_refl _) (by omega)
    · exact Takes.advance.before fun _ => .pure _
  · refine Takes.advance.bind fun _ _ => .bind (ih.arithmetic (by omega) 0) fun _ inner => ?_
    exact (Takes.expect _ _).bind fun _ _ => .pure _
  · exact Takes.advance.bind fun _ _ => .bind (ih.operand (by omega)) fun _ _ => .pure _
  · exact Takes.advance.bind fun _ _ => .bind (ih.operand (by omega)) fun _ _ => .pure _
  · exact .expected _ _

end

theorem takesAt (depth : Nat) : TakesAt depth := by
  induction depth with
  | zero => exact ⟨fun h => by omega, fun h => by omega, fun h => by omega⟩
  | succ depth ih => exact ⟨takes_expression ih, takes_arithmetic ih, takes_operand ih⟩

/-! ## Statements and programs -/

section

variable {depth : Nat} (hdepth : 2 * room + 3 ≤ depth)
include hdepth

theorem takes_valueToSemicolon : Takes room 1 (valueToSemicolon depth) := by
  refine ((takesAt depth).expression hdepth).bind fun _ value => ?_
  exact (Takes.expect _ _).bind fun _ _ => .pure _

theorem takes_declaration : Takes room 1 (declaration depth) := by
  refine (Takes.expect _ _).bind fun _ name => (Takes.expect _ _).bind fun _ type => ?_
  refine (Takes.expect _ _).bind fun _ _ => ?_
  exact (takes_valueToSemicolon (by omega)).bind fun _ _ => .pure _

theorem takes_plainStatement (token : Token) : Takes room 1 (plainStatement depth token) := by
  unfold plainStatement
  split
  · exact Takes.advance.bind fun _ _ => .bind (takes_valueToSemicolon (by omega)) fun _ _ => .pure _
  · refine .after (.kindAt 1) fun following => ?_
    split
    · refine Takes.advance.bind fun _ _ => Takes.advance.bind fun _ _ => ?_
      exact (takes_valueToSemicolon (by omega)).bind fun _ _ => .pure _
    · refine Takes.advance.bind fun _ _ => Takes.advance.bind fun _ _ => (Takes.expect _ _).bind fun _ _ => ?_
      exact (takes_valueToSemicolon (by omega)).bind fun _ _ => .pure _
    · refine (takes_functionCall fun _ => (takesAt depth).expression (by omega)).bind fun _ call => ?_
      exact (Takes.expect _ _).bind fun _ _ => .pure _
    · exact .refuse _ _
  · exact .refuse _ _

theorem takes_newVariable : Takes room 1 (newVariable depth) :=
  (takes_declaration hdepth).before fun _ => .after (.declare _) fun _ => .pure _

theorem takes_bodyStatement : Takes room 1 (bodyStatement depth) := by
  refine .current fun _ token => ?_
  split
  · exact .violate _ _
  · exact Takes.advance.bind fun _ _ => (takes_newVariable (by omega)).mono (Nat.le_refl _) (by omega)
  · exact takes_plainStatement hdepth token

theorem takes_block (rounds : List Token) (found : List Tree) : Takes room 1 (block depth found rounds) := by
  induction rounds generalizing found with
  | nil => exact .endOfInput
  | cons _ rounds ih =>
    refine .current fun _ token => ?_
    split
    · exact Takes.advance.before fun _ => .pure _
    · exact (takes_bodyStatement hdepth).bind fun _ tree => (ih (tree :: found)).mono (by omega) (by omega)

theorem takes_body (parameters : List Parameter) : Takes room 1 (body depth parameters) := by
  refine Takes.leaving (by intro; rfl) ?_
  exact .after (.modify (by intro; rfl)) fun _ => .after .ahead fun rounds => takes_block hdepth rounds []

end

theorem takes_parametersAfter (rounds : List Token) (found : List Parameter) :
    Takes room 1 (parametersAfter found rounds) := by
  induction rounds generalizing room found with
  | nil => exact .endOfInput
  | cons _ rounds ih =>
    refine (Takes.expect _ _).bind fun _ name => (Takes.expect _ _).bind fun _ type => ?_
    split
    · exact .violate _ _
    · refine Takes.advance.bind fun _ separator => ?_
      split
      · exact .pure _
      · split
        · exact (ih _).mono (Nat.le_refl _) (by omega)
        · exact .expected _ _

theorem takes_parameters : Takes room 1 parameters := by
  refine .current fun _ next => ?_
  split
  · exact Takes.advance.before fun _ => .pure _
  · exact .after .ahead fun rounds => takes_parametersAfter rounds []

theorem takes_returnType : Takes room 0 returnType := by
  refine .current fun _ next => ?_
  split
  · exact Takes.advance.bind fun _ _ => .pure _
  · exact .pure _
  · exact .expected _ _

section

variable {depth : Nat} (hdepth : 2 * room + 3 ≤ depth)
include hdepth

theorem takes_definition : Takes room 1 (definition depth) := by
  refine (Takes.expect _ _).bind fun _ name => (Takes.expect _ _).bind fun _ _ => ?_
  refine takes_parameters.bind fun _ parameters => ?_
  refine takes_returnType.bind fun _ returns => (Takes.expect _ _).bind fun _ _ => ?_
  refine (takes_body (by omega) parameters).bind fun _ body => .after .get fun s => ?_
  refine .after (.checkAt _ _) fun table => ?_
  exact .after (.modify (by intro; rfl)) fun _ => .pure _

theorem takes_statement : Takes room 1 (statement depth) := by
  refine .current fun _ token => .after .get fun s => ?_
  split
  · exact Takes.advance.bind fun _ _ => (takes_definition (by omega)).mono (Nat.le_refl _) (by omega)
  · exact takes_bodyStatement hdepth

theorem takes_statements (rounds : List Token) (found : List Tree) : Takes room 0 (statements depth found rounds) := by
  induction rounds generalizing found with
  | nil => exact .pure _
  | cons _ rounds ih =>
    refine .after .exhausted fun done => ?_
    split
    · exact .pure _
    · exact (takes_statement hdepth).bind fun _ tree => (ih (tree :: found)).mono (by omega) (by omega)

theorem takes_program : Takes room 0 (program depth) :=
  .after .ahead fun rounds => (takes_statements hdepth rounds []).before fun _ => .pure _

end

/-! ## With any number of levels -/

/-- what succeeds with some levels succeeds in the same way with enough of them, and so takes tokens -/
theorem behind_of_ok {x : Nat → Parse α} (hwithin : ∀ {levels more}, levels ≤ more → Within (x levels) (x more))
    (htakes : ∀ {room depth}, 2 * room + 3 ≤ depth → Takes room count (x depth)) {depth : Nat} {s t : ParseState}
    {a : α} (h : x depth s = .ok a t) : s.Behind count t := by
  have hmore := (hwithin (Nat.le_max_left depth (2 * s.left + 3))).eq (s := s) (by simp [h])
  exact (htakes (Nat.le_max_right depth _) s (Nat.le_refl _)).of_ok (hmore.trans h)

section

variable {depth : Nat} {s t : ParseState} {tree : Tree}

theorem behind_of_expression (h : expression depth s = .ok tree t) : s.Behind 1 t :=
  behind_of_ok (fun hle => (withinAt hle).expression) (fun hdepth => (takesAt _).expression hdepth) h

theorem behind_of_arithmetic {threshold : Nat} (h : arithmetic depth threshold s = .ok tree t) : s.Behind 1 t :=
  behind_of_ok (x := fun depth => arithmetic depth threshold) (fun hle => (withinAt hle).arithmetic threshold)
    (fun hdepth => (takesAt _).arithmetic (by omega) threshold) h

theorem behind_of_operand (h : operand depth s = .ok tree t) : s.Behind 1 t :=
  behind_of_ok (fun hle => (withinAt hle).operand) (fun hdepth => (takesAt _).operand (by omega)) h

theorem behind_of_functionCall (h : functionCall (expression depth) s = .ok tree t) : s.Behind 3 t :=
  behind_of_ok (x := fun depth => functionCall (expression depth))
    (fun hle => functionCall_within (withinAt hle).expression)
    (fun hdepth => takes_functionCall fun _ => (takesAt _).expression (by omega)) h

theorem behind_of_bodyStatement (h : bodyStatement depth s = .ok tree t) : s.Behind 1 t :=
  behind_of_ok (fun hle => bodyStatement_within hle) (fun hdepth => takes_bodyStatement hdepth) h

theorem behind_of_statement (h : statement depth s = .ok tree t) : s.Behind 1 t :=
  behind_of_ok (fun hle => statement_within hle) (fun hdepth => takes_statement hdepth) h

end

/-- every statement that is read takes a token of its own -/
theorem length_of_statements {depth : Nat} {rounds : List Token} {found trees : List Tree} {s t : ParseState}
    (h : statements depth found rounds s = .ok trees t) : trees.length + t.left ≤ found.length + s.left := by
  induction rounds generalizing found s with
  | nil =>
    cases h
    simp
  | cons x rounds ih =>
    rw [statements, Step.bind_of_ok (exhausted_apply s)] at h
    split at h
    · cases h
      simp
    · obtain ⟨tree, u, hfirst, hrest⟩ := Step.bind_eq_ok.1 h
      have hleft := (behind_of_statement hfirst).left
      have hlength := ih hrest
      rw [List.length_cons] at hlength
      omega

end Parse

end StackLang
