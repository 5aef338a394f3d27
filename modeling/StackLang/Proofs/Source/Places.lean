/-
Where reading stands and where its faults are told.

A reading step stays in its row of tokens and ends no further to the front than it started, in both outcomes and in
spite of going back to a call; and a fault other than nesting too deeply is told at a token of the row (`Placed`). At the
end of input the last token is blamed, so the row must not be empty, and inside a statement it is not. Moves of the
cursor that lead outside its row do not occur: behind a call the cursor can always go back (`functionCall_restores`).
`placed_statement` says so of single statements, `placed_statements` of whole programs.
-/
import StackLang.Proofs.Source.Moves
import StackLang.Source.Statement

namespace StackLang

open Step (Ensures)

namespace Cursor

variable {c c' : Cursor}

theorem last?_eq (c : Cursor) : c.last? = c.tokens.getLast? := by
  rw [last?, tokens, List.getLast?_append, List.getLast?_reverse]

/-- a cursor is its row and its position in it -/
theorem eq_of_row (hrow : c.tokens = c'.tokens) (hposition : c.position = c'.position) : c = c' := by
  obtain ⟨passed, ahead⟩ := c
  obtain ⟨passed', ahead'⟩ := c'
  have hlength : passed.reverse.length = passed'.reverse.length := by simpa [position] using hposition
  obtain ⟨hpassed, hahead⟩ := List.append_inj hrow hlength
  exact congrArg₂ Cursor.mk (List.reverse_injective hpassed) hahead

/-- from behind an earlier place of the row the cursor goes back to that place -/
theorem restore_of_row (hrow : c'.tokens = c.tokens) (hposition : c.position ≤ c'.position) :
    c'.restore c.position = .ok (c'.position - c.position, c) := by
  have hback : c'.back (c'.position - c.position) = c := by
    apply eq_of_row
    · rw [tokens_back, hrow]
    · rw [position_back]
      omega
  rw [restore, if_neg (Nat.not_lt.2 hposition), hback]

end Cursor

/-- a fault that reading a row of tokens may end with: told at a token of the row, unless it is about depth -/
inductive ParseFault.ToldIn (row : List Token) : ParseFault → Prop
  | endOfInput {x : Token} : row.getLast? = some x → ToldIn row (.syntactic .endOfInput (some x.position))
  | expected {wanted : Wanted} {x : Token} : x ∈ row → ToldIn row (.syntactic (.expected wanted x) (some x.position))
  | unknownStatement {x : Token} : x ∈ row → ToldIn row (.syntactic (.unknownStatement x) (some x.position))
  | semantic {violation : Violation} {x : Token} : x ∈ row → ToldIn row (.semantic violation (some x.position))
  | numberWithoutText {x : Token} : x ∈ row → x.kind = .number → x.text = none → ToldIn row .numberWithoutText
  | tooDeep : ToldIn row .tooDeep

namespace Parse

/-- a row with tokens in it, and a position from which reading starts -/
structure Stretch where
  row : List Token
  origin : Nat
  occupied : row ≠ []

/-- the cursor stands in the row, not in front of the origin -/
structure Stretch.Holds (e : Stretch) (s : ParseState) : Prop where
  row : s.cursor.tokens = e.row
  origin : e.origin ≤ s.cursor.position

/-- a step that stays in the stretch in both outcomes and tells its faults there; a result is good -/
def Placed {α : Type} (e : Stretch) (x : Parse α) (good : α → Prop) : Prop :=
  ∀ s, e.Holds s →
    Ensures x s (fun a s' => e.Holds s' ∧ good a) (fun fault s' => e.Holds s' ∧ fault.ToldIn e.row)

variable {α β : Type} {e : Stretch} {x : Parse α} {good : α → Prop} {next : β → Prop}

/-! ## Moves -/

theorem Placed.bind {f : α → Parse β} (h : Placed e x good) (hf : ∀ a, good a → Placed e (f a) next) :
    Placed e (x >>= f) next :=
  fun s hs => Ensures.bind (h s hs) fun a t ht => hf a ht.2 t ht.1

theorem placed_pure {a : α} (h : good a) : Placed e (pure a) good :=
  fun _ hs => ⟨hs, h⟩

theorem placed_throw {fault : ParseFault} (h : fault.ToldIn e.row) : Placed e (throw fault) good :=
  fun _ hs => ⟨hs, h⟩

theorem placed_expected (wanted : Wanted) {t : Token} (h : t ∈ e.row) : Placed e (expected wanted t) good :=
  placed_throw (.expected h)

theorem placed_violate (violation : Violation) {t : Token} (h : t ∈ e.row) : Placed e (violate violation t) good :=
  placed_throw (.semantic h)

theorem placed_get : Placed e get e.Holds :=
  fun _ hs => ⟨hs, hs⟩

theorem placed_kindAt (distance : Int) : Placed e (kindAt distance) (fun _ => True) :=
  fun _ hs => ⟨hs, trivial⟩

theorem placed_ahead : Placed e ahead (fun _ => True) :=
  fun _ hs => ⟨hs, trivial⟩

section

variable {change : ParseState → ParseState} (hchange : ∀ s, (change s).cursor = s.cursor)
include hchange

theorem Stretch.Holds.changed {s : ParseState} (hs : e.Holds s) : e.Holds (change s) := by
  constructor
  · rw [hchange, hs.row]
  · rw [hchange]
    exact hs.origin

/-- a change of the state that does not move the cursor -/
theorem placed_modify : Placed e (modify change) (fun _ => True) :=
  fun _ hs => ⟨hs.changed hchange, trivial⟩

theorem Placed.leaving (h : Placed e x good) : Placed e (Step.leaving change x) good :=
  fun s hs => Ensures.leaving ((h s hs).imp (fun _ _ ht => ⟨ht.1.changed hchange, ht.2⟩) fun _ _ ht =>
    ⟨ht.1.changed hchange, ht.2⟩)

end

/-- the end of input is told at the last token of the row -/
theorem toldIn_missing {s : ParseState} (hs : e.Holds s) : (s.cursor.missing 0).ToldIn e.row := by
  have hlast : s.cursor.last? = e.row.getLast? := by
    rw [s.cursor.last?_eq, hs.row]
  have hsome := List.getLast?_eq_some_getLast e.occupied
  unfold Cursor.missing
  rw [if_neg (lt_irrefl 0), hlast, hsome]
  exact .endOfInput hsome

theorem placed_endOfInput : Placed e endOfInput good :=
  fun _ hs => ⟨hs, toldIn_missing hs⟩

theorem placed_checkAt {t : Token} (h : t ∈ e.row) (check : Except Violation α) :
    Placed e (checkAt t check) (fun _ => True) := by
  cases check with
  | ok a => exact placed_pure trivial
  | error violation => exact placed_violate violation h

theorem Stretch.Holds.mem_of_ahead {s : ParseState} {t : Token} {rest : List Token} (hs : e.Holds s)
    (h : s.cursor.ahead = t :: rest) : t ∈ e.row := by
  rw [← hs.row, Cursor.tokens, h]
  exact List.mem_append_right _ List.mem_cons_self

theorem placed_current : Placed e current (· ∈ e.row) := by
  intro s hs
  obtain ⟨⟨passed, tokens⟩, functions, finished, declared⟩ := s
  cases tokens with
  | nil => exact ⟨hs, toldIn_missing hs⟩
  | cons t rest => exact ⟨hs, hs.mem_of_ahead rfl⟩

theorem placed_advance : Placed e advance (· ∈ e.row) := by
  intro s hs
  obtain ⟨⟨passed, tokens⟩, functions, finished, declared⟩ := s
  cases tokens with
  | nil => exact ⟨hs, toldIn_missing hs⟩
  | cons t rest =>
    obtain ⟨hrow, hposition, -⟩ := Cursor.advance_eq (c := ⟨passed, t :: rest⟩) rfl
    exact ⟨⟨hrow.trans hs.row, hs.origin.trans (hposition ▸ Nat.le_succ _)⟩, hs.mem_of_ahead rfl⟩

theorem placed_expect (kind : TokenKind) (wanted : Wanted) : Placed e (expect kind wanted) (· ∈ e.row) := by
  refine placed_current.bind fun t ht => ?_
  split
  · exact placed_advance
  · exact placed_expected wanted ht

/-! ## Expressions -/

/-- a phrase without a condition on its tree -/
abbrev PlacedPhrase (e : Stretch) (x : Parse α) : Prop :=
  Placed e x (fun _ => True)

theorem placed_arguments {argument : Parse Tree} (h : PlacedPhrase e argument) (rounds : List Token)
    (found : List Tree) : PlacedPhrase e (arguments argument found rounds) := by
  induction rounds generalizing found with
  | nil => exact placed_endOfInput
  | cons _ rounds ih =>
    refine h.bind fun tree _ => placed_advance.bind fun separator hseparator => ?_
    split
    · exact placed_pure trivial
    · split
      · exact ih (tree :: found)
      · exact placed_expected _ hseparator

theorem placed_functionCall {argument : Parse Tree} (h : PlacedPhrase e argument) :
    PlacedPhrase e (functionCall argument) := by
  refine (placed_expect _ _).bind fun name hname => placed_get.bind fun s _ => ?_
  refine (placed_checkAt hname _).bind fun _ _ => (placed_expect _ _).bind fun _ _ => ?_
  refine placed_current.bind fun next _ => ?_
  split
  · exact placed_advance.bind fun _ _ => placed_pure trivial
  · refine placed_ahead.bind fun rounds _ => ?_
    exact (placed_arguments h rounds []).bind fun _ _ => placed_pure trivial

theorem placed_callOperand {argument : Parse Tree} (h : PlacedPhrase e argument) :
    PlacedPhrase e (callOperand argument) := by
  refine placed_current.bind fun name hname => (placed_functionCall h).bind fun call _ => ?_
  refine placed_get.bind fun s _ => (placed_checkAt hname _).bind fun signature _ => ?_
  split
  · exact placed_pure trivial
  · exact placed_violate _ hname

theorem placed_numberLiteral {t : Token} (ht : t ∈ e.row) (hkind : t.kind = .number) :
    PlacedPhrase e (numberLiteral t) := by
  refine placed_advance.bind fun _ _ => ?_
  split
  · rename_i htext
    exact placed_throw (.numberWithoutText ht hkind htext)
  · split
    · exact placed_pure trivial
    · exact placed_violate _ ht

theorem placed_operators {right : Nat → Parse Tree} (hright : ∀ precedence, PlacedPhrase e (right precedence))
    (threshold : Nat) (rounds : List Token) (left : Tree) :
    PlacedPhrase e (operators right threshold left rounds) := by
  induction rounds generalizing left with
  | nil => exact placed_pure trivial
  | cons _ rounds ih =>
    refine (placed_kindAt 0).bind fun kind _ => ?_
    split
    · exact placed_pure trivial
    · split
      · exact placed_pure trivial
      · split
        · exact placed_pure trivial
        · exact placed_advance.bind fun _ _ => (hright _).bind fun tree _ => ih _

/-- phrases read with this many levels stay in the stretch -/
structure PlacedAt (e : Stretch) (depth : Nat) : Prop where
  expression : PlacedPhrase e (expression depth)
  arithmetic : ∀ threshold, PlacedPhrase e (arithmetic depth threshold)
  operand : PlacedPhrase e (operand depth)

theorem placed_operand {depth : Nat} (ih : PlacedAt e depth) : PlacedPhrase e (operand (depth + 1)) := by
  rw [operand]
  refine placed_current.bind fun t ht => ?_
  split
  · rename_i hkind
    exact placed_numberLiteral ht hkind
  · refine (placed_kindAt 1).bind fun following _ => ?_
    split
    · exact placed_callOperand ih.expression
    · exact placed_advance.bind fun _ _ => placed_pure trivial
  · refine placed_advance.bind fun _ _ => (ih.arithmetic 0).bind fun inner _ => ?_
    exact (placed_expect _ _).bind fun _ _ => placed_pure trivial
  · exact placed_advance.bind fun _ _ => ih.operand.bind fun _ _ => placed_pure trivial
  · exact placed_advance.bind fun _ _ => ih.operand.bind fun _ _ => placed_pure trivial
  · exact placed_expected _ ht

theorem placed_arithmetic {depth : Nat} (ih : PlacedAt e depth) (threshold : Nat) :
    PlacedPhrase e (arithmetic (depth + 1) threshold) := by
  rw [arithmetic]
  refine ih.operand.bind fun left _ => placed_ahead.bind fun rounds _ => ?_
  exact placed_operators ih.arithmetic threshold rounds left

section

variable {argument again : Parse Tree} {s t : ParseState}

theorem callExpression_of_error {fault : ParseFault} (h : functionCall argument s = .error fault t) :
    callExpression argument again s = .error fault t := by
  rw [callExpression, Step.bind_of_ok (Step.get_apply _), Step.bind_of_error h]

/-- behind a call that ended further on in its row the cursor can go back -/
theorem callExpression_of_row {call : Tree} (h : functionCall argument s = .ok call t)
    (hrow : t.cursor.tokens = s.cursor.tokens) (hposition : s.cursor.position ≤ t.cursor.position) :
    callExpression argument again s =
      if ((t.cursor.ahead.head?.map Token.kind).bind TokenKind.operator?).isSome then
        again { t with cursor := s.cursor }
      else .ok call t := by
  have hrestore : restore s.cursor.position t = .ok () { t with cursor := s.cursor } := by
    rw [restore, Step.bind_of_ok (Step.get_apply _), Cursor.restore_of_row hrow hposition]
    rfl
  rw [callExpression, Step.bind_of_ok (Step.get_apply _), Step.bind_of_ok h, Step.bind_of_ok (kindAt_zero _)]
  split
  · rw [Step.bind_of_ok hrestore]
  · rfl

theorem placed_callExpression (hargument : ∀ origin, PlacedPhrase { e with origin := origin } argument)
    (hagain : PlacedPhrase e again) : PlacedPhrase e (callExpression argument again) := by
  intro s hs
  have hcall := placed_functionCall (hargument s.cursor.position) s ⟨hs.row, le_rfl⟩
  cases hrun : functionCall argument s with
  | error fault t =>
    obtain ⟨ht, htold⟩ := hcall.of_error hrun
    rw [Ensures, callExpression_of_error hrun]
    exact ⟨⟨ht.row, hs.origin.trans ht.origin⟩, htold⟩
  | ok call t =>
    obtain ⟨ht, -⟩ := hcall.of_ok hrun
    rw [Ensures, callExpression_of_row hrun (ht.row.trans hs.row.symm) ht.origin]
    split_ifs
    · -- where the call started is in the stretch too, so going back there does not leave it
      exact hagain { t with cursor := s.cursor } ⟨hs.row, hs.origin⟩
    · exact ⟨⟨ht.row, hs.origin.trans ht.origin⟩, trivial⟩

end

theorem placed_expression {depth : Nat} (ih : ∀ e, PlacedAt e depth) : PlacedPhrase e (expression (depth + 1)) := by
  rw [expression]
  refine placed_current.bind fun t ht => (placed_kindAt 1).bind fun following _ => ?_
  split
  · exact (ih e).arithmetic 0
  · split
    · refine (placed_kindAt (-1)).bind fun before _ => ?_
      split
      · exact placed_callExpression (fun origin => (ih _).expression) ((ih e).arithmetic 0)
      · exact placed_advance.bind fun _ _ => placed_pure trivial
    · exact placed_expected _ ht

theorem placedAt (e : Stretch) (depth : Nat) : PlacedAt e depth := by
  induction depth generalizing e with
  | zero => exact ⟨placed_throw .tooDeep, fun _ => placed_throw .tooDeep, placed_throw .tooDeep⟩
  | succ depth ih => exact ⟨placed_expression ih, placed_arithmetic (ih e), placed_operand (ih e)⟩

/-- a call ends further on in its row -/
theorem functionCall_row {depth : Nat} {s t : ParseState} {call : Tree}
    (h : functionCall (expression depth) s = .ok call t) :
    t.cursor.tokens = s.cursor.tokens ∧ s.cursor.position ≤ t.cursor.position := by
  have hoccupied : s.cursor.tokens ≠ [] := by
    obtain ⟨name, s₁, hname, -⟩ := Step.bind_eq_ok.1 h
    have hahead := (expect_eq_ok.1 hname).2.ahead
    simp [Cursor.tokens, hahead]
  have hplaced := placed_functionCall (placedAt ⟨s.cursor.tokens, s.cursor.position, hoccupied⟩ depth).expression
  obtain ⟨hholds, -⟩ := (hplaced s ⟨rfl, le_rfl⟩).of_ok h
  exact ⟨hholds.row, hholds.origin⟩

/-- behind a call the cursor can go back to where the call started -/
theorem functionCall_restores {depth : Nat} {s t : ParseState} {call : Tree}
    (h : functionCall (expression depth) s = .ok call t) :
    t.cursor.restore s.cursor.position = .ok (t.cursor.position - s.cursor.position, s.cursor) := by
  obtain ⟨hrow, hposition⟩ := functionCall_row h
  exact Cursor.restore_of_row hrow hposition

/-- so a call in front of an operator is read again from its first token -/
theorem callExpression_of_call {depth : Nat} {s t : ParseState} {call : Tree}
    (h : functionCall (expression depth) s = .ok call t) (again : Parse Tree) :
    callExpression (expression depth) again s =
      if ((t.cursor.ahead.head?.map Token.kind).bind TokenKind.operator?).isSome then
        again { t with cursor := s.cursor }
      else .ok call t := by
  obtain ⟨hrow, hposition⟩ := functionCall_row h
  exact callExpression_of_row h hrow hposition

theorem callExpression_eq_ok {depth : Nat} {s s' : ParseState} {again : Parse Tree} {tree : Tree}
    (h : callExpression (expression depth) again s = .ok tree s') :
    ∃ call t, functionCall (expression depth) s = .ok call t ∧
      (if ((t.cursor.ahead.head?.map Token.kind).bind TokenKind.operator?).isSome then
        again { t with cursor := s.cursor }
      else .ok call t) = .ok tree s' := by
  cases hcall : functionCall (expression depth) s with
  | error fault t =>
    rw [callExpression_of_error hcall] at h
    cases h
  | ok call t =>
    rw [callExpression_of_call hcall] at h
    exact ⟨call, t, rfl, h⟩

/-! ## Statements -/

variable {depth : Nat}

theorem placed_valueToSemicolon : PlacedPhrase e (valueToSemicolon depth) := by
  refine (placedAt e depth).expression.bind fun _ _ => ?_
  exact (placed_expect _ _).bind fun _ _ => placed_pure trivial

theorem placed_declaration : Placed e (declaration depth) (fun r => r.1 ∈ e.row) := by
  refine (placed_expect _ _).bind fun name hname => (placed_expect _ _).bind fun _ _ => ?_
  exact (placed_expect _ _).bind fun _ _ => placed_valueToSemicolon.bind fun _ _ => placed_pure hname

theorem placed_plainStatement {t : Token} (ht : t ∈ e.row) : PlacedPhrase e (plainStatement depth t) := by
  have hunknown {α : Type} : PlacedPhrase e (refuse (α := α) (.unknownStatement t) t) :=
    placed_throw (.unknownStatement ht)
  unfold plainStatement
  split
  · exact placed_advance.bind fun _ _ => placed_valueToSemicolon.bind fun _ _ => placed_pure trivial
  · refine (placed_kindAt 1).bind fun following _ => ?_
    split
    · refine placed_advance.bind fun _ _ => placed_advance.bind fun _ _ => ?_
      exact placed_valueToSemicolon.bind fun _ _ => placed_pure trivial
    · refine placed_advance.bind fun _ _ => placed_advance.bind fun _ _ => (placed_expect _ _).bind fun _ _ => ?_
      exact placed_valueToSemicolon.bind fun _ _ => placed_pure trivial
    · refine (placed_functionCall (placedAt e depth).expression).bind fun _ _ => ?_
      exact (placed_expect _ _).bind fun _ _ => placed_pure trivial
    · exact hunknown
  · exact hunknown

/-- a name that is new in the body joins those declared there; outside of bodies every name is new and none is kept -/
theorem declare_eq_ok {name : Token} {s s' : ParseState} : declare name s = .ok () s' ↔
    (∀ names ∈ s.declared, name.name ∉ names) ∧ s' = { s with declared := s.declared.map (name.name :: ·) } := by
  obtain ⟨cursor, functions, finished, declared⟩ := s
  rw [declare, Step.bind_of_ok (Step.get_apply _)]
  cases declared with
  | none => simp [eq_comm]
  | some names =>
    dsimp only
    split_ifs with hmem
    · simp [violate, hmem]
    · simp [Step.modify_apply, hmem, eq_comm]

theorem declare_eq_error {name : Token} {s s' : ParseState} {fault : ParseFault}
    (h : declare name s = .error fault s') : s' = s := by
  obtain ⟨cursor, functions, finished, declared⟩ := s
  rw [declare, Step.bind_of_ok (Step.get_apply _)] at h
  cases declared with
  | none => cases h
  | some names =>
    dsimp only at h
    split_ifs at h <;> cases h
    rfl

theorem placed_declare {t : Token} (ht : t ∈ e.row) : PlacedPhrase e (declare t) := by
  refine placed_get.bind fun s _ => ?_
  split
  · exact placed_pure trivial
  · split
    · exact placed_violate _ ht
    · exact placed_modify fun _ => rfl

theorem placed_newVariable : PlacedPhrase e (newVariable depth) :=
  placed_declaration.bind fun _ hname => (placed_declare hname).bind fun _ _ => placed_pure trivial

theorem placed_bodyStatement : PlacedPhrase e (bodyStatement depth) := by
  refine placed_current.bind fun t ht => ?_
  split
  · exact placed_violate _ ht
  · exact placed_advance.bind fun _ _ => placed_newVariable
  · exact placed_plainStatement ht

theorem placed_block (rounds : List Token) (found : List Tree) : PlacedPhrase e (block depth found rounds) := by
  induction rounds generalizing found with
  | nil => exact placed_endOfInput
  | cons _ rounds ih =>
    refine placed_current.bind fun t _ => ?_
    split
    · exact placed_advance.bind fun _ _ => placed_pure trivial
    · exact placed_bodyStatement.bind fun tree _ => ih (tree :: found)

theorem placed_body (parameters : List Parameter) : PlacedPhrase e (body depth parameters) := by
  refine Placed.leaving (fun _ => rfl) ?_
  refine (placed_modify (by intro; rfl)).bind fun _ _ => placed_ahead.bind fun rounds _ => ?_
  exact placed_block rounds []

/-! ## Definitions and programs -/

theorem placed_parametersAfter (rounds : List Token) (found : List Parameter) :
    PlacedPhrase e (parametersAfter found rounds) := by
  induction rounds generalizing found with
  | nil => exact placed_endOfInput
  | cons _ rounds ih =>
    refine (placed_expect _ _).bind fun name hname => (placed_expect _ _).bind fun type _ => ?_
    split
    · exact placed_violate _ hname
    · refine placed_advance.bind fun separator hseparator => ?_
      split
      · exact placed_pure trivial
      · split
        · exact ih _
        · exact placed_expected _ hseparator

theorem placed_parameters : PlacedPhrase e parameters := by
  refine placed_current.bind fun _ _ => ?_
  split
  · exact placed_advance.bind fun _ _ => placed_pure trivial
  · exact placed_ahead.bind fun rounds _ => placed_parametersAfter rounds []

theorem placed_returnType : PlacedPhrase e returnType := by
  refine placed_current.bind fun t ht => ?_
  split
  · exact placed_advance.bind fun _ _ => placed_pure trivial
  · exact placed_pure trivial
  · exact placed_expected _ ht

theorem placed_definition : PlacedPhrase e (definition depth) := by
  refine (placed_expect _ _).bind fun name hname => (placed_expect _ _).bind fun _ _ => ?_
  refine placed_parameters.bind fun parameters _ => placed_returnType.bind fun returns _ => ?_
  refine (placed_expect _ _).bind fun _ _ => (placed_body parameters).bind fun body _ => ?_
  refine placed_get.bind fun s _ => (placed_checkAt hname _).bind fun functions _ => ?_
  refine (placed_modify (by intro; rfl)).bind fun _ _ => ?_
  exact placed_pure trivial

theorem placed_statement : PlacedPhrase e (statement depth) := by
  refine placed_current.bind fun t _ => placed_get.bind fun s _ => ?_
  split
  · exact placed_advance.bind fun _ _ => placed_definition
  · exact placed_bodyStatement

theorem placed_statements (rounds : List Token) (found : List Tree) :
    PlacedPhrase e (statements depth found rounds) := by
  induction rounds generalizing found with
  | nil => exact placed_pure trivial
  | cons _ rounds ih =>
    intro s hs
    rw [statements, Ensures, Step.bind_of_ok (exhausted_apply s), ← Ensures]
    split
    · exact placed_pure trivial s hs
    · exact (placed_statement.bind fun tree _ => ih (tree :: found)) s hs

end Parse

end StackLang
