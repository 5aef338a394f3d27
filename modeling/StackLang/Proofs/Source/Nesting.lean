/-
Reading with more levels.

Each nested phrase is read with one level less, and with none left reading fails at that phrase, wherever it stands:
also in the first reading of a call that is then read again as arithmetic, at another depth. A step with fewer levels
ends as the same step with more of them does, with the same result or fault and in the same state, unless it nests too
deeply (`Within`). Every step is put together from others in a way that keeps this, so the readers of expressions have
it by induction on the levels (`withinAt`), and statements and programs have it from them (`program_within`).
-/
import StackLang.Proofs.Twins
import StackLang.Source.Statement

namespace StackLang.Parse

open Step (UpTo)

variable {α : Type}

/-- the first step ends as the second does, unless phrases nest too deeply for it -/
abbrev Within (x y : Parse α) : Prop :=
  UpTo (· = ParseFault.tooDeep) x y

/-! ## Expressions -/

section

variable {argument argument' : Parse Tree}

theorem arguments_within (h : Within argument argument') (rounds : List Token) (found : List Tree) :
    Within (arguments argument found rounds) (arguments argument' found rounds) := by
  induction rounds generalizing found with
  | nil => exact UpTo.refl _
  | cons _ rounds ih =>
    refine h.bind fun tree => UpTo.behind _ fun separator => ?_
    split
    · exact UpTo.refl _
    · split
      · exact ih (tree :: found)
      · exact UpTo.refl _

theorem functionCall_within (h : Within argument argument') : Within (functionCall argument) (functionCall argument') := by
  refine UpTo.behind _ fun name => UpTo.behind _ fun s => UpTo.behind _ fun _ => UpTo.behind _ fun _ => ?_
  refine UpTo.behind _ fun next => ?_
  split
  · exact UpTo.refl _
  · exact UpTo.behind _ fun rounds => (arguments_within h rounds []).before _

theorem callOperand_within (h : Within argument argument') : Within (callOperand argument) (callOperand argument') :=
  UpTo.behind _ fun _ => (functionCall_within h).before _

theorem callExpression_within {again again' : Parse Tree} (h : Within argument argument')
    (hagain : Within again again') :
    Within (callExpression argument again) (callExpression argument' again') := by
  refine UpTo.behind _ fun start => (functionCall_within h).bind fun call => UpTo.behind _ fun kind => ?_
  split
  · exact UpTo.behind _ fun _ => hagain
  · exact UpTo.refl _

end

theorem operators_within {right right' : Nat → Parse Tree} (h : ∀ precedence, Within (right precedence) (right' precedence))
    (threshold : Nat) (rounds : List Token) (left : Tree) :
    Within (operators right threshold left rounds) (operators right' threshold left rounds) := by
  induction rounds generalizing left with
  | nil => exact UpTo.refl _
  | cons _ rounds ih =>
    refine UpTo.behind _ fun kind => ?_
    split
    · exact UpTo.refl _
    · split
      · exact UpTo.refl _
      · split
        · exact UpTo.refl _
        · exact UpTo.behind _ fun _ => (h _).bind fun tree => ih _

/-! ## The readers of expressions -/

/-- readers of expressions, of arithmetic above a threshold, and of operands -/
structure Readers where
  expression : Parse Tree
  arithmetic : Nat → Parse Tree
  operand : Parse Tree

abbrev readersAt (depth : Nat) : Readers :=
  ⟨expression depth, arithmetic depth, operand depth⟩

namespace Readers

/-- an expression whose parts are read by given readers -/
def expressionAbove (r : Readers) : Parse Tree := do
  let token ← current
  let following ← kindAt 1
  if startsArithmetic token.kind following then
    r.arithmetic 0
  else if token.kind = .name then
    if following = some .openParen ∧ (← kindAt (-1)) ≠ some .funWord then
      callExpression r.expression (r.arithmetic 0)
    else
      let _ ← advance
      return .ident token.name
  else
    expected .expression token

def arithmeticAbove (r : Readers) (threshold : Nat) : Parse Tree := do
  let left ← r.operand
  operators r.arithmetic threshold left (← ahead)

def operandAbove (r : Readers) : Parse Tree := do
  let token ← current
  match token.kind with
  | .number => numberLiteral token
  | .name =>
    if (← kindAt 1) = some .openParen then
      callOperand r.expression
    else
      let _ ← advance
      return .name token.name
  | .openParen =>
    let _ ← advance
    let inner ← r.arithmetic 0
    let _ ← expect .closeParen .closeParen
    return inner
  | .plus =>
    let _ ← advance
    return .positive (← r.operand)
  | .minus =>
    let _ ← advance
    return .negative (← r.operand)
  | _ => expected .operand token

/-- each reader ends as its counterpart does, unless phrases nest too deeply for it -/
structure Within (r r' : Readers) : Prop where
  expression : Parse.Within r.expression r'.expression
  arithmetic : ∀ threshold, Parse.Within (r.arithmetic threshold) (r'.arithmetic threshold)
  operand : Parse.Within r.operand r'.operand

variable {r r' : Readers}

theorem Within.expressionAbove (h : Within r r') : Parse.Within r.expressionAbove r'.expressionAbove := by
  refine UpTo.behind _ fun token => UpTo.behind _ fun following => ?_
  split
  · exact h.arithmetic 0
  · split
    · refine UpTo.behind _ fun before => ?_
      split
      · exact callExpression_within h.expression (h.arithmetic 0)
      · exact UpTo.refl _
    · exact UpTo.refl _

theorem Within.arithmeticAbove (h : Within r r') (threshold : Nat) :
    Parse.Within (r.arithmeticAbove threshold) (r'.arithmeticAbove threshold) := by
  refine h.operand.bind fun left => UpTo.behind _ fun rounds => ?_
  exact operators_within h.arithmetic threshold rounds left

theorem Within.operandAbove (h : Within r r') : Parse.Within r.operandAbove r'.operandAbove := by
  refine UpTo.behind _ fun token => ?_
  split
  · exact UpTo.refl _
  · refine UpTo.behind _ fun following => ?_
    split
    · exact callOperand_within h.expression
    · exact UpTo.refl _
  · exact UpTo.behind _ fun _ => (h.arithmetic 0).before _
  · exact UpTo.behind _ fun _ => h.operand.before _
  · exact UpTo.behind _ fun _ => h.operand.before _
  · exact UpTo.refl _

end Readers

variable {levels more : Nat}

/-- with one level more, the readers below read the parts -/
theorem readersAt_succ (depth : Nat) :
    readersAt (depth + 1) =
      ⟨(readersAt depth).expressionAbove, (readersAt depth).arithmeticAbove, (readersAt depth).operandAbove⟩ :=
  rfl

/-- readers with more levels differ only where there were too few -/
theorem withinAt (h : levels ≤ more) : (readersAt levels).Within (readersAt more) := by
  induction levels generalizing more with
  | zero => exact ⟨UpTo.throw _ _, fun _ => UpTo.throw _ _, UpTo.throw _ _⟩
  | succ levels ih =>
    obtain ⟨more, rfl⟩ := Nat.exists_eq_add_of_le' (Nat.one_le_of_lt h)
    have hbelow := ih (Nat.le_of_succ_le_succ h)
    rw [readersAt_succ, readersAt_succ]
    exact ⟨hbelow.expressionAbove, hbelow.arithmeticAbove, hbelow.operandAbove⟩

/-! ## Statements and programs -/

theorem valueToSemicolon_within (h : levels ≤ more) : Within (valueToSemicolon levels) (valueToSemicolon more) :=
  (withinAt h).expression.before _

theorem declaration_within (h : levels ≤ more) : Within (declaration levels) (declaration more) :=
  UpTo.behind _ fun _ => UpTo.behind _ fun _ => UpTo.behind _ fun _ => (valueToSemicolon_within h).before _

theorem plainStatement_within (h : levels ≤ more) (token : Token) :
    Within (plainStatement levels token) (plainStatement more token) := by
  have hvalue := valueToSemicolon_within h
  unfold plainStatement
  split
  · exact UpTo.behind _ fun _ => hvalue.before _
  · refine UpTo.behind _ fun following => ?_
    split
    · exact UpTo.behind _ fun _ => UpTo.behind _ fun _ => hvalue.before _
    · exact UpTo.behind _ fun _ => UpTo.behind _ fun _ => UpTo.behind _ fun _ => hvalue.before _
    · exact (functionCall_within (withinAt h).expression).before _
    · exact UpTo.refl _
  · exact UpTo.refl _

theorem bodyStatement_within (h : levels ≤ more) : Within (bodyStatement levels) (bodyStatement more) := by
  refine UpTo.behind _ fun token => ?_
  split
  · exact UpTo.refl _
  · exact UpTo.behind _ fun _ => (declaration_within h).before _
  · exact plainStatement_within h token

theorem block_within (h : levels ≤ more) (rounds : List Token) (found : List Tree) :
    Within (block levels found rounds) (block more found rounds) := by
  induction rounds generalizing found with
  | nil => exact UpTo.refl _
  | cons _ rounds ih =>
    refine UpTo.behind _ fun token => ?_
    split
    · exact UpTo.refl _
    · exact (bodyStatement_within h).bind fun tree => ih (tree :: found)

theorem body_within (h : levels ≤ more) (parameters : List Parameter) :
    Within (body levels parameters) (body more parameters) :=
  UpTo.leaving _ (UpTo.behind _ fun _ => UpTo.behind _ fun rounds => block_within h rounds [])

theorem definition_within (h : levels ≤ more) : Within (definition levels) (definition more) := by
  refine UpTo.behind _ fun name => UpTo.behind _ fun _ => UpTo.behind _ fun parameters => UpTo.behind _ fun returns => ?_
  exact UpTo.behind _ fun _ => (body_within h parameters).before _

theorem statement_within (h : levels ≤ more) : Within (statement levels) (statement more) := by
  refine UpTo.behind _ fun token => UpTo.behind _ fun s => ?_
  split
  · exact UpTo.behind _ fun _ => definition_within h
  · exact bodyStatement_within h

theorem statements_within (h : levels ≤ more) (rounds : List Token) (found : List Tree) :
    Within (statements levels found rounds) (statements more found rounds) := by
  induction rounds generalizing found with
  | nil => exact UpTo.refl _
  | cons _ rounds ih =>
    refine UpTo.behind _ fun done => ?_
    split
    · exact UpTo.refl _
    · exact (statement_within h).bind fun tree => ih (tree :: found)

theorem program_within (h : levels ≤ more) : Within (program levels) (program more) :=
  UpTo.behind _ fun rounds => (statements_within h rounds []).before _

end StackLang.Parse
