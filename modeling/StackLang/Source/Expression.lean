/-
Reading expressions.

An expression is a variable, a call, or arithmetic. Arithmetic is read by precedence climbing: an operand, then as many
operators as bind more tightly than the threshold, each with a right side read at the operator's own precedence, so that
operators of one precedence group to the left, `**` included. A call with an operator after it is only the first operand
of arithmetic: the cursor goes back to the call and the whole is read again as arithmetic.

`depth` bounds how deeply phrases may nest; each nested phrase is read with one level less. A loop over operators or
arguments takes a token in every round, so it counts its rounds along the tokens that were ahead when it started.
-/
import StackLang.Source.Parse
import StackLang.Text.Numeral

namespace StackLang.Parse

/-- whether arithmetic starts with a token of this kind before one of that kind -/
def startsArithmetic (kind : TokenKind) (following : Option TokenKind) : Bool :=
  match kind with
  | .number | .plus | .minus | .openParen => true
  | .name => (following.bind TokenKind.operator?).isSome
  | _ => false

/-- after `(`: arguments up to the closing parenthesis; those found are given latest first -/
def arguments (argument : Parse Tree) (found : List Tree) : List Token → Parse (List Tree)
  | [] => endOfInput
  | _ :: rounds => do
    let tree ← argument
    let separator ← advance
    if separator.kind = .closeParen then
      return (tree :: found).reverse
    else if separator.kind = .comma then
      arguments argument (tree :: found) rounds
    else
      expected .commaOrClose separator

/-- a call of a known function -/
def functionCall (argument : Parse Tree) : Parse Tree := do
  let name ← expect .name .functionName
  let _ ← checkAt name ((← get).functions.lookup name.name)
  let _ ← expect .openParen .openParen
  let next ← current
  if next.kind = .closeParen then
    let _ ← advance
    return .call name.name []
  else
    let trees ← arguments argument [] (← ahead)
    return .call name.name trees

/-- a call as an operand: the function has to return an integer -/
def callOperand (argument : Parse Tree) : Parse Tree := do
  let name ← current
  let call ← functionCall argument
  let signature ← checkAt name ((← get).functions.lookup name.name)
  if signature.returns = TypeWord.int then
    return .callOperand call
  else
    violate (.callNotInt name.name signature.returns) name

/-- a call as an expression. In front of an operator it is only the first operand of arithmetic, so the cursor goes back
to where the call started and all is read `again`. -/
def callExpression (argument again : Parse Tree) : Parse Tree := do
  let start := (← get).cursor.position
  let call ← functionCall argument
  if ((← kindAt 0).bind TokenKind.operator?).isSome then
    restore start
    again
  else
    return call

def numberLiteral (token : Token) : Parse Tree := do
  let _ ← advance
  match token.text with
  | none => throw .numberWithoutText
  | some s =>
    match Text.integer? s with
    | some n => return .number n
    | none => violate .numeralTooLarge token

/-- after an operand: operators above the threshold with their right sides, grouped to the left -/
def operators (right : Nat → Parse Tree) (threshold : Nat) (left : Tree) : List Token → Parse Tree
  | [] => return left
  | _ :: rounds => do
    match ← kindAt 0 with
    | none => return left
    | some kind =>
      match kind.operator? with
      | none => return left
      | some op =>
        if kind.precedence ≤ threshold then
          return left
        else
          let _ ← advance
          let tree ← right kind.precedence
          operators right threshold (.binary op left tree) rounds

mutual

def expression : Nat → Parse Tree
  | 0 => throw .tooDeep
  | depth + 1 => do
    let token ← current
    let following ← kindAt 1
    if startsArithmetic token.kind following then
      arithmetic depth 0
    else if token.kind = .name then
      if following = some .openParen ∧ (← kindAt (-1)) ≠ some .funWord then
        callExpression (expression depth) (arithmetic depth 0)
      else
        let _ ← advance
        return .ident token.name
    else
      expected .expression token

/-- arithmetic whose operators all bind more tightly than the threshold -/
def arithmetic : Nat → Nat → Parse Tree
  | 0, _ => throw .tooDeep
  | depth + 1, threshold => do
    let left ← operand depth
    operators (fun precedence => arithmetic depth precedence) threshold left (← ahead)

/-- one operand with its signs -/
def operand : Nat → Parse Tree
  | 0 => throw .tooDeep
  | depth + 1 => do
    let token ← current
    match token.kind with
    | .number => numberLiteral token
    | .name =>
      if (← kindAt 1) = some .openParen then
        callOperand (expression depth)
      else
        let _ ← advance
        return .name token.name
    | .openParen =>
      let _ ← advance
      let inner ← arithmetic depth 0
      let _ ← expect .closeParen .closeParen
      return inner
    | .plus =>
      let _ ← advance
      return .positive (← operand depth)
    | .minus =>
      let _ ← advance
      return .negative (← operand depth)
    | _ => expected .operand token

end

end StackLang.Parse
