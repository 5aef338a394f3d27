/-
Lowering of expressions.

The code of an expression pushes its value: operands from left to right, then the operator. A power is unrolled, its
base repeated; so the exponent has to be a literal, and the base free of calls. A call pushes its arguments from left to
right and names its function by a fresh pool reference. A tree built by hand may have another form in the place of a
call: the name it carries is looked up as a function's before its arguments are asked for.

`depth` bounds how deeply trees may nest; every part is lowered with one level less than the whole.
-/
import StackLang.Lowering.Lower

namespace StackLang.Lower

/-- the largest size of a function's code in bytes; powers are unrolled no further -/
def maxCodeSize : Nat := 0xFFFF

/-- whether arithmetic calls a function, looked for from the left -/
def hasCall : Nat → Tree → Lower Bool
  | 0, _ => throw .tooDeep
  | depth + 1, t =>
    match t with
    | .callOperand _ => return true
    | .positive t => hasCall depth t
    | .negative t => hasCall depth t
    | .binary _ l r => do
      if ← hasCall depth l then return true else hasCall depth r
    | _ => return false

/-- a base multiplied with itself; a negative exponent leaves the base -/
def unroll (base : Code) (exponent : Int) : Except Violation Code :=
  if exponent = 0 then push 1
  else if base.size * exponent > maxCodeSize then .error (.exponentTooLarge exponent)
  else .ok (base ++ (List.replicate (exponent - 1).toNat (base ++ [Instr.imul])).flatten)

/-- the code of a negated literal whose negation can be pushed -/
def negatedLiteral? : Tree → Option Code
  | .number n => (push (-n)).toOption
  | _ => none

/-- the code of arguments from left to right, each checked against its parameter -/
def argumentCodes {α : Type} (value : α → Lower (Code × Name)) (function : Name) :
    List (α × Parameter) → Lower Code
  | [] => return []
  | (a, p) :: rest => do
    let (code, type) ← value a
    if TypeWord.compatible p.type type then
      return code ++ (← argumentCodes value function rest)
    else
      violate (.argumentMismatch p.name function p.type type)

/-- a call with arguments that have values: its code and the signature of the function -/
def call {α : Type} (frame : Frame) (value : α → Lower (Code × Name)) (function : Name) (arguments : List α) :
    Lower (Code × Signature) := do
  let signature ← check (frame.functions.lookup function)
  if arguments.length ≠ signature.arity then
    violate (.wrongArity function signature.arity arguments.length)
  let code ← argumentCodes value function (arguments.zip signature.parameters)
  let descriptor ← check signature.descriptor
  let index ← onModule (Module.addMethodRef function.display descriptor)
  return (code ++ [.invokevirtual (UInt16.ofNat index)], signature)

/-- the name that stands for a function in an operand, which has to give an integer -/
def intFunction (frame : Frame) (t : Tree) : Lower Name := do
  match t.name? with
  | none => throw (.notCall t.form)
  | some f =>
    let signature ← check (frame.functions.lookup f)
    if signature.returns = TypeWord.int then return f else violate (.callNotInt f signature.returns)

/-- a call that is an operand; a definition in its place gives its parameters for arguments, which are no expressions -/
def operandCall (frame : Frame) (value : Tree → Lower (Code × Name)) (t : Tree) : Lower Code := do
  let f ← intFunction frame t
  match t with
  | .call _ arguments => return (← call frame value f arguments).1
  | .define _ parameters _ _ =>
    return (← call frame (fun _ => violate (.unsupportedExpression "FunctionArgument")) f parameters).1
  | t => throw (.notCall t.form)

mutual

/-- an expression: its code and the name of its type -/
def value (frame : Frame) : Nat → Tree → Lower (Code × Name)
  | 0, _ => throw .tooDeep
  | depth + 1, t =>
    match t with
    | .ident x => do
      let v ← check (frame.locals.get x)
      return (← check (load v.slot), v.type)
    | .call f arguments => do
      let (code, signature) ← call frame (fun t => value frame depth t) f arguments
      if signature.returns = TypeWord.void then
        violate (.voidResult f)
      else
        return (code, signature.returns)
    | t =>
      if t.isArithmetic then do
        return (← arithmetic frame depth t, TypeWord.int)
      else
        violate (.unsupportedExpression t.form)

def arithmetic (frame : Frame) : Nat → Tree → Lower Code
  | 0, _ => throw .tooDeep
  | depth + 1, t =>
    match t with
    | .number n => check (push n)
    | .name x => do
      let v ← check (frame.locals.get x)
      if v.type = TypeWord.int then check (load v.slot) else violate (.variableNotInt x v.type)
    | .callOperand t => operandCall frame (fun t => value frame depth t) t
    | .positive t => arithmetic frame depth t
    | .negative t =>
      match negatedLiteral? t with
      | some code => return code
      | none => return (← arithmetic frame depth t) ++ [.ineg]
    | .binary .pow base exponent =>
      match exponent with
      | .number n => do
        if ← hasCall depth base then
          violate .callInBase
        else
          let code ← arithmetic frame depth base
          check (unroll code n)
      | _ => violate .exponentNotLiteral
    | .binary op l r =>
      match binaryInstr? op with
      | none => violate (.unsupportedOperator op.word)
      | some instr => do
        let left ← arithmetic frame depth l
        let right ← arithmetic frame depth r
        return left ++ right ++ [instr]
    | t => violate (.unsupportedOperand t.form)

end

end StackLang.Lower
