/-
The meaning of programs.

Values are integers of 32 bits that wrap around; division truncates. Operands and arguments are evaluated from left to
right, and the statements of a body in order up to the first `return`. A call means the body of a definition that
comes earlier in the program, or the built-in `println`, which only notes its argument. A function that is to return
an integer and comes to its end without one leaves its caller without a result.

`execute` runs a body, `Functions.ofProgram` gives the functions of a program their meaning: what a call does with
values for its arguments.
-/
import StackLang.Source.Tree
import StackLang.Proofs.Steps

namespace StackLang

/-! ## Values and outcomes -/

/-- integers under keys: variables by name, or by slot -/
abbrev Store (κ : Type) := κ → Option Int32

namespace Store

variable {κ : Type} [DecidableEq κ]

def set (store : Store κ) (key : κ) (v : Int32) : Store κ :=
  fun k => if k = key then some v else store k

@[simp] theorem set_self (store : Store κ) (key : κ) (v : Int32) : store.set key v key = some v := by
  simp [set]

theorem set_of_ne (store : Store κ) {key k : κ} (h : k ≠ key) (v : Int32) : store.set key v k = store k := by
  simp [set, h]

end Store

/-- why a run stops before its end -/
inductive Trap where
  | divisionByZero
  /-- a function that is to return an integer came to its end without one -/
  | missingResult
  /-- something without a meaning -/
  | stuck
deriving DecidableEq, Repr

inductive Outcome where
  | returned (v : Int32)
  /-- the end was reached without a result -/
  | fellThrough
  | trapped (trap : Trap)
deriving DecidableEq, Repr

/-- evaluation: it prints integers, and keeps what it printed when it stops -/
abbrev Run (α : Type) := Step Trap (List Int32) α

/-- how the run of a body ended, and what it printed -/
def Outcome.ofRun : EStateM.Result Trap (List Int32) (Option Int32) → Outcome × List Int32
  | .ok (some v) printed => (.returned v, printed)
  | .ok none printed => (.fellThrough, printed)
  | .error trap printed => (.trapped trap, printed)

/-! ## Expressions -/

/-- an operator on two values -/
def BinaryOp.apply (op : BinaryOp) (a b : Int32) : Run Int32 :=
  match op with
  | .add => pure (a + b)
  | .sub => pure (a - b)
  | .mul => pure (a * b)
  | .div => if b = 0 then throw .divisionByZero else pure (a / b)
  | .pow | .other _ => throw .stuck

/-- what calls of functions do: a function that returns an integer gives one, any other gives none -/
abbrev Functions := Name → List Int32 → Run (Option Int32)

def required : Option Int32 → Run Int32
  | some v => pure v
  | none => throw .stuck

namespace Tree

mutual

/-- the value of an expression; the base of a power is evaluated once, and not at all for the exponent zero -/
def value (known : Functions) (env : Store Name) : Tree → Run Int32
  | .number n => pure (Int32.ofInt n)
  | .name x | .ident x => required (env x)
  | .positive t => t.value known env
  | .negative t => do return -(← t.value known env)
  | .binary .pow base (.number n) =>
    if n = 0 then pure 1 else do return (← base.value known env) ^ n.toNat
  | .binary op l r => do
    let a ← l.value known env
    let b ← r.value known env
    op.apply a b
  | .callOperand t => t.value known env
  | .call f arguments => do
    let vs ← values known env arguments
    required (← known f vs)
  | _ => throw .stuck

def values (known : Functions) (env : Store Name) : List Tree → Run (List Int32)
  | [] => pure []
  | t :: rest => do
    let v ← t.value known env
    let vs ← values known env rest
    return v :: vs

end

end Tree

/-! ## Functions -/

/-- the statements of a body in order: the value of the first `return`, or none at the end -/
def statements (known : Functions) : Store Name → List Tree → Run (Option Int32)
  | _, [] => pure none
  | env, .declare x _ t :: rest => do
    let v ← t.value known env
    statements known (env.set x v) rest
  | env, .assign x t :: rest => do
    let v ← t.value known env
    let _ ← required (env x)
    statements known (env.set x v) rest
  | env, .addAssign x t :: rest => do
    let v ← t.value known env
    let old ← required (env x)
    statements known (env.set x (old + v)) rest
  | env, .ret t :: _ => do
    let v ← t.value known env
    return some v
  | env, .call f arguments :: rest => do
    let vs ← Tree.values known env arguments
    let _ ← known f vs
    statements known env rest
  | _, _ :: _ => throw .stuck

/-- the parameters of a function with values for them -/
def parameterValues (parameters : List Parameter) (arguments : List Int32) : Store Name :=
  (parameters.zip arguments).foldl (fun env (p, v) => env.set p.name v) fun _ => none

/-- the body of a function, run on arguments -/
def execute (known : Functions) (parameters : List Parameter) (body : List Tree) (arguments : List Int32) :
    Run (Option Int32) :=
  statements known (parameterValues parameters arguments) body

/-- what a caller gets: an integer where one is to be returned, else nothing -/
def handBack (returns : Name) (found : Option Int32) : Run (Option Int32) :=
  if returns = TypeWord.int then
    match found with
    | some v => pure (some v)
    | none => throw .missingResult
  else pure none

namespace Functions

/-- before any definition there is `println` alone: it prints an integer and returns nothing -/
def initial : Functions := fun f arguments =>
  match arguments with
  | [v] => if f = "println" then do modify (· ++ [v]); return none else throw .stuck
  | _ => throw .stuck

/-- a definition whose calls mean the functions known before it -/
def define (known : Functions) (t : Tree) : Functions := fun f arguments =>
  match t with
  | .define name parameters returns body =>
    if f = name then do handBack returns (← execute known parameters body arguments) else known f arguments
  | _ => known f arguments

def ofProgram (trees : List Tree) : Functions :=
  trees.foldl define initial

end Functions

end StackLang
