/-
Lowering: steps that turn trees into code while a module collects what the code refers to.
-/
import StackLang.Diagnostic
import StackLang.FunctionTable
import StackLang.Lowering.Locals
import StackLang.Source.Tree
import StackLang.Target.Module

namespace StackLang

/-- why a tree was not lowered -/
inductive LowerFault where
  | semantic (violation : Violation)
  | encoding (fault : WriteFault)
  /-- a tree nested beyond the limit -/
  | tooDeep
  /-- a form in the place of a call that carries no name, or no arguments -/
  | notCall (form : String)
deriving DecidableEq, Repr

def LowerFault.diagnostic? : LowerFault → Option Diagnostic
  | .semantic violation => some (.located .semantic violation.message none)
  | .encoding fault => some (.located .encoding fault.message none)
  | .tooDeep | .notCall _ => none

/-- a lowering step: it works on the module, and leaves it as it is when it fails -/
abbrev Lower (α : Type) := Step LowerFault Module α

/-- what is known inside a function body: the functions, and the variables declared so far -/
structure Frame where
  functions : FunctionTable
  locals : Locals
deriving Repr

namespace Lower

/-- break a rule of meaning -/
def violate {α : Type} (violation : Violation) : Lower α :=
  throw (.semantic violation)

def check {α : Type} : Except Violation α → Lower α
  | .ok a => pure a
  | .error violation => violate violation

def onModule {α : Type} (change : ModuleM α) : Lower α :=
  Step.mapFault .encoding change

/-! ## Choice of instructions -/

def push (value : Int) : Except Violation Code :=
  if h : -1 ≤ value ∧ value ≤ 5 then .ok [.iconst ⟨(value + 1).toNat, by omega⟩] else .error (.numberTooLarge value)

def load (slot : Nat) : Except Violation Code :=
  if h : slot < 4 then .ok [.iloadShort ⟨slot, h⟩]
  else if slot < 256 then .ok [.iload (UInt8.ofNat slot)]
  else .error (.slotOutOfReach slot)

def store (slot : Nat) : Except Violation Code :=
  if h : slot < 4 then .ok [.istoreShort ⟨slot, h⟩]
  else if slot < 256 then .ok [.istore (UInt8.ofNat slot)]
  else .error (.slotOutOfReach slot)

/-- the instruction of an operator; powers have none -/
def binaryInstr? : BinaryOp → Option Instr
  | .add => some .iadd
  | .sub => some .isub
  | .mul => some .imul
  | .div => some .idiv
  | .pow | .other _ => none

end Lower

end StackLang
