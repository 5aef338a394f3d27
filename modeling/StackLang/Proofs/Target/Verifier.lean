/-
A verifier of code.

It goes through the code of a method from its first instruction and knows of each state only how many operands are on
the stack and which slots hold a value. An instruction passes if its operands are there, the slot it reads holds a
value, and every slot it names is one of the method's locals and within the reach of an operand byte. Calls take and
leave what the descriptor that they refer to says.
-/
import StackLang.Proofs.Target.Descriptors
import StackLang.Proofs.Target.Pools

namespace StackLang

namespace Instr

/-- the number of operands an instruction takes from the stack, and the number it leaves there -/
def effect? (pool : Pool) : Instr → Option (Nat × Nat)
  | .iconst _ | .iload _ | .iloadShort _ => some (0, 1)
  | .istore _ | .istoreShort _ | .ireturn => some (1, 0)
  | .iadd | .isub | .imul | .idiv => some (2, 1)
  | .ineg => some (1, 1)
  | .invokevirtual index => do
    let reference ← pool.reference? index.toNat
    let (arity, gives) ← descriptorShape? reference.descriptor
    return (arity, if gives then 1 else 0)

def loaded? : Instr → Option Nat
  | .iload slot => some slot.toNat
  | .iloadShort slot => some slot
  | _ => none

def stored? : Instr → Option Nat
  | .istore slot => some slot.toNat
  | .istoreShort slot => some slot
  | _ => none

end Instr

namespace Verifier

/-- what is known of a state: the number of operands on the stack, and the slots that hold a value -/
structure State where
  depth : Nat
  filled : List Nat
deriving DecidableEq, Repr

/-- an empty stack, and arguments in the first slots -/
def State.start (arity : Nat) : State :=
  ⟨0, List.range arity⟩

/-- the slots that an instruction names are locals of the method and fit in a byte, and the one it reads is filled -/
def slotsFit (maxLocals : Nat) (s : State) (i : Instr) : Bool :=
  i.loaded?.all (fun slot => slot ∈ s.filled ∧ slot < maxLocals ∧ slot ≤ 255) &&
    i.stored?.all fun slot => slot < maxLocals ∧ slot ≤ 255

/-- the state after an instruction, if the instruction passes -/
def step (pool : Pool) (maxLocals : Nat) (s : State) (i : Instr) : Option State :=
  match i.effect? pool with
  | none => none
  | some (taken, left) =>
    if taken ≤ s.depth ∧ slotsFit maxLocals s i then some ⟨s.depth - taken + left, i.stored?.toList ++ s.filled⟩
    else none

/-- the state after a code, if all its instructions pass -/
def run (pool : Pool) (maxLocals : Nat) : State → Code → Option State
  | s, [] => some s
  | s, i :: code => (step pool maxLocals s i).bind fun s => run pool maxLocals s code

variable {pool : Pool} {maxLocals : Nat}

theorem run_append (s : State) (code code' : Code) :
    run pool maxLocals s (code ++ code') = (run pool maxLocals s code).bind fun s => run pool maxLocals s code' := by
  induction code generalizing s with
  | nil => rfl
  | cons i code ih =>
    rw [List.cons_append, run, run, Option.bind_assoc]
    congr 1
    funext s'
    exact ih s'

theorem run_append_of {s s' : State} {code : Code} (h : run pool maxLocals s code = some s') (code' : Code) :
    run pool maxLocals s (code ++ code') = run pool maxLocals s' code' := by
  rw [run_append, h, Option.bind_some]

/-- an instruction that names no slot passes if its operands are there -/
theorem run_of_effect {i : Instr} {taken left : Nat} (h : i.effect? pool = some (taken, left))
    (hload : i.loaded? = none) (hstore : i.stored? = none) (depth : Nat) (filled : List Nat) :
    run pool maxLocals ⟨depth + taken, filled⟩ [i] = some ⟨depth + left, filled⟩ := by
  simp [run, step, slotsFit, h, hload, hstore]

/-- a code passes on any stack and leaves a number of operands more there -/
def Pushes (pool : Pool) (maxLocals : Nat) (filled : List Nat) (code : Code) (n : Nat) : Prop :=
  ∀ depth, run pool maxLocals ⟨depth, filled⟩ code = some ⟨depth + n, filled⟩

namespace Pushes

variable {filled : List Nat} {code code' : Code} {m n : Nat}

theorem nil : Pushes pool maxLocals filled [] 0 :=
  fun _ => rfl

theorem append (h : Pushes pool maxLocals filled code m) (h' : Pushes pool maxLocals filled code' n) :
    Pushes pool maxLocals filled (code ++ code') (m + n) := by
  intro depth
  rw [run_append_of (h depth), h' (depth + m), Nat.add_assoc]

/-- an instruction that takes all operands -/
theorem then_instr (h : Pushes pool maxLocals filled code m) {i : Instr} (hi : i.effect? pool = some (m, n))
    (hload : i.loaded? = none) (hstore : i.stored? = none) : Pushes pool maxLocals filled (code ++ [i]) n := by
  intro depth
  rw [run_append_of (h depth)]
  exact run_of_effect hi hload hstore depth filled

end Pushes

end Verifier

end StackLang
