/-
Instructions of the stack machine and their bytes.

Constants −1 to 5 and the locals 0 to 3 have instructions of one byte; other locals are named by one operand byte, and
calls by the pool index of a method reference in two.
-/
import StackLang.Target.Bytes

namespace StackLang

inductive Instr where
  /-- push `value - 1`, so −1 through 5 -/
  | iconst (value : Fin 7)
  /-- push a local, named by the operand byte -/
  | iload (slot : UInt8)
  /-- push one of the first four locals -/
  | iloadShort (slot : Fin 4)
  /-- pop into a local, named by the operand byte -/
  | istore (slot : UInt8)
  /-- pop into one of the first four locals -/
  | istoreShort (slot : Fin 4)
  | iadd
  | isub
  | imul
  | idiv
  | ineg
  | ireturn
  /-- call the method that a pool entry refers to -/
  | invokevirtual (index : UInt16)
deriving DecidableEq, Repr

abbrev Code := List Instr

namespace Instr

def opcode : Instr → UInt8
  | .iconst v => 0x02 + UInt8.ofNat v
  | .iload _ => 0x15
  | .iloadShort s => 0x1A + UInt8.ofNat s
  | .istore _ => 0x36
  | .istoreShort s => 0x3B + UInt8.ofNat s
  | .iadd => 0x60
  | .isub => 0x64
  | .imul => 0x68
  | .idiv => 0x6C
  | .ineg => 0x74
  | .ireturn => 0xAC
  | .invokevirtual _ => 0xB6

def operands : Instr → Bytes
  | .iload slot | .istore slot => [slot]
  | .invokevirtual index => .two index.toNat
  | _ => []

def encode (i : Instr) : Bytes :=
  i.opcode :: i.operands

end Instr

namespace Code

def encode (code : Code) : Bytes :=
  code.flatMap Instr.encode

def size (code : Code) : Nat :=
  code.encode.length

end Code

/-- instructions as a byte announces them: their name and how to complete them from operand bytes -/
structure Opcode where
  name : String
  /-- the number of operand bytes -/
  width : Nat
  /-- the instruction with these operand bytes -/
  build : Bytes → Instr

namespace Opcode

/-- an instruction without operands -/
def plain (name : String) (instr : Instr) : Opcode :=
  ⟨name, 0, fun _ => instr⟩

/-- the instruction that a byte announces, if it announces one -/
def ofByte? (b : UInt8) : Option Opcode :=
  match b.toNat with
  | 0x02 => some (plain "iconst_m1" (.iconst 0))
  | 0x03 => some (plain "iconst_0" (.iconst 1))
  | 0x04 => some (plain "iconst_1" (.iconst 2))
  | 0x05 => some (plain "iconst_2" (.iconst 3))
  | 0x06 => some (plain "iconst_3" (.iconst 4))
  | 0x07 => some (plain "iconst_4" (.iconst 5))
  | 0x08 => some (plain "iconst_5" (.iconst 6))
  | 0x15 => some ⟨"iload", 1, fun bs => .iload (bs.headD 0)⟩
  | 0x1A => some (plain "iload_0" (.iloadShort 0))
  | 0x1B => some (plain "iload_1" (.iloadShort 1))
  | 0x1C => some (plain "iload_2" (.iloadShort 2))
  | 0x1D => some (plain "iload_3" (.iloadShort 3))
  | 0x36 => some ⟨"istore", 1, fun bs => .istore (bs.headD 0)⟩
  | 0x3B => some (plain "istore_0" (.istoreShort 0))
  | 0x3C => some (plain "istore_1" (.istoreShort 1))
  | 0x3D => some (plain "istore_2" (.istoreShort 2))
  | 0x3E => some (plain "istore_3" (.istoreShort 3))
  | 0x60 => some (plain "iadd" .iadd)
  | 0x64 => some (plain "isub" .isub)
  | 0x68 => some (plain "imul" .imul)
  | 0x6C => some (plain "idiv" .idiv)
  | 0x74 => some (plain "ineg" .ineg)
  | 0xAC => some (plain "ireturn" .ireturn)
  | 0xB6 => some ⟨"invokevirtual", 2, fun bs => .invokevirtual (UInt16.ofNat (Bytes.ofBE bs))⟩
  | _ => none

/-- an instruction is announced by its own byte and completed by its own operands -/
theorem ofByte?_opcode (i : Instr) :
    ∃ op, ofByte? i.opcode = some op ∧ op.width = i.operands.length ∧ op.build i.operands = i := by
  cases i with
  | iconst v =>
    match v with
    | 0 | 1 | 2 | 3 | 4 | 5 | 6 => exact ⟨_, rfl, rfl, rfl⟩
  | iloadShort s =>
    match s with
    | 0 | 1 | 2 | 3 => exact ⟨_, rfl, rfl, rfl⟩
  | istoreShort s =>
    match s with
    | 0 | 1 | 2 | 3 => exact ⟨_, rfl, rfl, rfl⟩
  | invokevirtual index =>
    refine ⟨_, rfl, rfl, ?_⟩
    simp [Instr.operands, Bytes.ofBE_two index.toNat_lt]
  | _ => exact ⟨_, rfl, rfl, rfl⟩

end Opcode

end StackLang
