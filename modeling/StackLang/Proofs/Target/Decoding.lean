/-
Code is cut back into the instructions it was written from.

Each instruction is announced by its first byte and complete after its operands, so cutting the bytes of a row of
instructions from their start meets exactly these instructions, each where its bytes start, and nothing unknown or cut
short (`codeItems_encode`).
-/
import Mathlib.Tactic
import StackLang.Target.Listing

namespace StackLang

def Instr.mnemonic : Instr → String
  | .iconst 0 => "iconst_m1"
  | .iconst v => "iconst_" ++ toString ((v : Nat) - 1)
  | .iload _ => "iload"
  | .iloadShort slot => "iload_" ++ toString (slot : Nat)
  | .istore _ => "istore"
  | .istoreShort slot => "istore_" ++ toString (slot : Nat)
  | .iadd => "iadd"
  | .isub => "isub"
  | .imul => "imul"
  | .idiv => "idiv"
  | .ineg => "ineg"
  | .ireturn => "ireturn"
  | .invokevirtual _ => "invokevirtual"

/-- instructions with their names and the offsets where their bytes start -/
def Code.items (offset : Nat) : Code → List (Nat × CodeItem)
  | [] => []
  | i :: code => (offset, .known i.mnemonic i) :: Code.items (offset + i.encode.length) code

/-- the instruction at a place of a code, if one was recognised there -/
def instrAt? : Nat × CodeItem → Option Instr
  | (_, .known _ i) => some i
  | (_, .unknown _) => none

/-- the instructions of a code, if it holds nothing else -/
def Code.decode? (bytes : Bytes) : Option Code :=
  match codeItems [] 0 bytes with
  | (items, none) => items.mapM instrAt?
  | (_, some _) => none

/-- an instruction is announced under its name -/
theorem Opcode.name_of_opcode {i : Instr} {op : Opcode} (h : ofByte? i.opcode = some op) : op.name = i.mnemonic := by
  cases i with
  | iconst v =>
    match v with
    | 0 | 1 | 2 | 3 | 4 | 5 | 6 =>
      cases h
      rfl
  | iloadShort s =>
    match s with
    | 0 | 1 | 2 | 3 =>
      cases h
      rfl
  | istoreShort s =>
    match s with
    | 0 | 1 | 2 | 3 =>
      cases h
      rfl
  | _ =>
    cases h
    rfl

/-- one instruction in front of any code -/
theorem codeItems_cons (i : Instr) (rest : Bytes) (found : List (Nat × CodeItem)) (offset : Nat) :
    codeItems found offset (i.encode ++ rest) =
      codeItems ((offset, .known i.mnemonic i) :: found) (offset + i.encode.length) rest := by
  obtain ⟨op, hop, hwidth, hbuild⟩ := Opcode.ofByte?_opcode i
  have hlength : offset + i.encode.length = offset + 1 + i.operands.length := by
    rw [Instr.encode, List.length_cons]
    omega
  rw [hlength, Instr.encode, List.cons_append, codeItems, hop]
  dsimp only
  rw [hwidth, List.take_left, List.drop_left, if_pos rfl, hbuild, Opcode.name_of_opcode hop]

/-- cutting the bytes of instructions meets these instructions -/
theorem codeItems_encode (code : Code) (found : List (Nat × CodeItem)) (offset : Nat) :
    codeItems found offset code.encode = (found.reverse ++ code.items offset, none) := by
  induction code generalizing found offset with
  | nil => simp [Code.encode, Code.items, codeItems]
  | cons i code ih =>
    have hencode : Code.encode (i :: code) = i.encode ++ Code.encode code := List.flatMap_cons
    rw [hencode, codeItems_cons, ih, Code.items, List.reverse_cons, List.append_assoc]
    rfl

theorem Code.mapM_items (code : Code) (offset : Nat) : (code.items offset).mapM instrAt? = some code := by
  induction code generalizing offset with
  | nil => rfl
  | cons i code ih =>
    rw [Code.items, List.mapM_cons, ih]
    rfl

/-- the bytes of a code are decoded to it -/
theorem Code.decode?_encode (code : Code) : decode? code.encode = some code := by
  unfold decode?
  rw [codeItems_encode]
  exact mapM_items code 0

theorem codeItems_fault (code : Code) : (codeItems [] 0 code.encode).2 = none := by
  rw [codeItems_encode]

/-- what stands at a place of a code is an instruction of it -/
theorem Code.mem_items {code : Code} {offset place : Nat} {item : CodeItem} (h : (place, item) ∈ code.items offset) :
    ∃ i ∈ code, item = .known i.mnemonic i := by
  induction code generalizing offset with
  | nil => cases h
  | cons i code ih =>
    rcases List.mem_cons.1 h with heq | hrest
    · exact ⟨i, List.mem_cons_self, (Prod.mk.inj heq).2⟩
    · obtain ⟨j, hj, hitem⟩ := ih hrest
      exact ⟨j, List.mem_cons_of_mem _ hj, hitem⟩

/-- an instruction met while cutting is one of those written -/
theorem mem_of_codeItems {code : Code} {offset : Nat} {name : String} {i : Instr}
    (h : (offset, CodeItem.known name i) ∈ (codeItems [] 0 code.encode).1) : i ∈ code := by
  rw [codeItems_encode] at h
  obtain ⟨j, hj, heq⟩ := Code.mem_items h
  rw [(CodeItem.known.inj heq).2]
  exact hj

end StackLang
