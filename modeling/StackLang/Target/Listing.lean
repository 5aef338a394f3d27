/-
Listings: a module as lines of text.

The listing names the module, describes each pool entry and shows each method's code, one line for an instruction. A
byte that announces no instruction takes a line of its own; code that ends inside an instruction has no listing.
-/
import StackLang.Target.Image
import StackLang.Text.Quoted

namespace StackLang

/-- an entry in words, the entries it refers to by name looked up -/
def Pool.describe (p : Pool) : Constant → Except ImageFault String
  | .utf8 s => .ok ("Utf8 " ++ Text.quoted s)
  | .classRef name => do
    let text ← p.text name
    return s!"Class #{name} ({text})"
  | .nameAndType name descriptor => do
    let nameText ← p.text name
    let descriptorText ← p.text descriptor
    return s!"NameAndType #{name}:#{descriptor} ({nameText}{descriptorText})"
  | .methodRef owner member => .ok s!"Methodref #{owner}.#{member}"
  | .number value => .ok (toString value)

/-- the name of the method that an entry refers to -/
def Pool.callee (p : Pool) (index : Int) : Except ImageFault String := do
  match ← p.entry index with
  | .methodRef _ member =>
    match ← p.entry member with
    | .nameAndType name _ => p.text name
    | _ => .error (.notNameAndType member)
  | _ => .error (.notMethodRef index)

/-- what stands at a place of a code -/
inductive CodeItem where
  | known (name : String) (instr : Instr)
  | unknown (byte : UInt8)
deriving DecidableEq, Repr

/-- code cut into instructions and unknown bytes with their offsets, up to its end or to an instruction that is cut
short; the items found before are given latest first -/
def codeItems (found : List (Nat × CodeItem)) (offset : Nat) (code : Bytes) :
    List (Nat × CodeItem) × Option ImageFault :=
  match code with
  | [] => (found.reverse, none)
  | b :: rest =>
    match Opcode.ofByte? b with
    | none => codeItems ((offset, .unknown b) :: found) (offset + 1) rest
    | some op =>
      let operands := rest.take op.width
      if operands.length = op.width then
        codeItems ((offset, .known op.name (op.build operands)) :: found) (offset + 1 + op.width) (rest.drop op.width)
      else
        (found.reverse, some (.instrTruncated op.name offset))
termination_by code.length
decreasing_by all_goals simp only [List.length_drop, List.length_cons]; omega

def Pool.codeLine (p : Pool) (offset : Nat) : CodeItem → Except ImageFault String
  | .unknown b => .ok (Text.hexPadded 4 offset ++ ": unknown 0x" ++ Text.hexPadded 2 b.toNat)
  | .known name instr =>
    let start := Text.hexPadded 4 offset ++ ": " ++ name
    match instr with
    | .iload slot | .istore slot => .ok s!"{start} {slot}"
    | .invokevirtual index => do
      let callee ← p.callee index.toNat
      return s!"{start} #{index} // {callee}"
    | _ => .ok start

/-- the lines of a code; a fault in one line comes before a truncation further on -/
def Pool.codeLines (p : Pool) (code : Bytes) : Except ImageFault (List String) := do
  let (items, fault) := codeItems [] 0 code
  let lines ← items.mapM fun (offset, i) => p.codeLine offset i
  match fault with
  | some f => .error f
  | none => return lines

namespace Image

def methodLines (constants : Pool) (m : MethodImage) : Except ImageFault (List String) := do
  let lines ← constants.codeLines m.code
  return s!"Method {m.name} {m.descriptor} (max_locals={m.maxLocals}, {m.code.length} bytes):"
    :: lines.map ("  " ++ ·)

def lines (image : Image) : Except ImageFault (List String) := do
  let constants ← image.constants.entries.toList.mapM image.constants.describe
  let numbered := (constants.zipIdx 1).map fun (text, i) => s!"  #{i}: {text}"
  let methods ← image.methods.mapM (methodLines image.constants)
  return s!"Module: {image.thisName} extends {image.superName}"
    :: s!"Constant Pool ({image.constants.size} items):" :: numbered ++ methods.flatten

end Image

def listing (bytes : Bytes) : Except ImageFault (List String) := do
  (← Image.ofBytes bytes).lines

end StackLang
