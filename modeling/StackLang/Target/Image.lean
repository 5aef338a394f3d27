/-
Images: modules read back from their bytes.

Reading takes the fields strictly in order, and an index is resolved before the next field is read, so the first fault
in byte order is the one reported. Flags, the content of unknown attributes and the number of module attributes are
taken as they come; of several code attributes the last one counts.
-/
import StackLang.Target.Module

namespace StackLang

/-- why bytes are not the bytes of a module, or code has no listing -/
inductive ImageFault where
  /-- the bytes end inside a field -/
  | truncated (wanted offset : Nat)
  | badHeader
  | unknownTag (tag : UInt8)
  /-- a text of the pool is not UTF-8 -/
  | notUtf8
  | indexOutOfRange (index : Int)
  | notText (index : Int)
  | notMethodRef (index : Int)
  | notNameAndType (index : Int)
  | interfacesOrFields
  /-- a code attribute too short for its fixed part -/
  | codeTruncated (method : String)
  | trailing (count : Nat)
  /-- code that ends inside an instruction -/
  | instrTruncated (name : String) (offset : Nat)
deriving DecidableEq, Repr

/-- the wording of a fault; bytes that are no text have none -/
def ImageFault.message? : ImageFault → Option String
  | .truncated wanted offset => some s!"truncated module: wanted {wanted} bytes at offset {offset}"
  | .badHeader => some "unexpected module header"
  | .unknownTag tag =>
    let digits := (Nat.toDigits 16 tag.toNat).map Char.toUpper
    some ("unknown constant tag 0x" ++ String.ofList (List.replicate (2 - digits.length) '0' ++ digits))
  | .notUtf8 => none
  | .indexOutOfRange index => some s!"constant pool index {index} out of range"
  | .notText index => some s!"constant #{index} is not a Utf8 entry"
  | .notMethodRef index => some s!"constant #{index} is not a Methodref"
  | .notNameAndType index => some s!"constant #{index} is not a NameAndType"
  | .interfacesOrFields => some "interfaces and fields are not supported"
  | .codeTruncated method => some s!"code attribute of {method} is truncated"
  | .trailing count => some s!"{count} trailing bytes after module"
  | .instrTruncated name offset => some s!"truncated {name} at offset {offset}"

structure MethodImage where
  name : String
  descriptor : String
  flags : Nat
  maxLocals : Nat
  code : Bytes
deriving DecidableEq, Repr

structure Image where
  constants : Pool
  flags : Nat
  thisName : String
  superName : String
  methods : List MethodImage
deriving DecidableEq, Repr

namespace Pool

/-- the entry with a number, which has to be there -/
def entry (p : Pool) (index : Int) : Except ImageFault Constant :=
  match p.get? index with
  | some c => .ok c
  | none => .error (.indexOutOfRange index)

/-- the text with a number -/
def text (p : Pool) (index : Int) : Except ImageFault String := do
  match ← p.entry index with
  | .utf8 s => .ok s
  | _ => .error (.notText index)

end Pool

/-- bytes not yet read, and how many were read before them -/
structure Input where
  rest : Bytes
  offset : Nat
deriving DecidableEq, Repr

abbrev ReadM (α : Type) := Step ImageFault Input α

namespace Image

/-- the next `n` bytes -/
def take (n : Nat) : ReadM Bytes := fun input =>
  let chunk := input.rest.take n
  if chunk.length = n then .ok chunk ⟨input.rest.drop n, input.offset + n⟩
  else .error (.truncated n input.offset) input

/-- a number of `n` bytes -/
def takeNat (n : Nat) : ReadM Nat := do
  return Bytes.ofBE (← take n)

/-- do a step a number of times; the results found are given latest first -/
def repeated {α : Type} (step : ReadM α) (found : List α) : Nat → ReadM (List α)
  | 0 => return found.reverse
  | n + 1 => do
    let a ← step
    repeated step (a :: found) n

def constant : ReadM Constant := do
  let tag ← takeNat 1
  match tag with
  | 0x01 =>
    let length ← takeNat 2
    match Bytes.toText? (← take length) with
    | some s => return .utf8 s
    | none => throw .notUtf8
  | 0x07 => return .classRef (← takeNat 2)
  | 0x0C =>
    let name ← takeNat 2
    let descriptor ← takeNat 2
    return .nameAndType name descriptor
  | 0x0A =>
    let owner ← takeNat 2
    let member ← takeNat 2
    return .methodRef owner member
  | tag => throw (.unknownTag (UInt8.ofNat tag))

/-- the text that an index of two bytes names -/
def name (constants : Pool) : ReadM String := do
  let index ← takeNat 2
  constants.text index

/-- number of locals and code in the payload of a code attribute -/
def codeOf? (payload : Bytes) : Option (Nat × Bytes) :=
  if payload.length < 8 then none else some (Bytes.ofBE ((payload.drop 2).take 2), payload.drop 8)

def attributes (constants : Pool) (m : MethodImage) : Nat → ReadM MethodImage
  | 0 => return m
  | n + 1 => do
    let label ← name constants
    let length ← takeNat 4
    let payload ← take length
    if label = codeName then
      match codeOf? payload with
      | none => throw (.codeTruncated m.name)
      | some (maxLocals, code) => attributes constants { m with maxLocals := maxLocals, code := code } n
    else
      attributes constants m n

def method (constants : Pool) : ReadM MethodImage := do
  let flags ← takeNat 2
  let methodName ← name constants
  let descriptor ← name constants
  let count ← takeNat 2
  attributes constants ⟨methodName, descriptor, flags, 0, []⟩ count

/-- refuse interfaces and fields -/
def nothingElse : ReadM Unit := do
  if (← takeNat 2) ≠ 0 then throw .interfacesOrFields
  if (← takeNat 2) ≠ 0 then throw .interfacesOrFields

/-- all fields of a module in order -/
def readAll : ReadM Image := do
  let header ← take 8
  if header ≠ Module.header then throw .badHeader
  let count ← takeNat 2
  let constants ← repeated constant [] (count - 1)
  let pool : Pool := ⟨constants.toArray⟩
  let flags ← takeNat 2
  let thisName ← name pool
  let superName ← name pool
  nothingElse
  let methodCount ← takeNat 2
  let methods ← repeated (method pool) [] methodCount
  let _ ← takeNat 2
  let input ← get
  if input.rest ≠ [] then throw (.trailing input.rest.length)
  return ⟨pool, flags, thisName, superName, methods⟩

def ofBytes (bytes : Bytes) : Except ImageFault Image :=
  Step.outcome (readAll ⟨bytes, 0⟩)

end Image

end StackLang
