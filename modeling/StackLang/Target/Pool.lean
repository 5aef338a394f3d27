/-
The constant pool of a module.

Entries are numbered from 1 and only ever added; equal entries are not shared. The byte form writes the number of
entries plus one in two bytes, so the last number is 65534, and a full pool takes no more. A composite entry is added
after the entries it refers to, and what was added before the pool filled up stays.
-/
import StackLang.Step
import StackLang.Target.Bytes

namespace StackLang

/-- an entry of a constant pool; entries refer to each other by number -/
inductive Constant where
  | utf8 (text : String)
  | classRef (name : Int)
  | nameAndType (name descriptor : Int)
  /-- owner, and name with descriptor -/
  | methodRef (owner member : Int)
  /-- a bare number, which has no byte form -/
  | number (value : Int)
deriving DecidableEq, Repr, Inhabited

def Constant.encode : Constant → Except WriteFault Bytes
  | .utf8 text => do
    let bytes := Bytes.ofText text
    let length ← twoBytes "utf8 length" bytes.length
    return 0x01 :: length ++ bytes
  | .classRef name => do
    let name ← twoBytes "class name index" name
    return 0x07 :: name
  | .nameAndType name descriptor => do
    let name ← twoBytes "name index" name
    let descriptor ← twoBytes "descriptor index" descriptor
    return 0x0C :: name ++ descriptor
  | .methodRef owner member => do
    let owner ← twoBytes "class index" owner
    let member ← twoBytes "name-and-type index" member
    return 0x0A :: owner ++ member
  | .number value => .error (.unsupportedConstant value)

/-- the entries of a pool; entry number `i` stands at place `i - 1` -/
structure Pool where
  entries : Array Constant
deriving DecidableEq, Repr

abbrev PoolM (α : Type) := Step WriteFault Pool α

namespace Pool

def empty : Pool := ⟨#[]⟩

def size (p : Pool) : Nat :=
  p.entries.size

def get? (p : Pool) (index : Int) : Option Constant :=
  if 1 ≤ index then p.entries[(index - 1).toNat]? else none

/-- the largest number of entries -/
def capacity : Nat := 0xFFFE

/-- add an entry and give its number -/
def add (c : Constant) : PoolM Nat := fun p =>
  if p.size < capacity then .ok (p.size + 1) ⟨p.entries.push c⟩ else .error .poolFull p

def addUtf8 (text : String) : PoolM Nat :=
  add (.utf8 text)

/-- add a class reference after its name -/
def addClass (name : String) : PoolM Nat := do
  let name ← addUtf8 name
  add (.classRef name)

/-- add a name with a descriptor after the two texts -/
def addNameAndType (name descriptor : String) : PoolM Nat := do
  let name ← addUtf8 name
  let descriptor ← addUtf8 descriptor
  add (.nameAndType name descriptor)

/-- add a method reference after its name with descriptor and its owner -/
def addMethodRef (owner name descriptor : String) : PoolM Nat := do
  let member ← addNameAndType name descriptor
  let owner ← addClass owner
  add (.methodRef owner member)

/-- the first `n` entries alone -/
def keep (p : Pool) (n : Nat) : Pool :=
  ⟨p.entries.take n⟩

/-- an entry takes the next number, and only if there is room -/
theorem add_eq_ok_iff (c : Constant) (p p' : Pool) (n : Nat) :
    add c p = .ok n p' ↔ p.size < capacity ∧ n = p.size + 1 ∧ p' = ⟨p.entries.push c⟩ := by
  unfold add
  split
  · simp_all [eq_comm]
  · simp only [reduceCtorEq, false_iff, not_and]
    intro h
    contradiction

/-- an entry is found under the number it was given, and the others stay -/
theorem get?_push (p : Pool) (c : Constant) (n : Nat) :
    Pool.get? ⟨p.entries.push c⟩ (n + 1 : Nat) = if n = p.size then some c else p.get? (n + 1 : Nat) := by
  have h : (1 : Int) ≤ (n + 1 : Nat) := by omega
  have e : (((n + 1 : Nat) : Int) - 1).toNat = n := by omega
  simp only [get?, h, if_true, e, size, Array.getElem?_push]

def encode (p : Pool) : Except WriteFault Bytes := do
  let parts ← p.entries.toList.mapM Constant.encode
  return parts.flatten

end Pool

end StackLang
