/-
Bytes and big-endian fields.

A field of two or four bytes holds a natural number; writing checks that the number fits, and the fault names the
field. `ofBE` reads any row of bytes as a number, most significant byte first.
-/
namespace StackLang

abbrev Bytes := List UInt8

namespace Bytes

/-- the number that a row of bytes stands for, most significant byte first -/
def ofBE (bs : Bytes) : Nat :=
  bs.foldl (fun n b => 256 * n + b.toNat) 0

def two (n : Nat) : Bytes :=
  [UInt8.ofNat (n / 0x100), UInt8.ofNat n]

def four (n : Nat) : Bytes :=
  [UInt8.ofNat (n / 0x1000000), UInt8.ofNat (n / 0x10000), UInt8.ofNat (n / 0x100), UInt8.ofNat n]

def ofText (s : String) : Bytes :=
  s.toUTF8.data.toList

/-- the text that bytes stand for; `none` unless they are well-formed UTF-8 -/
def toText? (bs : Bytes) : Option String :=
  String.fromUTF8? ⟨bs.toArray⟩

@[simp] theorem length_two (n : Nat) : (two n).length = 2 := rfl

@[simp] theorem length_four (n : Nat) : (four n).length = 4 := rfl

/-- two bytes hold every number below 2¹⁶ -/
theorem ofBE_two {n : Nat} (h : n < 0x10000) : ofBE (two n) = n := by
  simp only [ofBE, two, List.foldl_cons, List.foldl_nil, UInt8.toNat_ofNat']
  omega

/-- four bytes hold every number below 2³² -/
theorem ofBE_four {n : Nat} (h : n < 0x100000000) : ofBE (four n) = n := by
  simp only [ofBE, four, List.foldl_cons, List.foldl_nil, UInt8.toNat_ofNat']
  omega

/-- a text is read back from its bytes -/
theorem toText?_ofText (s : String) : toText? (ofText s) = some s := by
  have h : (⟨(ofText s).toArray⟩ : ByteArray) = s.toUTF8 := by simp [ofText]
  rw [toText?, h, String.fromUTF8?, dif_pos (by simpa using s.isValidUTF8)]
  rfl

end Bytes

/-- why a module, or a part of one, has no byte form -/
inductive WriteFault where
  | poolFull
  /-- a number that does not fit in its field of two bytes -/
  | beyondTwo (field : String) (value : Int)
  /-- a number that does not fit in its field of four bytes -/
  | beyondFour (field : String) (value : Int)
  | unsupportedConstant (value : Int)
  /-- a module does not change once its bytes are fixed -/
  | alreadySerialized (name : String)
deriving DecidableEq, Repr

def WriteFault.message : WriteFault → String
  | .poolFull => "constant pool is full"
  | .beyondTwo field value => s!"{field} {value} does not fit in two bytes"
  | .beyondFour field value => s!"{field} {value} does not fit in four bytes"
  | .unsupportedConstant value => s!"unsupported constant {value}"
  | .alreadySerialized name => s!"module {name} has already been serialized"

def twoBytes (field : String) (value : Int) : Except WriteFault Bytes :=
  if 0 ≤ value ∧ value ≤ 0xFFFF then .ok (.two value.toNat) else .error (.beyondTwo field value)

def fourBytes (field : String) (value : Int) : Except WriteFault Bytes :=
  if 0 ≤ value ∧ value ≤ 0xFFFFFFFF then .ok (.four value.toNat) else .error (.beyondFour field value)

end StackLang
