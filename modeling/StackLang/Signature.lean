/-
Types, signatures and descriptors.

Types are names: `int` is the only type of values, results may also be `void`. A descriptor writes a signature with one
letter for each type, the parameters between parentheses: `(II)V`.
-/
import StackLang.Violation

namespace StackLang

structure Parameter where
  name : Name
  type : Name
deriving DecidableEq, Repr

/-- what a call of a function needs to know about it -/
structure Signature where
  returns : Name
  parameters : List Parameter
deriving DecidableEq, Repr

def Signature.arity (s : Signature) : Nat :=
  s.parameters.length

/-- a signature as it is shown to people: `(a int, b int) void` -/
def Signature.display (s : Signature) : String :=
  let parameters := ", ".intercalate (s.parameters.map fun p => s!"{p.name} {p.type}")
  s!"({parameters}) {s.returns}"

namespace TypeWord

def int : Name := "int"

def void : Name := "void"

/-- types that a variable, parameter or argument can have -/
def requireValue (t : Name) : Except Violation Name :=
  if t = int then .ok t else .error (.unknownType t)

/-- types that a function can return -/
def requireReturn (t : Name) : Except Violation Name :=
  if t = int ∨ t = void then .ok t else .error (.unknownReturnType t)

/-- whether a value of the actual type may go where the declared type stands -/
def compatible (declared actual : Name) : Bool :=
  declared = actual && declared = int

/-- the letter of a type in descriptors -/
def letter (t : Name) : Except Violation Char :=
  if t = int then .ok 'I' else if t = void then .ok 'V' else .error (.noDescriptor t)

end TypeWord

/-- the descriptor of a signature; fails at the first type, parameters before the result, that has no letter -/
def Signature.descriptor (s : Signature) : Except Violation String := do
  let parameters ← s.parameters.mapM fun p => TypeWord.letter p.type
  let returns ← TypeWord.letter s.returns
  return String.ofList ('(' :: parameters ++ [')', returns])

end StackLang
