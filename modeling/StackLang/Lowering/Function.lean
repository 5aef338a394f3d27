/-
Lowering of statements, function definitions and programs.

A definition becomes a method: its parameters take the first slots, its statements are lowered in order, and the method
is added to the module when all is well. Calls made before a fault keep their pool entries. Outside of functions only
definitions are lowered; methods added before a fault stay.
-/
import StackLang.Lowering.Value

namespace StackLang.Lower

/-- `let`: the variable exists only after its value -/
def declaration (frame : Frame) (depth : Nat) (name type : Name) (t : Tree) : Lower (Code × Locals) := do
  let _ ← check (TypeWord.requireValue type)
  if frame.locals.contains name then
    violate (.redeclaredVariable name)
  let (code, actual) ← value frame depth t
  if !TypeWord.compatible type actual then
    violate (.cannotInitialize name type actual)
  let (v, locals) ← check (frame.locals.declare name type)
  return (code ++ (← check (store v.slot)), locals)

def assignment (frame : Frame) (depth : Nat) (name : Name) (t : Tree) : Lower Code := do
  let v ← check (frame.locals.get name)
  let (code, actual) ← value frame depth t
  if !TypeWord.compatible v.type actual then
    violate (.cannotReassign v.type actual)
  return code ++ (← check (store v.slot))

/-- `+=` on a declared variable: the value is computed before the variable is read -/
def addition (frame : Frame) (depth : Nat) (name : Name) (t : Tree) : Lower Code := do
  let v ← check (frame.locals.get name)
  let (code, actual) ← value frame depth t
  if !TypeWord.compatible v.type actual then
    violate (.cannotAdd v.type actual)
  return code ++ (← check (load v.slot)) ++ [.iadd] ++ (← check (store v.slot))

/-- a statement of a body: its code, and the variables after it -/
def statement (frame : Frame) (depth : Nat) (t : Tree) : Lower (Code × Locals) := do
  match t with
  | .declare name type t => declaration frame depth name type t
  | .assign name t => return (← assignment frame depth name t, frame.locals)
  | .addAssign name t => return (← addition frame depth name t, frame.locals)
  | .ret t => return ((← value frame depth t).1 ++ [.ireturn], frame.locals)
  | .call f arguments => return ((← call frame (fun t => value frame depth t) f arguments).1, frame.locals)
  | .define .. => violate .nestedDefinition
  | t => violate (.unsupportedStatement t.form)

/-- the statements of a body; the pieces of code found before are given latest first -/
def body (functions : FunctionTable) (depth : Nat) (locals : Locals) (found : List Code) :
    List Tree → Lower (Code × Locals)
  | [] => return (found.reverse.flatten, locals)
  | t :: rest => do
    let (code, locals) ← statement ⟨functions, locals⟩ depth t
    body functions depth locals (code :: found) rest

/-- the variables of a function before its first statement -/
def parameterLocals (parameters : List Parameter) : Except Violation Locals :=
  parameters.foldlM (fun l p => return (← l.declare p.name p.type).2) .empty

/-- a definition: gives its code and adds it to the module as a method -/
def definition (functions : FunctionTable) (depth : Nat) (name : Name) (parameters : List Parameter)
    (returns : Name) (statements : List Tree) : Lower Code := do
  let locals ← check (parameterLocals parameters)
  let (code, locals) ← body functions depth locals [] statements
  if code.size > maxCodeSize then
    violate (.functionTooLarge name)
  let descriptor ← check (Signature.descriptor ⟨returns, parameters⟩)
  let _ ← onModule (Module.addMethod name.display descriptor (Code.encode code) locals.count)
  return code

def definitions (functions : FunctionTable) (depth : Nat) : List Tree → Lower Unit
  | [] => return ()
  | .define name parameters returns statements :: rest => do
    let _ ← definition functions depth name parameters returns statements
    definitions functions depth rest
  | t :: _ => violate (.outsideFunction t.form)

end StackLang.Lower
