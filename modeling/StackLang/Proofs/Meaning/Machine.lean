/-
The stack machine that runs the methods of a module.

A method starts with its arguments in the first slots and an empty stack. Arithmetic works on integers of 32 bits that
wrap around, division truncates. A call finds a name and a descriptor through the pool, takes as many arguments off
the stack as the descriptor lists, and runs the method of that name; the caller gets a result exactly when the
descriptor ends in `I`. The built-in `println` notes its argument.

`step` is one step of the machine. Halted states stay (`iterate_halted`), so a state reached by steps that is halted
is the end of the run.
-/
import Mathlib.Tactic
import StackLang.Proofs.Meaning.Evaluation
import StackLang.Proofs.Target.Decoding
import StackLang.Proofs.Target.Descriptors
import StackLang.Proofs.Target.Pools

namespace StackLang

namespace Machine

/-- a method at work -/
structure Activation where
  /-- the instructions still to come -/
  code : Code
  locals : Store Nat
  /-- latest first -/
  stack : List Int32
  /-- whether the caller takes a result -/
  gives : Bool

namespace Activation

/-- a method at its first instruction -/
def start (code : Code) (arguments : List Int32) (gives : Bool) : Activation :=
  ⟨code, fun slot => arguments[slot]?, [], gives⟩

def push (a : Activation) (v : Int32) : Activation :=
  { a with stack := v :: a.stack }

def store (a : Activation) (slot : Nat) (v : Int32) : Activation :=
  { a with locals := a.locals.set slot v }

/-- with these instructions in front of those still to come -/
def before (a : Activation) (code : Code) : Activation :=
  { a with code := code ++ a.code }

end Activation

inductive State where
  /-- the method at work, the methods that wait for it, latest first, and what was printed so far -/
  | running (top : Activation) (callers : List Activation) (printed : List Int32)
  | halted (outcome : Outcome) (printed : List Int32)

def stuck (printed : List Int32) : State :=
  .halted (.trapped .stuck) printed

/-- a method has come to its end, with or without a result -/
def leave (gives : Bool) (found : Option Int32) (callers : List Activation) (printed : List Int32) : State :=
  match callers, gives, found with
  | [], _, some v => .halted (.returned v) printed
  | [], _, none => .halted .fellThrough printed
  | caller :: below, true, some v => .running (caller.push v) below printed
  | _ :: _, true, none => .halted (.trapped .missingResult) printed
  | caller :: below, false, _ => .running caller below printed

/-- start what a reference leads to, on arguments taken from the caller -/
def enter (image : Image) (r : MethodReference) (gives : Bool) (arguments : List Int32) (caller : Activation)
    (callers : List Activation) (printed : List Int32) : State :=
  if r.owner ≠ image.thisName then stuck printed
  else if r.name = "println" then
    match arguments with
    | [v] => .running caller callers (printed ++ [v])
    | _ => stuck printed
  else
    match (image.methods.find? (·.name = r.name)).bind fun method => Code.decode? method.code with
    | some code => .running (.start code arguments gives) (caller :: callers) printed
    | none => stuck printed

/-- call what a pool entry refers to -/
def invoke (image : Image) (index : UInt16) (top : Activation) (callers : List Activation) (printed : List Int32) :
    State :=
  match image.constants.reference? index.toNat with
  | none => stuck printed
  | some r =>
    match descriptorShape? r.descriptor with
    | none => stuck printed
    | some (arity, gives) =>
      if top.stack.length < arity then stuck printed
      else enter image r gives (top.stack.take arity).reverse { top with stack := top.stack.drop arity } callers printed

def load (slot : Nat) (top : Activation) (callers : List Activation) (printed : List Int32) : State :=
  match top.locals slot with
  | some v => .running (top.push v) callers printed
  | none => stuck printed

def divide (a b : Int32) (top : Activation) (callers : List Activation) (printed : List Int32) : State :=
  if b = 0 then .halted (.trapped .divisionByZero) printed else .running (top.push (a / b)) callers printed

/-- an instruction, taken off the code before -/
def perform (image : Image) (i : Instr) (top : Activation) (callers : List Activation) (printed : List Int32) : State :=
  match i, top.stack with
  | .iconst v, _ => .running (top.push (Int32.ofInt ((v : Nat) - 1 : Int))) callers printed
  | .iload slot, _ => load slot.toNat top callers printed
  | .iloadShort slot, _ => load slot top callers printed
  | .istore slot, v :: stack => .running (Activation.store { top with stack := stack } slot.toNat v) callers printed
  | .istoreShort slot, v :: stack => .running (Activation.store { top with stack := stack } slot v) callers printed
  | .iadd, b :: a :: stack => .running { top with stack := (a + b) :: stack } callers printed
  | .isub, b :: a :: stack => .running { top with stack := (a - b) :: stack } callers printed
  | .imul, b :: a :: stack => .running { top with stack := (a * b) :: stack } callers printed
  | .idiv, b :: a :: stack => divide a b { top with stack := stack } callers printed
  | .ineg, a :: stack => .running { top with stack := (-a) :: stack } callers printed
  | .ireturn, v :: _ => leave top.gives (some v) callers printed
  | .invokevirtual index, _ => invoke image index top callers printed
  | _, _ => stuck printed

/-- a method on its own: nobody waits for its result -/
def start (method : MethodImage) (arguments : List Int32) : State :=
  match Code.decode? method.code with
  | some code => .running (.start code arguments true) [] []
  | none => stuck []

/-- one step: the next instruction, or the end of the code -/
def step (image : Image) : State → State
  | .running top callers printed =>
    match top.code with
    | [] => leave top.gives none callers printed
    | i :: rest => perform image i { top with code := rest } callers printed
  | .halted outcome printed => .halted outcome printed

/-! ## Runs -/

variable {image : Image}

/-- a halted machine stays halted -/
theorem iterate_halted (image : Image) (outcome : Outcome) (printed : List Int32) (n : Nat) :
    (step image)^[n] (.halted outcome printed) = .halted outcome printed :=
  Function.iterate_fixed rfl n

/-- some steps lead from one state to another -/
def Reaches (image : Image) (s s' : State) : Prop :=
  ∃ n, (step image)^[n] s = s'

theorem Reaches.refl (s : State) : Reaches image s s :=
  ⟨0, rfl⟩

theorem Reaches.trans {s₁ s₂ s₃ : State} (h : Reaches image s₁ s₂) (h' : Reaches image s₂ s₃) :
    Reaches image s₁ s₃ := by
  obtain ⟨n, rfl⟩ := h
  obtain ⟨m, rfl⟩ := h'
  exact ⟨m + n, Function.iterate_add_apply _ m n s₁⟩

/-- a run that reaches a halted state has ended there from some point on -/
theorem Reaches.settles {s : State} {outcome : Outcome} {printed : List Int32}
    (h : Reaches image s (.halted outcome printed)) :
    ∃ n, ∀ m, n ≤ m → (Machine.step image)^[m] s = .halted outcome printed := by
  obtain ⟨n, h⟩ := h
  refine ⟨n, fun m hm => ?_⟩
  obtain ⟨k, rfl⟩ := Nat.exists_eq_add_of_le' hm
  rw [Function.iterate_add_apply, h]
  exact iterate_halted image outcome printed k

end Machine

end StackLang
