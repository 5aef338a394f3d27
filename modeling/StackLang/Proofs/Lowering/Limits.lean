/-
The limits of lowering.

What the reader leaves open, lowering decides: which variables are in scope and in reach, how many arguments a call has,
where a function without a result may be called, how large literals, powers and functions may get, and how many calls a
module has room for. The rules are said of the parts of a tree one by one (`Tree.Allowed` over `Tree.parts`), with the
variables in the order of their slots and sizes counted from the tree (`Tree.codeSize`), not from its code.
-/
import StackLang.Proofs.Lowering.Emitted

namespace StackLang

/-- the number of bytes that loading or storing a slot takes -/
def slotSize (slot : Nat) : Nat :=
  if slot < 4 then 1 else 2

namespace Tree

mutual

/-- the parts of a statement that are lowered, itself included; the exponent of a power is no such part -/
def parts : Tree → List Tree
  | .number n => [.number n]
  | .name x => [.name x]
  | .ident x => [.ident x]
  | .positive t => .positive t :: t.parts
  | .negative t => .negative t :: t.parts
  | .binary .pow base exponent => .binary .pow base exponent :: base.parts
  | .binary op l r => .binary op l r :: (l.parts ++ r.parts)
  | .callOperand t => .callOperand t :: t.parts
  | .call f arguments => .call f arguments :: partsOfAll arguments
  | .ret v => .ret v :: v.parts
  | .declare x type v => .declare x type v :: v.parts
  | .assign x v => .assign x v :: v.parts
  | .addAssign x v => .addAssign x v :: v.parts
  | .define .. | .program _ => []

def partsOfAll : List Tree → List Tree
  | [] => []
  | t :: rest => t.parts ++ partsOfAll rest

end

/-- a literal whose negation is pushed as one constant -/
def isNegatable : Tree → Bool
  | .number n => decide (-5 ≤ n ∧ n ≤ 1)
  | _ => false

/-- the number of bytes of a power whose base takes `size` bytes -/
def powerSize (size : Nat) : Tree → Nat
  | .number n => if n = 0 then 1 else size + (n - 1).toNat * (size + 1)
  | _ => 0

mutual

/-- the number of bytes that a statement or an expression takes, with the variables in scope in the order of their slots -/
def codeSize (scope : List Name) : Tree → Nat
  | .number _ => 1
  | .name x | .ident x => slotSize (scope.idxOf x)
  | .positive t => t.codeSize scope
  | .negative t => if t.isNegatable then 1 else t.codeSize scope + 1
  | .binary .pow base exponent => powerSize (base.codeSize scope) exponent
  | .binary _ l r => l.codeSize scope + r.codeSize scope + 1
  | .callOperand t => t.codeSize scope
  | .call _ arguments => codeSizeOfAll scope arguments + 3
  | .ret v => v.codeSize scope + 1
  | .declare _ _ v => v.codeSize scope + slotSize scope.length
  | .assign x v => v.codeSize scope + slotSize (scope.idxOf x)
  | .addAssign x v => v.codeSize scope + slotSize (scope.idxOf x) + 1 + slotSize (scope.idxOf x)
  | .define .. | .program _ => 0

def codeSizeOfAll (scope : List Name) : List Tree → Nat
  | [] => 0
  | t :: rest => t.codeSize scope + codeSizeOfAll scope rest

end

/-- an expression that is no call of a function without a result -/
def GivesValue (functions : FunctionTable) : Tree → Prop
  | .call f _ => (functions.find? f).map (·.returns) ≠ some TypeWord.void
  | _ => True

/-- the rule for one part, with the variables in scope in the order of their slots -/
def Allowed (functions : FunctionTable) (scope : List Name) : Tree → Prop
  | .number n => n ≤ 5
  | .name x | .ident x => x ∈ scope ∧ scope.idxOf x ≤ 255
  | .binary .pow base (.number n) => base.callFree = true ∧ (1 ≤ n → n * base.codeSize scope ≤ 65535)
  | .binary .pow _ _ => False
  | .call f arguments =>
    (functions.find? f).map (·.arity) = some arguments.length ∧ ∀ a ∈ arguments, a.GivesValue functions
  | .ret v => v.GivesValue functions
  | .declare _ type v => type = TypeWord.int ∧ scope.length ≤ 255 ∧ v.GivesValue functions
  | .assign x v | .addAssign x v => (x ∈ scope ∧ scope.idxOf x ≤ 255) ∧ v.GivesValue functions
  | _ => True

def AllAllowed (functions : FunctionTable) (scope : List Name) (t : Tree) : Prop :=
  ∀ u ∈ t.parts, u.Allowed functions scope

/-! ## The rules form by form -/

section

variable {functions : FunctionTable} {scope : List Name} {t l r v : Tree} {x type : Name} {n : Int}

theorem allAllowed_number : (number n).AllAllowed functions scope ↔ n ≤ 5 :=
  List.forall_mem_singleton

theorem allAllowed_name : (name x).AllAllowed functions scope ↔ x ∈ scope ∧ scope.idxOf x ≤ 255 :=
  List.forall_mem_singleton

theorem allAllowed_ident : (ident x).AllAllowed functions scope ↔ x ∈ scope ∧ scope.idxOf x ≤ 255 :=
  List.forall_mem_singleton

theorem allAllowed_positive : (positive t).AllAllowed functions scope ↔ t.AllAllowed functions scope :=
  List.forall_mem_cons.trans (and_iff_right trivial)

theorem allAllowed_negative : (negative t).AllAllowed functions scope ↔ t.AllAllowed functions scope :=
  List.forall_mem_cons.trans (and_iff_right trivial)

theorem allAllowed_callOperand : (callOperand t).AllAllowed functions scope ↔ t.AllAllowed functions scope :=
  List.forall_mem_cons.trans (and_iff_right trivial)

theorem allAllowed_power :
    (binary .pow l (.number n)).AllAllowed functions scope ↔
      (l.callFree = true ∧ (1 ≤ n → n * l.codeSize scope ≤ 65535)) ∧ l.AllAllowed functions scope :=
  List.forall_mem_cons

/-- the exponent of a power has to be a number -/
theorem exponent_of_allAllowed (h : (binary .pow l r).AllAllowed functions scope) : ∃ n, r = .number n := by
  have hself : (binary .pow l r).Allowed functions scope := h _ List.mem_cons_self
  cases r with
  | number n => exact ⟨n, rfl⟩
  | _ => cases hself

theorem allAllowed_binary {op : BinaryOp} (hop : op ≠ .pow) :
    (binary op l r).AllAllowed functions scope ↔ l.AllAllowed functions scope ∧ r.AllAllowed functions scope := by
  have hrow : (∀ u ∈ binary op l r :: (l.parts ++ r.parts), u.Allowed functions scope) ↔
      (binary op l r).Allowed functions scope ∧ l.AllAllowed functions scope ∧ r.AllAllowed functions scope :=
    List.forall_mem_cons.trans (and_congr_right fun _ => List.forall_mem_append)
  cases op with
  | pow => cases hop rfl
  | _ => exact hrow.trans (and_iff_right trivial)

theorem allAllowed_call {f : Name} {arguments : List Tree} :
    (call f arguments).AllAllowed functions scope ↔
      ((functions.find? f).map (·.arity) = some arguments.length ∧ ∀ a ∈ arguments, a.GivesValue functions) ∧
        ∀ u ∈ partsOfAll arguments, u.Allowed functions scope :=
  List.forall_mem_cons

theorem allAllowed_ret :
    (ret v).AllAllowed functions scope ↔ v.GivesValue functions ∧ v.AllAllowed functions scope :=
  List.forall_mem_cons

theorem allAllowed_declare :
    (declare x type v).AllAllowed functions scope ↔
      (type = TypeWord.int ∧ scope.length ≤ 255 ∧ v.GivesValue functions) ∧ v.AllAllowed functions scope :=
  List.forall_mem_cons

theorem allAllowed_assign :
    (assign x v).AllAllowed functions scope ↔
      ((x ∈ scope ∧ scope.idxOf x ≤ 255) ∧ v.GivesValue functions) ∧ v.AllAllowed functions scope :=
  List.forall_mem_cons

theorem allAllowed_addAssign :
    (addAssign x v).AllAllowed functions scope ↔
      ((x ∈ scope ∧ scope.idxOf x ≤ 255) ∧ v.GivesValue functions) ∧ v.AllAllowed functions scope :=
  List.forall_mem_cons

end

end Tree

/-- the statements of a body keep the rules; a variable is in scope after the statement that declares it -/
def BodyAllowed (functions : FunctionTable) (scope : List Name) : List Tree → Prop
  | [] => True
  | t :: rest => t.AllAllowed functions scope ∧ BodyAllowed functions (scope ++ t.declared?.toList) rest

def bodySize (scope : List Name) : List Tree → Nat
  | [] => 0
  | t :: rest => t.codeSize scope + bodySize (scope ++ t.declared?.toList) rest

/-- the rules for a definition, whose parameters have the first slots -/
structure DefinitionAllowed (functions : FunctionTable) (parameters : List Parameter) (body : List Tree) : Prop where
  statements : BodyAllowed functions (parameters.map (·.name)) body
  size : bodySize (parameters.map (·.name)) body ≤ 65535
  locals : parameters.length + (body.filterMap Tree.declared?).length ≤ 65535

end StackLang
