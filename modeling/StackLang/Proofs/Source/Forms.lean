/-
Which form may stand where in a tree.

A tree built by hand may hold any form anywhere. The grammar has arithmetic (`Tree.IsOperand`), whole expressions
(`Tree.IsValue`), statements of a body (`Tree.IsPlain`) and statements of a program (`Tree.IsStatement`); each says of
every form in it where it may stand. Which names and numbers a tree may carry depends on where it comes from, so it is
left open (`Atoms`).
-/
import Mathlib.Tactic
import StackLang.Source.Tree

namespace StackLang

/-- the names and the numbers that a tree may carry -/
structure Atoms where
  name : Name → Prop
  number : Int → Prop

def BinaryOp.IsSign : BinaryOp → Prop
  | .other _ => False
  | _ => True

namespace Tree

/-- a variable that is a whole expression -/
def IsIdent (atoms : Atoms) : Tree → Prop
  | .ident x => atoms.name x
  | _ => False

mutual

/-- arithmetic: numbers, variables and calls, signs in front of arithmetic, operators between arithmetic -/
def IsOperand (atoms : Atoms) : Tree → Prop
  | .number n => atoms.number n
  | .name x => atoms.name x
  | .callOperand t => t.IsCall atoms
  | .positive t | .negative t => t.IsOperand atoms
  | .binary op l r => op.IsSign ∧ l.IsOperand atoms ∧ r.IsOperand atoms
  | _ => False

def IsCall (atoms : Atoms) : Tree → Prop
  | .call f arguments => atoms.name f ∧ AreValues atoms arguments
  | _ => False

def AreValues (atoms : Atoms) : List Tree → Prop
  | [] => True
  | t :: rest => (t.IsIdent atoms ∨ t.IsCall atoms ∨ t.IsOperand atoms) ∧ AreValues atoms rest

end

/-- a whole expression: a variable, a call or arithmetic -/
def IsValue (atoms : Atoms) (t : Tree) : Prop :=
  t.IsIdent atoms ∨ t.IsCall atoms ∨ t.IsOperand atoms

/-- a statement of a body -/
def IsPlain (atoms : Atoms) : Tree → Prop
  | .ret v => v.IsValue atoms
  | .declare x type v => atoms.name x ∧ atoms.name type ∧ v.IsValue atoms
  | .assign x v | .addAssign x v => atoms.name x ∧ v.IsValue atoms
  | .call f arguments => (call f arguments).IsCall atoms
  | _ => False

def IsStatement (atoms : Atoms) : Tree → Prop
  | .define f parameters _ body =>
    atoms.name f ∧ (∀ p ∈ parameters, atoms.name p.name) ∧ ∀ t ∈ body, t.IsPlain atoms
  | t => t.IsPlain atoms

variable {atoms : Atoms} {t : Tree}

theorem areValues_iff {trees : List Tree} : AreValues atoms trees ↔ ∀ t ∈ trees, t.IsValue atoms := by
  induction trees with
  | nil => simp [AreValues]
  | cons t rest ih => simp [AreValues, IsValue, ih]

theorem isCall_iff {f : Name} {arguments : List Tree} :
    (call f arguments).IsCall atoms ↔ atoms.name f ∧ ∀ t ∈ arguments, t.IsValue atoms := by
  rw [IsCall, areValues_iff]

theorem IsOperand.isArithmetic (h : t.IsOperand atoms) : t.isArithmetic = true := by
  cases t with
  | ident | call | ret | declare | assign | addAssign | define | program => cases h
  | _ => rfl

theorem IsPlain.isStatement (h : t.IsPlain atoms) : t.IsStatement atoms := by
  cases t with
  | define => cases h
  | _ => exact h

end Tree

end StackLang
