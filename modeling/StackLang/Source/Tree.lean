/-
Syntax trees.

One type holds all forms, so that a tree built by hand may put any form anywhere; what the grammar admits is a property
of trees, and every consumer says what it does with a form out of place. `form` is the name that messages give a form.
-/
import StackLang.Signature

namespace StackLang

/-- binary operators; a tree built by hand may carry another word -/
inductive BinaryOp where
  | add
  | sub
  | mul
  | div
  | pow
  | other (word : String)
deriving DecidableEq, Repr

namespace BinaryOp

def word : BinaryOp → String
  | .add => "add"
  | .sub => "sub"
  | .mul => "mul"
  | .div => "div"
  | .pow => "pow"
  | .other w => w

def ofWord (w : String) : BinaryOp :=
  if w = "add" then .add
  else if w = "sub" then .sub
  else if w = "mul" then .mul
  else if w = "div" then .div
  else if w = "pow" then .pow
  else .other w

end BinaryOp

/-- expressions, statements, definitions and programs -/
inductive Tree where
  | number (value : Int)
  /-- a variable as an operand of arithmetic -/
  | name (name : Name)
  /-- a variable that is a whole expression -/
  | ident (name : Name)
  | positive (operand : Tree)
  | negative (operand : Tree)
  | binary (op : BinaryOp) (left right : Tree)
  /-- a call as an operand of arithmetic -/
  | callOperand (call : Tree)
  | call (function : Name) (arguments : List Tree)
  | ret (value : Tree)
  | declare (name type : Name) (value : Tree)
  | assign (name : Name) (value : Tree)
  | addAssign (name : Name) (value : Tree)
  | define (name : Name) (parameters : List Parameter) (returns : Name) (body : List Tree)
  | program (statements : List Tree)
deriving Repr, Inhabited

namespace Tree

/-- the name of a form in messages -/
def form : Tree → String
  | .number _ => "NumberLeaf"
  | .name _ => "NameLeaf"
  | .ident _ => "Identifier"
  | .positive _ => "Positive"
  | .negative _ => "Negative"
  | .binary .. => "BinaryNode"
  | .callOperand _ => "CallLeaf"
  | .call .. => "FunctionCall"
  | .ret _ => "Return"
  | .declare .. => "VarDecl"
  | .assign .. => "VarReassign"
  | .addAssign .. => "AddAssign"
  | .define .. => "FunctionDef"
  | .program _ => "Program"

/-- the name that a form carries: a variable's, or that of the function called or defined -/
def name? : Tree → Option Name
  | .name x | .ident x | .call x _ | .declare x _ _ | .assign x _ | .addAssign x _ | .define x _ _ _ => some x
  | _ => none

def isArithmetic : Tree → Bool
  | .number _ | .name _ | .callOperand _ | .positive _ | .negative _ | .binary .. => true
  | _ => false

mutual

/-- whether two trees are equal: the same form with equal parts -/
def same : Tree → Tree → Bool
  | .number m, .number n => m == n
  | .name x, .name y | .ident x, .ident y => x == y
  | .positive t, .positive u | .negative t, .negative u | .callOperand t, .callOperand u | .ret t, .ret u => same t u
  | .binary op t t', .binary op' u u' => op == op' && same t u && same t' u'
  | .call f ts, .call g us => f == g && sameAll ts us
  | .declare x type t, .declare y type' u => x == y && type == type' && same t u
  | .assign x t, .assign y u | .addAssign x t, .addAssign y u => x == y && same t u
  | .define f ps r ts, .define g qs r' us => f == g && ps == qs && r == r' && sameAll ts us
  | .program ts, .program us => sameAll ts us
  | _, _ => false

def sameAll : List Tree → List Tree → Bool
  | [], [] => true
  | t :: ts, u :: us => same t u && sameAll ts us
  | _, _ => false

end

mutual

theorem same_iff : ∀ t u : Tree, same t u = true ↔ t = u
  | .number _, u | .name _, u | .ident _, u => by cases u <;> simp [same]
  | .positive t, u | .negative t, u | .callOperand t, u | .ret t, u => by cases u <;> simp [same, same_iff t]
  | .binary _ t t', u => by cases u <;> simp [same, same_iff t, same_iff t', and_assoc]
  | .declare _ _ t, u | .assign _ t, u | .addAssign _ t, u => by cases u <;> simp [same, same_iff t, and_assoc]
  | .call _ ts, u | .define _ _ _ ts, u | .program ts, u => by cases u <;> simp [same, sameAll_iff ts, and_assoc]

theorem sameAll_iff : ∀ ts us : List Tree, sameAll ts us = true ↔ ts = us
  | [], us => by cases us <;> simp [sameAll]
  | t :: ts, us => by cases us <;> simp [sameAll, same_iff t, sameAll_iff ts]

end

instance : DecidableEq Tree :=
  fun t u => decidable_of_iff _ (same_iff t u)

end Tree

end StackLang
