/-
Rules of meaning, by the ways to break them.

A violation is found while a definition is read (it then carries the place of a token) or while it is lowered (no
place). `Violation.message` is the one wording of each.
-/
import StackLang.Name

namespace StackLang

/-- a rule of the language that a well-formed text breaks -/
inductive Violation where
  /-- no type for values has this name -/
  | unknownType (type : Name)
  /-- no type for results has this name -/
  | unknownReturnType (type : Name)
  /-- the type has no letter in descriptors -/
  | noDescriptor (type : Name)
  | redeclaredVariable (name : Name)
  | undeclaredVariable (name : Name)
  | functionExists (name : Name)
  | undefinedFunction (name : Name)
  | nestedDefinition
  /-- a call that is an operand must give an integer -/
  | callNotInt (function type : Name)
  /-- a numeral that stands for no number of acceptable size -/
  | numeralTooLarge
  /-- a form that is no definition stands outside all functions -/
  | outsideFunction (form : String)
  | functionTooLarge (name : Name)
  | unsupportedStatement (form : String)
  | unsupportedExpression (form : String)
  | unsupportedOperand (form : String)
  | unsupportedOperator (operator : String)
  | cannotInitialize (name declared actual : Name)
  | cannotReassign (declared actual : Name)
  | cannotAdd (declared actual : Name)
  /-- an argument whose type is not the parameter's -/
  | argumentMismatch (parameter function declared actual : Name)
  | wrongArity (function : Name) (expected given : Nat)
  | voidResult (function : Name)
  | variableNotInt (name type : Name)
  | exponentNotLiteral
  | callInBase
  | exponentTooLarge (exponent : Int)
  /-- only −1 through 5 have an instruction that pushes them -/
  | numberTooLarge (value : Int)
  /-- load and store reach 256 locals only -/
  | slotOutOfReach (slot : Nat)
  | nestedTooDeeply
deriving DecidableEq, Repr

/-- the wording of a violation; names are inserted as they are -/
def Violation.message : Violation → String
  | .unknownType t => s!"unknown type '{t}'"
  | .unknownReturnType t => s!"unknown return type '{t}'"
  | .noDescriptor t => s!"type '{t}' has no descriptor encoding"
  | .redeclaredVariable x => s!"cannot redeclare variable '{x}'"
  | .undeclaredVariable x => s!"cannot use undeclared variable '{x}'"
  | .functionExists f =>
    s!"cannot define a function with the name '{f}' (function with that name already exists)"
  | .undefinedFunction f => s!"cannot call undefined function '{f}'"
  | .nestedDefinition => "cannot define function inside another function"
  | .callNotInt f t => s!"cannot use function '{f}' with return type {t} in an arithmetic expression"
  | .numeralTooLarge => "number is too large"
  | .outsideFunction form => s!"{form} statements are only allowed inside a function body"
  | .functionTooLarge f => s!"function '{f}' is too large to encode"
  | .unsupportedStatement form => s!"unsupported statement {form}"
  | .unsupportedExpression form => s!"unsupported expression type {form}"
  | .unsupportedOperand form => s!"unsupported arithmetic node {form}"
  | .unsupportedOperator op => s!"unsupported operator '{op}'"
  | .cannotInitialize x declared actual =>
    s!"cannot initialize variable '{x}' of type {declared} with a value of type {actual}"
  | .cannotReassign declared actual =>
    s!"cannot reassign a variable of type {declared} with a value of type {actual}"
  | .cannotAdd declared actual =>
    s!"cannot add a value of type {actual} to a variable of type {declared}"
  | .argumentMismatch p f declared actual =>
    s!"argument '{p}' of '{f}' expects type {declared}, got {actual}"
  | .wrongArity f expected given => s!"function '{f}' expects {expected} argument(s), got {given}"
  | .voidResult f => s!"cannot use the result of function '{f}' because it returns void"
  | .variableNotInt x t => s!"cannot use variable '{x}' of type {t} in arithmetic"
  | .exponentNotLiteral => "exponent of '**' must be a non-negative integer literal"
  | .callInBase => "base of '**' cannot contain a function call"
  | .exponentTooLarge n => s!"exponent {n} is too large to unroll"
  | .numberTooLarge n => s!"number {n} is too large: only -1 through 5 can be pushed"
  | .slotOutOfReach slot => s!"local slot {slot} cannot be addressed"
  | .nestedTooDeeply => "expression is nested too deeply to generate"

end StackLang
