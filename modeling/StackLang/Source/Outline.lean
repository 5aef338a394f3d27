/-
Outlines: an expression as nested applications, `add(1, mul(2, 3))`.

An outline is refused for a form that is no expression, and for a tree nested deeper than the given limit. Parts are
visited from the left, so the first fault on that way is the one reported. The outline of a variable is its name; one
without text is shown as any name is, but is no argument of a call.
-/
import StackLang.Source.Tree

namespace StackLang

/-- why a tree has no outline -/
inductive OutlineFault where
  | notExpression
  | tooDeep
  /-- an argument of a call whose outline has no text -/
  | namelessArgument
deriving DecidableEq, Repr

namespace Tree

/-- the outline of an expression with at most `depth` levels below its root -/
def outline : Nat → Tree → Except OutlineFault Name
  | 0, _ => .error .tooDeep
  | depth + 1, t =>
    match t with
    | .number n => .ok (toString n : String)
    | .name x => .ok x
    | .ident x => .ok x
    | .callOperand c => outline depth c
    | .call f arguments => do
      let parts ← arguments.mapM fun a => outline depth a
      let texts ← parts.mapM fun part => part.text.elim (.error .namelessArgument) .ok
      return (f.display ++ "(" ++ ", ".intercalate texts ++ ")" : String)
    | .positive t => do
      let inner ← outline depth t
      return ("positive(" ++ inner.display ++ ")" : String)
    | .negative t => do
      let inner ← outline depth t
      return ("negative(" ++ inner.display ++ ")" : String)
    | .binary op l r => do
      let left ← outline depth l
      let right ← outline depth r
      return (op.word ++ "(" ++ left.display ++ ", " ++ right.display ++ ")" : String)
    | _ => .error .notExpression

end Tree

end StackLang
