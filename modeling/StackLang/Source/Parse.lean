/-
Reading tokens into trees: the state and its moves.

A step works on a cursor and the function table. A step that fails leaves the cursor where it got to, and in the table
the definitions that were read to the end before the fault; `finished` collects their trees in order. Inside the body of
a function the names declared in it are known, which is also how a step knows that it is inside of one.
-/
import StackLang.FunctionTable
import StackLang.Source.Cursor
import StackLang.Step

namespace StackLang

/-- what reading works on -/
structure ParseState where
  cursor : Cursor
  functions : FunctionTable
  /-- definitions read to the end -/
  finished : List Tree
  /-- names declared in the function body being read; none outside of all bodies -/
  declared : Option (List Name)
deriving DecidableEq, Repr

/-- a reading step: a result or a fault, and in both cases the state it left behind -/
abbrev Parse (α : Type) := Step ParseFault ParseState α

namespace Parse

/-- fail at a token because of the grammar -/
def refuse {α : Type} (fault : GrammarFault) (token : Token) : Parse α :=
  throw (.syntactic fault (some token.position))

/-- fail at a token because of a rule of meaning -/
def violate {α : Type} (violation : Violation) (token : Token) : Parse α :=
  throw (.semantic violation (some token.position))

/-- fail because something else was wanted than the token found -/
def expected {α : Type} (wanted : Wanted) (found : Token) : Parse α :=
  refuse (.expected wanted found) found

def endOfInput {α : Type} : Parse α := do
  throw ((← get).cursor.missing 0)

/-- check a rule of meaning; a violation is told at a token -/
def checkAt {α : Type} (token : Token) : Except Violation α → Parse α
  | .ok a => pure a
  | .error violation => violate violation token

def current : Parse Token := do
  (← get).cursor.peek 0

/-- the kind of the token at a distance, if there is one -/
def kindAt (distance : Int) : Parse (Option TokenKind) := do
  return (← get).cursor.kind? distance

def ahead : Parse (List Token) := do
  return (← get).cursor.ahead

def exhausted : Parse Bool := do
  return (← get).cursor.exhausted

def advance : Parse Token := do
  let s ← get
  let (token, cursor) ← s.cursor.advance
  set { s with cursor := cursor }
  return token

def unread (count : Int) : Parse Unit := do
  let s ← get
  let cursor ← s.cursor.unread count
  set { s with cursor := cursor }

def restore (checkpoint : Nat) : Parse Unit := do
  let s ← get
  let (_, cursor) ← s.cursor.restore checkpoint
  set { s with cursor := cursor }

/-- step over a token of the given kind -/
def expect (kind : TokenKind) (wanted : Wanted) : Parse Token := do
  let token ← current
  if token.kind = kind then advance else expected wanted token

end Parse

end StackLang
