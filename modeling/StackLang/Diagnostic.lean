/-
Diagnostics: which stage refused an input, why, and where.

`Diagnostic.text` shows place and message, `Diagnostic.report` also names the stage. A column is shown only together
with a line.
-/
namespace StackLang

/-- a place: line and column, in a source text counted from 1; what is built by hand may stand at any numbers -/
structure Position where
  line : Int
  column : Int
deriving DecidableEq, Repr, Inhabited

/-- the stage that refuses an input -/
inductive Stage where
  | lexical
  | syntactic
  | semantic
  | encoding
  | internal
deriving DecidableEq, Repr

def Stage.word : Stage → String
  | .lexical => "lexical"
  | .syntactic => "syntactic"
  | .semantic => "semantic"
  | .encoding => "encoding"
  | .internal => "internal"

/-- a refusal as it is told to the user -/
structure Diagnostic where
  stage : Stage
  message : String
  line : Option Int
  column : Option Int
deriving DecidableEq, Repr

namespace Diagnostic

def located (stage : Stage) (message : String) (place : Option Position) : Diagnostic :=
  ⟨stage, message, place.map (·.line), place.map (·.column)⟩

/-- the place in front of a message: `3:4: `, `3: ` or nothing -/
def place (d : Diagnostic) : String :=
  match d.line, d.column with
  | some line, some column => s!"{line}:{column}: "
  | some line, none => s!"{line}: "
  | none, _ => ""

/-- place and message -/
def text (d : Diagnostic) : String :=
  d.place ++ d.message

/-- place, stage and message -/
def report (d : Diagnostic) : String :=
  d.place ++ d.stage.word ++ " error: " ++ d.message

end Diagnostic

end StackLang
