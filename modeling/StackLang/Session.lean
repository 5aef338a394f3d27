/-
Sessions: a function table and a module that several sources may share.

Each source passes through the stages of splitting into tokens, reading, lowering and writing. A stage that fails leaves
the session as far as it got: finished definitions stay in the table, pool entries and methods in the module. `compile`
runs one source in a session of its own. Reading and lowering are given a number of levels of nesting, in a session
`nestingLimit` of them.
-/
import StackLang.Lowering.Function
import StackLang.Source.Lexeme
import StackLang.Source.Statement

namespace StackLang

/-- How deeply phrases and trees may nest. Levels count phrases and not frames on a stack, of which a call among the
arguments of another takes three, so a limit on frames would stop elsewhere. -/
def nestingLimit : Nat := 1000

/-- the names recorded in a module -/
structure Options where
  className : String
  superName : String
deriving DecidableEq, Repr

def Options.default : Options := ⟨"Main", "base/Object"⟩

/-- why a source was refused, by stage -/
inductive Fault where
  | scan (bad : BadCharacter)
  | parse (fault : ParseFault)
  | lower (fault : LowerFault)
  | write (fault : WriteFault)
deriving DecidableEq, Repr

/-- a fault as it is told, if it has a wording -/
def Fault.diagnostic? : Fault → Option Diagnostic
  | .scan bad => some bad.diagnostic
  | .parse fault => fault.diagnostic?
  | .lower fault => fault.diagnostic?
  | .write fault => some (.located .encoding fault.message none)

/-- what sources of one session share -/
structure Session where
  functions : FunctionTable
  target : Module
deriving Repr

abbrev SessionM (α : Type) := Step Fault Session α

namespace Session

/-- a session in which nothing is defined yet -/
def fresh (options : Options) : Session :=
  ⟨.initial, .empty options.className options.superName⟩

/-- nesting beyond the limit, told as a breach of the grammar -/
def toldParseFault : ParseFault → ParseFault
  | .tooDeep => .syntactic .nestedTooDeeply none
  | fault => fault

/-- nesting beyond the limit, told as a violation -/
def toldLowerFault : LowerFault → LowerFault
  | .tooDeep => .semantic .nestedTooDeeply
  | fault => fault

/-- the statements of a program, and what reading leaves behind whether it succeeds or not -/
def parseWith (limit : Nat) (functions : FunctionTable) (tokens : List Token) :
    Except ParseFault (List Tree) × ParseState :=
  match Parse.statements limit [] tokens ⟨.ofTokens tokens, functions, [], none⟩ with
  | .ok trees s => (.ok trees, s)
  | .error fault s => (.error (toldParseFault fault), s)

def tokens (source : String) : SessionM (List Token) := fun s =>
  match tokenize source with
  | .ok ts => .ok ts s
  | .error bad => .error (.scan bad) s

def parseWithin (limit : Nat) (tokens : List Token) : SessionM (List Tree) := fun s =>
  match parseWith limit s.functions tokens with
  | (.ok trees, left) => .ok trees { s with functions := left.functions }
  | (.error fault, left) => .error (.parse fault) { s with functions := left.functions }

def lowerWithin (limit : Nat) (statements : List Tree) : SessionM Unit := fun ⟨functions, target⟩ =>
  match Lower.definitions functions limit statements target with
  | .ok _ target => .ok () ⟨functions, target⟩
  | .error fault target => .error (.lower (toldLowerFault fault)) ⟨functions, target⟩

def write : SessionM Bytes := fun ⟨functions, target⟩ =>
  match Module.toBytes target with
  | .ok bytes target => .ok bytes ⟨functions, target⟩
  | .error fault target => .error (.write fault) ⟨functions, target⟩

/-- a source through all stages, within a limit -/
def runWithin (limit : Nat) (source : String) : SessionM Bytes := do
  let ts ← tokens source
  let statements ← parseWithin limit ts
  lowerWithin limit statements
  write

abbrev parse : List Token → SessionM (List Tree) :=
  parseWithin nestingLimit

abbrev lower : List Tree → SessionM Unit :=
  lowerWithin nestingLimit

abbrev run : String → SessionM Bytes :=
  runWithin nestingLimit

end Session

/-- compile a source by itself -/
def compile (options : Options) (source : String) : Except Fault Bytes :=
  Step.outcome (Session.run source (.fresh options))

end StackLang
