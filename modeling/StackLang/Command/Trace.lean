/-
Traces: what the stages of a compilation did, line by line.

The lines are read off what each stage leaves behind, also when a stage fails: the number of tokens, the definitions
read to the end, the methods in the module, and the bytes.
-/
import StackLang.Session
import StackLang.Target.Image

namespace StackLang.Command

/-- a line of a trace, under the name of the stage that it is about -/
def traceLine (stage text : String) : String :=
  "DEBUG ember_lang." ++ stage ++ ": " ++ text

def definitionLines : Tree → List String
  | .define name parameters returns body =>
    [traceLine "symbols" ("registered function " ++ name.display ++ Signature.display ⟨returns, parameters⟩),
     traceLine "parser" s!"parsed function {name} ({body.length} statements)"]
  | _ => []

def methodLines (m : Method) : List String :=
  m.attributes.filterMap fun a =>
    (Image.codeOf? a.data).map fun (maxLocals, code) =>
      traceLine "generator" s!"emitted method {m.name}: {code.length} bytes, max_locals={maxLocals}"

def writtenLine (m : Module) (bytes : Bytes) : String :=
  traceLine "classfile"
    s!"encoded module {m.name}: {bytes.length} bytes, {m.pool.size} constants, {m.methods.length} methods"

def faultLines (fault : Fault) : List String :=
  fault.diagnostic?.toList.map fun d => traceLine "compiler" ("compilation failed: " ++ d.text)

def traceTarget (s : Session) (statements : List Tree) : List String :=
  match Session.lower statements s with
  | .error fault s => s.target.methods.flatMap methodLines ++ faultLines fault
  | .ok _ s =>
    s.target.methods.flatMap methodLines ++
      match Session.write s with
      | .ok bytes s => [writtenLine s.target bytes]
      | .error fault _ => faultLines fault

def trace (options : Options) (source : String) : List String :=
  match tokenize source with
  | .error bad => faultLines (.scan bad)
  | .ok tokens =>
    let s := Session.fresh options
    let (result, left) := Session.parseWith nestingLimit s.functions tokens
    traceLine "lexer" s!"lexed {tokens.length} tokens" :: left.finished.flatMap definitionLines ++
      match result with
      | .error fault => faultLines (.parse fault)
      | .ok statements => traceTarget { s with functions := left.functions } statements

end StackLang.Command
