/-
The compiler as a command: compile a source file into a module file.

The names recorded in the module come from the command line, else from the environment, else from the source file's name
and the defaults; an empty name on the command line counts as none. The module goes to the path given, else next to the
source. Status 0 is success, 1 a source or file that does not work, 2 a command line that does not.
-/
import StackLang.Command.Arguments
import StackLang.Command.Dialogue
import StackLang.Command.Path
import StackLang.Command.Trace
import StackLang.Target.Listing
import StackLang.Text.Newline

namespace StackLang.Command

/-- the names that the environment sets -/
structure Environment where
  className : Option String
  superName : Option String
deriving DecidableEq, Repr

/-- an option value, unless it is empty -/
def given : Option String → Option String
  | some "" => none
  | value => value

namespace Request

def options (r : Request) (environment : Environment) : Options where
  className :=
    ((given r.settings.className).or environment.className).getD
      (String.ofList (Path.stem (Path.fileName r.source).toList))
  superName := ((given r.settings.superName).or environment.superName).getD Options.default.superName

def outPath (r : Request) : String :=
  (given r.settings.out).getD (Path.withoutExtension r.source ++ ".class")

end Request

/-- end with status 1 and an error line after the trace -/
def failed (trace : List String) (message : String) : Dialogue :=
  .finish ⟨.ok 1, "", printed (trace ++ ["error: " ++ message])⟩

/-- what is printed about a module that has been written -/
def written (r : Request) (bytes : Bytes) : Except ImageFault (List String) := do
  let lines ← if r.settings.disassemble then listing bytes else pure []
  return lines ++ [s!"wrote {bytes.length} bytes to {r.outPath}"]

/-- write the module and report it -/
def deliver (r : Request) (trace : List String) (bytes : Bytes) : Dialogue :=
  withPath r.outPath (printed trace) <| .writeFile r.outPath bytes fun
    | .error fault => failed trace ("could not write " ++ r.outPath ++ " (" ++ fault.message r.outPath ++ ")")
    | .ok _ =>
      match written r bytes with
      | .ok lines => .finish ⟨.ok 0, printed lines, printed trace⟩
      | .error fault => .finish ⟨.error (.image fault), "", printed trace⟩

def compileText (r : Request) (environment : Environment) (source : String) : Dialogue :=
  let options := r.options environment
  let trace := if r.settings.verbose then trace options source else []
  match compile options source with
  | .ok bytes => deliver r trace bytes
  | .error fault =>
    match fault.diagnostic? with
    | some d => failed trace d.report
    | none => .finish ⟨.error (.compile fault), "", printed trace⟩

def compiler (environment : Environment) (arguments : List String) : Dialogue :=
  match Request.ofArguments arguments with
  | .error .usage => .finish ⟨.ok 2, "", ""⟩
  | .error .help => .finish ⟨.ok 0, "", ""⟩
  | .ok r =>
    withPath r.source "" <| .readFile r.source fun
      | .error fault => failed [] ("could not open file (" ++ fault.message r.source ++ ")")
      | .ok bytes =>
        match Bytes.toText? bytes with
        | none => .finish ⟨.error .notUtf8, "", ""⟩
        | some text => compileText r environment (Text.unifyLines text)

end StackLang.Command
