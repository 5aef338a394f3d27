/-
The compiler as a program: holds the compiler's dialogue with the files of the machine.
-/
import StackLang.Command.Compiler

namespace StackLang.Command

/-- the fault that an error of the machine stands for -/
def FileFault.ofMachine : IO.Error → FileFault
  | .inappropriateType _ code _ => if code = 20 ∨ code = 0 - 20 then .notDirectory else .isDirectory
  | .invalidArgument .. => .nameTooLong
  | .permissionDenied .. => .denied
  | _ => .notFound

/-- hold a dialogue with the files of the machine -/
def Dialogue.perform : Dialogue → IO Ending
  | .finish ending => return ending
  | .readFile path next => do
    let content ← (IO.FS.readBinFile path).toBaseIO
    match content with
    | .ok bytes => perform (next (.ok bytes.data.toList))
    | .error fault => perform (next (.error (.ofMachine fault)))
  | .writeFile path bytes next => do
    let done ← (IO.FS.writeBinFile path ⟨bytes.toArray⟩).toBaseIO
    match done with
    | .ok _ => perform (next (.ok ()))
    | .error fault => perform (next (.error (.ofMachine fault)))

def Uncaught.message : Uncaught → String
  | .notUtf8 => "error: the source is not UTF-8"
  | .nullInPath => "error: a path holds a null character"
  | .file _ => "error: the file cannot be read"
  | .image fault => "error: " ++ fault.message?.getD "a text of the module is not UTF-8"
  | .compile fault => "error: " ++ (fault.diagnostic?.map (·.report)).getD "internal fault"

end StackLang.Command

open StackLang.Command

def main (arguments : List String) : IO UInt32 := do
  let environment : Environment := ⟨← IO.getEnv "EMBER_CLASS_NAME", ← IO.getEnv "EMBER_SUPER_CLASS"⟩
  let ending ← (compiler environment arguments).perform
  IO.print ending.stdout
  IO.eprint ending.stderr
  match ending.status with
  | .ok status => return UInt32.ofNat status
  | .error fault =>
    IO.eprintln fault.message
    return 1
