/-
Dialogues: commands as exchanges with a file system.

A command asks for files, offers files, and in the end says what it prints and how it ends. The exchange is a value, so
it can be held with a disk in memory or with the files of a machine.
-/
import StackLang.Session
import StackLang.Target.Image
import StackLang.Text.Quoted

namespace StackLang.Command

/-- why a file was not opened -/
inductive FileFault where
  | notFound
  | denied
  | notDirectory
  | isDirectory
  | nameTooLong
deriving DecidableEq, Repr

def FileFault.message (fault : FileFault) (path : String) : String :=
  let reason :=
    match fault with
    | .notFound => "[Errno 2] No such file or directory"
    | .denied => "[Errno 13] Permission denied"
    | .notDirectory => "[Errno 20] Not a directory"
    | .isDirectory => "[Errno 21] Is a directory"
    | .nameTooLong => "[Errno 36] File name too long"
  reason ++ ": " ++ Text.quoted path

/-- faults that a command does not handle -/
inductive Uncaught where
  | notUtf8
  /-- a path with a null character, which no file system is asked for -/
  | nullInPath
  | file (fault : FileFault)
  | image (fault : ImageFault)
  | compile (fault : Fault)
deriving DecidableEq, Repr

/-- how a command ends: with a status, or with a fault it does not handle -/
structure Ending where
  status : Except Uncaught Nat
  stdout : String
  stderr : String

/-- a command as an exchange with a file system -/
inductive Dialogue where
  | finish (ending : Ending)
  | readFile (path : String) (next : Except FileFault Bytes → Dialogue)
  | writeFile (path : String) (bytes : Bytes) (next : Except FileFault Unit → Dialogue)

/-- go on with a path, unless it holds a null character -/
def withPath (path : String) (trace : String) (next : Dialogue) : Dialogue :=
  if path.toList.contains (Char.ofNat 0) then .finish ⟨.error .nullInPath, "", trace⟩ else next

def printed (lines : List String) : String :=
  String.join (lines.map (· ++ "\n"))

end StackLang.Command
