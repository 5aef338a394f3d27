/-
The lister as a command: print the listing of a module file. It takes one path; faults of the file are not handled.
-/
import StackLang.Command.Dialogue
import StackLang.Target.Listing

namespace StackLang.Command

def lister : List String → Dialogue
  | [path] =>
    withPath path "" <| .readFile path fun
      | .error fault => .finish ⟨.error (.file fault), "", ""⟩
      | .ok bytes =>
        match listing bytes with
        | .ok lines => .finish ⟨.ok 0, printed lines, ""⟩
        | .error fault => .finish ⟨.error (.image fault), "", ""⟩
  | _ => .finish ⟨.ok 2, printed ["usage: python -m ember_lang.disassembler MODULE"], ""⟩

end StackLang.Command
