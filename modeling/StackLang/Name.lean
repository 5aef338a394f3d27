/-
Names of variables, functions and types.

A name is what a name token carries. Every name of a source text has text; a token built by hand may carry none, and the
name without text differs from all others. In running text it is shown as the word `None`.
-/
namespace StackLang

/-- the name of a variable, a function or a type -/
structure Name where
  text : Option String
deriving DecidableEq, Repr, Inhabited

namespace Name

instance : Coe String Name := ⟨fun s => ⟨some s⟩⟩

def display (n : Name) : String :=
  n.text.getD "None"

instance : ToString Name := ⟨display⟩

@[simp] theorem display_some (s : String) : display ⟨some s⟩ = s := rfl

end Name

end StackLang
