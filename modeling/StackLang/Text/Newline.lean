/-
Line ends: carriage return and line feed together, and a carriage return alone, are read as one line feed.
-/
namespace StackLang.Text

/-- a text with all its line ends made line feeds; the characters found before are given latest first -/
def unifyFrom (found : List Char) : List Char → List Char
  | [] => found.reverse
  | '\r' :: '\n' :: rest => unifyFrom ('\n' :: found) rest
  | '\r' :: rest => unifyFrom ('\n' :: found) rest
  | c :: rest => unifyFrom (c :: found) rest

/-- a text with all its line ends made line feeds -/
def unifyLines (s : String) : String :=
  String.ofList (unifyFrom [] s.toList)

end StackLang.Text
