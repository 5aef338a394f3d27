/-
File names in paths.

A path ends with the name of a file after its last slash. The extension of a name starts at its last dot, unless only
dots stand before it.
-/
namespace StackLang.Path

/-- a path cut after its last slash -/
def split (path : String) : List Char × List Char :=
  let name := (path.toList.reverse.takeWhile (· ≠ '/')).reverse
  (path.toList.take (path.toList.length - name.length), name)

def fileName (path : String) : String :=
  String.ofList (split path).2

/-- a file name up to its extension -/
def stem (name : List Char) : List Char :=
  let tail := name.reverse.takeWhile (· ≠ '.')
  if tail.length = name.length then name
  else
    let head := name.take (name.length - tail.length - 1)
    if head.all (· = '.') then name else head

/-- a path up to the extension of its file name -/
def withoutExtension (path : String) : String :=
  let (folder, name) := split path
  String.ofList (folder ++ stem name)

end StackLang.Path
