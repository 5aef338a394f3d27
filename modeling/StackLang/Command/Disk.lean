/-
Disks in memory: folders and files around a working directory.

Paths are walked from the working directory, or from the root when they start with a slash; every part but the last has
to name a folder. The folders above the working directory and the root are there, and hold no file before one is
written. Opening for reading asks for a file that is there; opening for writing makes a file in a folder that is there.
A path that ends with a slash is never written. Names of more than 255 bytes, and paths of 4096 bytes or more, are
refused.
-/
import StackLang.Command.Dialogue

namespace StackLang.Command

/-- a folder that is there whatever a disk holds -/
inductive Base where
  | working
  /-- a folder above the working directory, this many levels above the one right around it -/
  | above (levels : Nat)
  | root
deriving DecidableEq, Repr

/-- the folder around one that is always there; nothing is around the root -/
def Base.outer : Base → Base
  | .working => .above 0
  | .above levels => .above (levels + 1)
  | .root => .root

/-- where a file or folder is: the names on the way to it -/
structure Location where
  base : Base
  names : List String
deriving DecidableEq, Repr

namespace Location

/-- the place in the working directory that a plain path names -/
def ofPath (path : String) : Location :=
  ⟨.working, (path.splitOn "/").filter fun name => name ≠ "" && name ≠ "."⟩

def child (l : Location) (name : String) : Location :=
  { l with names := l.names ++ [name] }

def parent (l : Location) : Location :=
  if l.names.isEmpty then ⟨l.base.outer, []⟩ else { l with names := l.names.dropLast }

end Location

/-- folders of the working directory, and files -/
structure Disk where
  folders : List (List String)
  files : List (Location × Bytes)
deriving DecidableEq, Repr

namespace Disk

/-- whether a folder is there: one that always is, or one on the way to a folder or a file of the disk -/
def isFolder (d : Disk) (l : Location) : Bool :=
  l.names.isEmpty || (l.base = .working && d.folders.any (l.names.isPrefixOf ·)) ||
    d.files.any fun (f, _) => f.base = l.base && l.names.isPrefixOf f.names.dropLast

def file? (d : Disk) (l : Location) : Option Bytes :=
  d.files.lookup l

/-- write a file in place of what it held -/
def put (d : Disk) (l : Location) (bytes : Bytes) : Disk :=
  { d with files := d.files.filter (·.1 ≠ l) ++ [(l, bytes)] }

/-- step from a folder along names of folders -/
def walk (d : Disk) (l : Location) : List String → Except FileFault Location
  | [] => .ok l
  | name :: rest =>
    if name.utf8ByteSize > 255 then .error .nameTooLong
    else if name = "" ∨ name = "." then d.walk l rest
    else if name = ".." then d.walk l.parent rest
    else
      let next := l.child name
      if d.isFolder next then d.walk next rest
      else if (d.file? next).isSome then .error .notDirectory
      else .error .notFound

/-- where the walk along a path starts, and the names it goes through -/
def parts (path : String) : Except FileFault (Location × List String) :=
  if path = "" then .error .notFound
  else if path.utf8ByteSize ≥ 4096 then .error .nameTooLong
  else .ok (⟨if path.startsWith "/" then .root else .working, []⟩, path.splitOn "/")

/-- where the file at the end of a path is, in a folder that is there -/
def resolve (d : Disk) (path : String) : Except FileFault Location := do
  let (start, names) ← parts path
  let folder ← d.walk start names.dropLast
  let name := names.getLastD ""
  if name.utf8ByteSize > 255 then .error .nameTooLong
  if name = "" ∨ name = "." ∨ name = ".." then .error .isDirectory
  let l := folder.child name
  if d.isFolder l then .error .isDirectory
  return l

def read (d : Disk) (path : String) : Except FileFault Bytes := do
  let l ← d.resolve path
  match d.file? l with
  | some bytes => return bytes
  | none => .error .notFound

/-- why a path that ends with a slash is not written: its folder is not there, or else it stands for a folder -/
def refuseFolder (d : Disk) (path : String) : Except FileFault Disk := do
  let (start, names) ← parts path
  let named := (names.reverse.dropWhile (· = "")).reverse
  let _ ← d.walk start named.dropLast
  .error .isDirectory

def write (d : Disk) (path : String) (bytes : Bytes) : Except FileFault Disk := do
  if path.endsWith "/" then d.refuseFolder path
  else
    let l ← d.resolve path
    return d.put l bytes

/-- the files of the working directory that are new or changed since an earlier state, by path -/
def changedSince (d earlier : Disk) : List (String × Bytes) :=
  let changed := d.files.filter fun (l, bytes) => l.base = .working && earlier.file? l ≠ some bytes
  (changed.map fun (l, bytes) => ("/".intercalate l.names, bytes)).mergeSort fun a b => decide (a.1 ≤ b.1)

end Disk

/-- hold a dialogue with a disk -/
def Dialogue.onDisk : Dialogue → Disk → Ending × Disk
  | .finish ending, d => (ending, d)
  | .readFile path next, d => onDisk (next (d.read path)) d
  | .writeFile path bytes next, d =>
    match d.write path bytes with
    | .ok d => onDisk (next (.ok ())) d
    | .error fault => onDisk (next (.error fault)) d

end StackLang.Command
