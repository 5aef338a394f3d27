/-
The words of a command line.

A word is an option when it starts with a dash and names one: in full, by the start of exactly one long name, with its
value after an equals sign, or, for options of one letter, with other letters or its value right behind it. Letters are
read one by one, and all that stands behind a letter that needs a value is that value. A dash alone, a negative number,
and a word with a space that names no option are values. The first `--` ends the options. A command has one operand, the
source; of repeated options the last one counts.
-/
import StackLang.Text.Digit

namespace StackLang.Command

inductive Flag where
  | help
  | out
  | className
  | superName
  | disassemble
  | verbose
deriving DecidableEq, Repr

def Flag.takesValue : Flag → Bool
  | .out | .className | .superName => true
  | .help | .disassemble | .verbose => false

def Flag.ofLetter? : Char → Option Flag
  | 'h' => some .help
  | 'o' => some .out
  | 'v' => some .verbose
  | _ => none

def longNames : List (String × Flag) :=
  [("--help", .help), ("--out", .out), ("--class-name", .className), ("--super-class", .superName),
   ("--disassemble", .disassemble), ("--verbose", .verbose)]

/-- an option with the text that its word attaches to it -/
inductive Attached where
  | nothing
  /-- text after the equals sign behind a long name -/
  | assigned (text : List Char)
  /-- text behind the letter of an option, less an equals sign in front -/
  | joined (text : List Char)
deriving DecidableEq, Repr

/-- what a word of a command line is -/
inductive Word where
  | value (text : String)
  | divider
  /-- an option, named by its letter or by a long name -/
  | option (flag : Flag) (attached : Attached)
  | unknown
  | ambiguous
deriving DecidableEq, Repr

/-- a word without a line end behind it -/
def withoutLineEnd (cs : List Char) : List Char :=
  if cs.getLast? = some '\n' then cs.dropLast else cs

/-- whether a word without its dash is a decimal number, perhaps with a fraction -/
def isNumber (cs : List Char) : Bool :=
  let whole := cs.takeWhile Text.isDecimalDigit
  match cs.dropWhile Text.isDecimalDigit with
  | [] => !whole.isEmpty
  | '.' :: fraction => !fraction.isEmpty && fraction.all Text.isDecimalDigit
  | _ => false

/-- a word cut at its first equals sign -/
def cutEquals (cs : List Char) : List Char × Attached :=
  match cs.dropWhile (· ≠ '=') with
  | [] => (cs, .nothing)
  | _ :: text => (cs.takeWhile (· ≠ '='), .assigned text)

/-- a word that names no option -/
def unnamed (word : String) : Word :=
  if isNumber (withoutLineEnd (word.toList.drop 1)) || word.toList.contains ' ' then .value word else .unknown

/-- a word that starts with two dashes: a full name, or else the start of a name -/
def classifyLong (word : String) : Word :=
  match longNames.lookup word with
  | some flag => .option flag .nothing
  | none =>
    let (name, attached) := cutEquals word.toList
    match longNames.lookup (String.ofList name) with
    | some flag => .option flag attached
    | none =>
      match longNames.filter fun (full, _) => name.isPrefixOf full.toList with
      | [] => unnamed word
      | [(_, flag)] => .option flag attached
      | _ => .ambiguous

/-- a word that starts with one dash and a letter -/
def classifyLetter (word : String) (c : Char) (rest : List Char) : Word :=
  match Flag.ofLetter? c with
  | none => unnamed word
  | some flag =>
    match rest with
    | [] => .option flag .nothing
    | '=' :: text => .option flag (.joined text)
    | text => .option flag (.joined text)

/-- a word in front of the divider -/
def classify (word : String) : Word :=
  match word.toList with
  | '-' :: '-' :: _ => classifyLong word
  | '-' :: c :: rest => classifyLetter word c rest
  | _ => .value word

/-- the words of a command line; after the divider all are values -/
def words : List String → List Word
  | [] => []
  | w :: rest => if w = "--" then .divider :: rest.map .value else classify w :: words rest

structure Settings where
  out : Option String
  className : Option String
  superName : Option String
  disassemble : Bool
  verbose : Bool
deriving DecidableEq, Repr

def Settings.none : Settings := ⟨.none, .none, .none, false, false⟩

/-- what a command line asks for -/
structure Request where
  source : String
  settings : Settings
deriving DecidableEq, Repr

/-- why a command line gives no request -/
inductive Refusal where
  | usage
  | help
deriving DecidableEq, Repr

/-- take an option into the settings; the value counts only where the option needs one -/
def Settings.set (s : Settings) : Flag × String → Except Refusal Settings
  | (.help, _) => .error .help
  | (.out, text) => .ok { s with out := some text }
  | (.className, text) => .ok { s with className := some text }
  | (.superName, text) => .ok { s with superName := some text }
  | (.disassemble, _) => .ok { s with disassemble := true }
  | (.verbose, _) => .ok { s with verbose := true }

/-- an option word taken apart -/
structure Taken where
  /-- options that need nothing more -/
  complete : List (Flag × String)
  /-- an option whose value is the next word -/
  awaiting : Option Flag
deriving DecidableEq, Repr

def bare (flag : Flag) : Taken :=
  if flag.takesValue then ⟨[], some flag⟩ else ⟨[(flag, "")], none⟩

/-- an option with its value; the divider is no value, so attached to an option it stands for the empty one -/
def valued (flag : Flag) (text : List Char) : Taken :=
  ⟨[(flag, if text = ['-', '-'] then "" else String.ofList text)], none⟩

/-- an option with text after the equals sign behind its name -/
def assigned (flag : Flag) (text : List Char) : Except Refusal Taken :=
  if flag.takesValue then .ok (valued flag text) else .error .usage

/-- an option of one letter with text behind it: its value, or more letters, which all have to name options -/
def joined (flag : Flag) : List Char → Except Refusal Taken
  | [] => assigned flag []
  | c :: rest =>
    if flag.takesValue then .ok (valued flag (c :: rest))
    else
      match Flag.ofLetter? c with
      | none => .error .usage
      | some next => do
        let taken ← if rest.isEmpty then pure (bare next) else joined next rest
        return { taken with complete := (flag, "") :: taken.complete }

/-- the options of a word -/
def takenFrom (flag : Flag) : Attached → Except Refusal Taken
  | .nothing => .ok (bare flag)
  | .assigned text => assigned flag text
  | .joined text => joined flag text

/-- go through the words; `extra` tells whether some word had no place -/
def collect (source : Option String) (settings : Settings) (extra : Bool) :
    List Word → Except Refusal (Option String × Settings × Bool)
  | [] => .ok (source, settings, extra)
  | .value text :: .divider :: rest =>
    match source with
    | none => collect (some text) settings extra rest
    | some _ => collect source settings true rest
  | .value text :: rest =>
    match source with
    | none => collect (some text) settings extra rest
    | some _ => collect source settings true rest
  | .divider :: .value text :: rest =>
    match source with
    | none => collect (some text) settings extra rest
    | some _ => collect source settings true rest
  | .option flag attached :: .value text :: rest => do
    let taken ← takenFrom flag attached
    match taken.awaiting with
    | some awaiting =>
      let settings ← (taken.complete ++ [(awaiting, text)]).foldlM Settings.set settings
      collect source settings extra rest
    | none =>
      let settings ← taken.complete.foldlM Settings.set settings
      collect source settings extra (.value text :: rest)
  | .option flag attached :: rest => do
    let taken ← takenFrom flag attached
    if taken.awaiting.isSome then .error .usage
    let settings ← taken.complete.foldlM Settings.set settings
    collect source settings extra rest
  | .divider :: rest => collect source settings true rest
  | .unknown :: rest => collect source settings true rest
  | .ambiguous :: rest => collect source settings true rest

/-- the request of a command line: one source, no word without a place, no doubtful option -/
def Request.ofArguments (arguments : List String) : Except Refusal Request := do
  let ws := words arguments
  if ws.contains .ambiguous then .error .usage
  match ← collect none .none false ws with
  | (some source, settings, false) => return ⟨source, settings⟩
  | _ => .error .usage

end StackLang.Command
