/-
Lexemes: a source text cut into blanks, words, numbers and signs.

At each place the longest lexeme is taken. A word starts with an alphanumeric character that is no decimal digit and
goes on with alphanumeric ones; the three reserved words are words of their own kind. A number is a row of ASCII digits.
`**` is one sign. Where no lexeme starts, the text is refused at that character. Lines end with a line feed only, and
columns count characters.
-/
import StackLang.Source.Token
import StackLang.Text.Alphanumeric
import StackLang.Text.Blank
import StackLang.Text.Digit

namespace StackLang

/-- a character at which no lexeme starts -/
structure BadCharacter where
  char : Char
  position : Position
deriving DecidableEq, Repr

def BadCharacter.diagnostic (b : BadCharacter) : Diagnostic :=
  .located .lexical ("unrecognized character " ++ Text.quoted b.char.toString) (some b.position)

def isWordStart (c : Char) : Bool :=
  Text.isAlphanumeric c && !Text.isDecimalDigit c

/-- the kind of a word: reserved or a name -/
def wordKind (w : String) : TokenKind :=
  if w = "return" then .returnWord
  else if w = "let" then .letWord
  else if w = "fun" then .funWord
  else .name

/-- the kind of a sign of one character -/
def signKind? : Char → Option TokenKind
  | '*' => some .star
  | '/' => some .slash
  | '+' => some .plus
  | '-' => some .minus
  | '=' => some .equals
  | ';' => some .semicolon
  | ',' => some .comma
  | '(' => some .openParen
  | ')' => some .closeParen
  | '\x7b' => some .openBrace
  | '\x7d' => some .closeBrace
  | _ => none

/-- a piece of a source text: its characters, and its kind unless it is blank -/
structure Lexeme where
  kind : Option TokenKind
  chars : List Char
deriving DecidableEq, Repr

namespace Lexeme

/-- the longest lexeme at the front of `c :: rest` -/
def first? (c : Char) (rest : List Char) : Option Lexeme :=
  if Text.isBlank c then
    some ⟨none, c :: rest.takeWhile Text.isBlank⟩
  else if isWordStart c then
    let chars := c :: rest.takeWhile Text.isAlphanumeric
    some ⟨some (wordKind (String.ofList chars)), chars⟩
  else if Char.isDigit c then
    some ⟨some .number, c :: rest.takeWhile Char.isDigit⟩
  else if c = '*' ∧ rest.head? = some '*' then
    some ⟨some .power, ['*', '*']⟩
  else
    (signKind? c).map fun kind => ⟨some kind, [c]⟩

/-- the token of a lexeme that is not blank -/
def token? (l : Lexeme) (position : Position) : Option Token :=
  l.kind.map fun kind =>
    ⟨kind, if kind = .name ∨ kind = .number then some (String.ofList l.chars) else none, position⟩

theorem first?_chars_pos {c : Char} {rest : List Char} {l : Lexeme} (h : first? c rest = some l) :
    0 < l.chars.length := by
  unfold first? at h
  split at h
  · cases h; simp
  · split at h
    · cases h; simp
    · split at h
      · cases h; simp
      · split at h
        · cases h; simp
        · cases hk : signKind? c with
          | none => simp [hk] at h
          | some k => simp [hk] at h; cases h; simp

end Lexeme

namespace Position

def start : Position := ⟨1, 1⟩

def step (p : Position) (c : Char) : Position :=
  if c = '\n' then ⟨p.line + 1, 1⟩ else ⟨p.line, p.column + 1⟩

def after (p : Position) (cs : List Char) : Position :=
  cs.foldl step p

end Position

/-- the tokens of a text that starts at a given place, in front of them those already found, latest first -/
def tokensFrom (found : List Token) (position : Position) (cs : List Char) : Except BadCharacter (List Token) :=
  match cs with
  | [] => .ok found.reverse
  | c :: rest =>
    match _h : Lexeme.first? c rest with
    | none => .error ⟨c, position⟩
    | some l =>
      tokensFrom ((l.token? position).toList ++ found) (position.after l.chars) ((c :: rest).drop l.chars.length)
termination_by cs.length
decreasing_by
  have := Lexeme.first?_chars_pos _h
  simp only [List.length_drop, List.length_cons]
  omega

def tokenize (source : String) : Except BadCharacter (List Token) :=
  tokensFrom [] .start source.toList

end StackLang
