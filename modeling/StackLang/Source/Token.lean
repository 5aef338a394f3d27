/-
Tokens: the words and signs of a source text with their places.

A token keeps its text only when the kind leaves it open (names and numbers). Tokens built by hand may have any kind
and any text.
-/
import StackLang.Diagnostic
import StackLang.Source.Tree
import StackLang.Text.LowerCase
import StackLang.Text.Quoted

namespace StackLang

inductive TokenKind where
  | returnWord
  | letWord
  | funWord
  | name
  | number
  | power
  | star
  | slash
  | plus
  | minus
  | equals
  | semicolon
  | comma
  | openParen
  | closeParen
  | openBrace
  | closeBrace
  /-- a kind that no source text produces -/
  | other (word : String)
deriving DecidableEq, Repr, Inhabited

namespace TokenKind

def word : TokenKind → String
  | .returnWord => "RETURN"
  | .letWord => "LET"
  | .funWord => "FUN"
  | .name => "NAME"
  | .number => "NUMBER"
  | .power => "POW"
  | .star => "STAR"
  | .slash => "SLASH"
  | .plus => "PLUS"
  | .minus => "MINUS"
  | .equals => "ASSIGN"
  | .semicolon => "SEMICOLON"
  | .comma => "COMMA"
  | .openParen => "LPAR"
  | .closeParen => "RPAR"
  | .openBrace => "LBRACE"
  | .closeBrace => "RBRACE"
  | .other w => w

/-- the kinds that source texts produce -/
def known : List TokenKind :=
  [.returnWord, .letWord, .funWord, .name, .number, .power, .star, .slash, .plus, .minus, .equals, .semicolon, .comma,
   .openParen, .closeParen, .openBrace, .closeBrace]

def ofWord (w : String) : TokenKind :=
  (known.find? (·.word == w)).getD (.other w)

/-- how a kind of fixed text is written -/
def spelling? : TokenKind → Option String
  | .returnWord => some "return"
  | .letWord => some "let"
  | .funWord => some "fun"
  | .power => some "**"
  | .star => some "*"
  | .slash => some "/"
  | .plus => some "+"
  | .minus => some "-"
  | .equals => some "="
  | .semicolon => some ";"
  | .comma => some ","
  | .openParen => some "("
  | .closeParen => some ")"
  | .openBrace => some "\x7b"
  | .closeBrace => some "\x7d"
  | .name | .number | .other _ => none

/-- the operator that a sign stands for between two operands -/
def operator? : TokenKind → Option BinaryOp
  | .plus => some .add
  | .minus => some .sub
  | .star => some .mul
  | .slash => some .div
  | .power => some .pow
  | _ => none

/-- how tightly a sign binds its operands; 0 for all that is no operator -/
def precedence : TokenKind → Nat
  | .plus | .minus => 1
  | .star | .slash => 2
  | .power => 3
  | _ => 0

end TokenKind

structure Token where
  kind : TokenKind
  text : Option String
  position : Position
deriving DecidableEq, Repr, Inhabited

namespace Token

/-- a token as syntax messages show it -/
def describe (t : Token) : String :=
  match t.text with
  | some s => Text.lower t.kind.word ++ " '" ++ s ++ "'"
  | none => "'" ++ t.kind.spelling?.getD t.kind.word ++ "'"

/-- a token as a list of tokens shows it -/
def display (t : Token) : String :=
  match t.text with
  | some s => "Token(" ++ t.kind.word ++ ", " ++ Text.quoted s ++ ")"
  | none => "Token(" ++ t.kind.word ++ ")"

def name (t : Token) : Name :=
  ⟨t.text⟩

end Token

end StackLang
