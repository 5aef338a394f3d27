/-
Faults of reading tokens into trees.

A fault is a breach of the grammar or of a rule of meaning, told at a token where there is one. Two faults have no
place and no wording: phrases nested beyond the limit, and a number token that carries no text.
-/
import StackLang.Source.Token
import StackLang.Violation

namespace StackLang

/-- what the grammar asks for at a place -/
inductive Wanted where
  | identifier
  | type
  | equals
  | equalsAfterPlus
  | semicolon
  | functionName
  | openParen
  | closeParen
  | argumentName
  | argumentType
  | commaOrClose
  | returnType
  | openBrace
  | expression
  | operand
deriving DecidableEq, Repr

def Wanted.words : Wanted → String
  | .identifier => "identifier"
  | .type => "type"
  | .equals => "'='"
  | .equalsAfterPlus => "'=' after '+'"
  | .semicolon => "';'"
  | .functionName => "function name"
  | .openParen => "'('"
  | .closeParen => "')'"
  | .argumentName => "argument name"
  | .argumentType => "argument type"
  | .commaOrClose => "',' or ')'"
  | .returnType => "return type"
  | .openBrace => "'\x7b'"
  | .expression => "an expression"
  | .operand => "an operand"

/-- a breach of the grammar, or a move of the cursor that leads outside its row -/
inductive GrammarFault where
  | endOfInput
  | expected (wanted : Wanted) (found : Token)
  | unknownStatement (found : Token)
  | noTokenBefore (position : Nat)
  | badUnread (count : Int)
  | unreadTooFar (count : Int) (position : Nat)
  | checkpointAhead (checkpoint position : Nat)
  | nestedTooDeeply
deriving DecidableEq, Repr

def GrammarFault.message : GrammarFault → String
  | .endOfInput => "unexpected end of input"
  | .expected wanted found => "expected " ++ wanted.words ++ ", found " ++ found.describe
  | .unknownStatement found => "could not identify statement starting with " ++ found.describe
  | .noTokenBefore position => s!"no token before position {position}"
  | .badUnread count => s!"cannot unread {count} tokens"
  | .unreadTooFar count position => s!"cannot unread {count} tokens from position {position}"
  | .checkpointAhead checkpoint position => s!"checkpoint {checkpoint} is ahead of position {position}"
  | .nestedTooDeeply => "program is nested too deeply to parse"

/-- why a row of tokens was not read -/
inductive ParseFault where
  | syntactic (fault : GrammarFault) (place : Option Position)
  | semantic (violation : Violation) (place : Option Position)
  /-- a number token without text -/
  | numberWithoutText
  /-- phrases nested beyond the limit -/
  | tooDeep
deriving DecidableEq, Repr

def ParseFault.diagnostic? : ParseFault → Option Diagnostic
  | .syntactic fault place => some (.located .syntactic fault.message place)
  | .semantic violation place => some (.located .semantic violation.message place)
  | .numberWithoutText | .tooDeep => none

end StackLang
