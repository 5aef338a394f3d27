/-
Quoted texts, as messages and listings show them.

A text stands between single quotes, or between double quotes when it holds a single quote and no double quote. The
backslash, the quote in use, line feed, carriage return and tab are written with a backslash; every other character
that is not printable is written by its code in lower-case hexadecimal, with two, four or eight digits.
-/
import StackLang.Text.Printable

namespace StackLang.Text

/-- the lower-case hexadecimal digits of a number, padded with zeros to a least width -/
def hexPadded (width n : Nat) : String :=
  let digits := Nat.toDigits 16 n
  String.ofList (List.replicate (width - digits.length) '0' ++ digits)

/-- the quote that a text is put between -/
def quoteFor (s : String) : Char :=
  if s.toList.contains '\'' && !s.toList.contains '"' then '"' else '\''

def quotedChar (quote c : Char) : String :=
  if c = quote || c = '\\' then String.ofList ['\\', c]
  else if c = '\n' then "\\n"
  else if c = '\r' then "\\r"
  else if c = '\t' then "\\t"
  else if isPrintable c then c.toString
  else if c.toNat < 0x100 then "\\x" ++ hexPadded 2 c.toNat
  else if c.toNat < 0x10000 then "\\u" ++ hexPadded 4 c.toNat
  else "\\U" ++ hexPadded 8 c.toNat

/-- a text between quotes, with all that cannot be shown escaped -/
def quoted (s : String) : String :=
  let quote := quoteFor s
  quote.toString ++ String.join (s.toList.map (quotedChar quote)) ++ quote.toString

end StackLang.Text
