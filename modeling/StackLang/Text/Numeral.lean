/-
Decimal numerals.

A numeral is an optional sign and a row of decimal digits of any script, where single underscores may stand between two
digits; blanks around it are ignored (the four separators U+001C to U+001F are no blanks here). A row of more than
4300 digits is refused, leading zeros counted.
-/
import StackLang.Text.Blank
import StackLang.Text.Digit

namespace StackLang.Text

/-- the largest number of digits in a numeral -/
def maxDigits : Nat := 4300

/-- blanks that may stand around a numeral -/
def isNumeralBlank (c : Char) : Bool :=
  isBlank c && !(decide (0x1C ≤ c.toNat) && decide (c.toNat ≤ 0x1F))

/-- the values of a row of digits, single underscores between them dropped; `none` when the row is not well formed -/
def digitRow? : List Char → Option (List Nat)
  | [] => none
  | [c] => (digitValue? c).map ([·])
  | c :: '_' :: rest => do
    let d ← digitValue? c
    let ds ← digitRow? rest
    some (d :: ds)
  | c :: rest => do
    let d ← digitValue? c
    let ds ← digitRow? rest
    some (d :: ds)

/-- the number that a row of digit values stands for -/
def valueOfDigits (ds : List Nat) : Nat :=
  ds.foldl (fun n d => 10 * n + d) 0

def natural? (cs : List Char) : Option Nat := do
  let ds ← digitRow? cs
  if ds.length ≤ maxDigits then some (valueOfDigits ds) else none

def integer? (s : String) : Option Int :=
  let trimmed := ((s.toList.dropWhile isNumeralBlank).reverse.dropWhile isNumeralBlank).reverse
  match trimmed with
  | '-' :: rest => (natural? rest).map fun n => -(n : Int)
  | '+' :: rest => (natural? rest).map fun n => (n : Int)
  | cs => (natural? cs).map fun n => (n : Int)

end StackLang.Text
