import TeenyLang.Text.Digit

set_option autoImplicit false

/-!
# Reading an integer

A whole number is a sign or none, then decimal digits of any script, with single
underscores allowed between digits and blanks allowed around the whole. A text of more
than 4300 digits is refused, whatever its value.
-/
namespace TeenyLang.Text

/-- Whether `c` may stand around a number: the white space of ASCII and of Unicode. The
four separators U+001C to U+001F do not count. -/
def isBlank (c : Char) : Bool :=
  ['\t', '\n', '\x0b', '\x0c', '\r', ' ', '\x85', '\xa0', '\u1680', '\u2028', '\u2029',
    '\u202f', '\u205f', '\u3000'].contains c || ('\u2000' ≤ c && c ≤ '\u200a')

def trimBlanks (text : List Char) : List Char :=
  ((text.dropWhile isBlank).reverse.dropWhile isBlank).reverse

/-- The digits of a numeral, of which the last character read was a digit or not. -/
def numeralDigits? (afterDigit : Bool) : List Char → Option (List Nat)
  | [] => if afterDigit then some [] else none
  | '_' :: rest => if afterDigit then numeralDigits? false rest else none
  | c :: rest => do
    let digit ← digitValue? c
    let digits ← numeralDigits? true rest
    return digit :: digits

def maxNumeralDigits : Nat := 4300

def natural? (numeral : List Char) : Option Nat := do
  let digits ← numeralDigits? false numeral
  if digits.length ≤ maxNumeralDigits then
    return digits.foldl (fun value digit => value * 10 + digit) 0
  else
    none

def integer? (text : String) : Option Int :=
  match trimBlanks text.toList with
  | '-' :: numeral => (natural? numeral).map fun n => -(n : Int)
  | '+' :: numeral => (natural? numeral).map Int.ofNat
  | numeral => (natural? numeral).map Int.ofNat

end TeenyLang.Text
