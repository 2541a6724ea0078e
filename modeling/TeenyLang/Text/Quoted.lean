import TeenyLang.Text.Printable

set_option autoImplicit false

/-!
# Quoted text

A text is quoted so that it fits on one line and can be read back. It stands between
single quotes, or between double quotes when it holds a single quote and no double one.
The quote in use and the backslash are escaped, and so is every character that is not
printable: the three common ones by a letter, the others by their code point.
-/
namespace TeenyLang.Text

def hexDigits (width n : Nat) : List Char :=
  let digits := Nat.toDigits 16 n
  List.replicate (width - digits.length) '0' ++ digits

def quoteOf (text : List Char) : Char :=
  if text.contains '\x27' && !text.contains '"' then '"' else '\x27'

def escape (quote c : Char) : List Char :=
  if c = quote || c = '\\' then ['\\', c]
  else if c = '\n' then ['\\', 'n']
  else if c = '\r' then ['\\', 'r']
  else if c = '\t' then ['\\', 't']
  else if isPrintable c then [c]
  else if c.toNat < 0x100 then '\\' :: 'x' :: hexDigits 2 c.toNat
  else if c.toNat < 0x10000 then '\\' :: 'u' :: hexDigits 4 c.toNat
  else '\\' :: 'U' :: hexDigits 8 c.toNat

def quotedChars (text : List Char) : List Char :=
  let quote := quoteOf text
  quote :: text.flatMap (escape quote) ++ [quote]

def quoted (text : String) : String :=
  String.ofList (quotedChars text.toList)

end TeenyLang.Text
