set_option autoImplicit false

/-!
# Spelling in C

How names, numbers and strings of a program are written in the C text. A program's names
have no underscore, so names that begin with `t_` clash neither with one another nor with a
name of C. A number loses its leading zeros, since C reads `010` as octal. In a string no
two question marks stand side by side, so no trigraph can form.
-/
namespace TeenyLang.Target

def name (source : String) : String :=
  "t_" ++ source

/-- The characters of a number in C: no zero leads the integer part unless it is all of it. -/
def numberChars (text : List Char) : List Char :=
  let whole := (text.takeWhile (· ≠ '.')).dropWhile (· = '0')
  (if whole.isEmpty then ['0'] else whole) ++ text.dropWhile (· ≠ '.')

def number (text : String) : String :=
  String.ofList (numberChars text.toList)

/-- The characters of a string in C, of which the one before was a question mark or not. -/
def stringCharsAfter (afterMark : Bool) : List Char → List Char
  | [] => []
  | c :: rest =>
    if afterMark && c = '?' then '\\' :: '?' :: stringCharsAfter true rest
    else c :: stringCharsAfter (c = '?') rest

def stringChars (text : List Char) : List Char :=
  stringCharsAfter false text

def string (text : String) : String :=
  String.ofList (stringChars text.toList)

end TeenyLang.Target
