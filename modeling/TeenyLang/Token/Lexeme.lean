import TeenyLang.Diagnostic
import TeenyLang.Token

set_option autoImplicit false

/-!
# Lexemes

The lexical grammar, on the characters that are still to be read. `gap` is what stands
between two tokens and `readLexeme` reads the longest lexeme at the head of a text, or says
which character does not fit and how many fitting ones stand before it. Positions play no
part here.
-/
namespace TeenyLang

inductive Lexeme where
  /-- A token of `length` characters; its text leaves out the quotes of a string. -/
  | found (kind : Kind) (text : String) (length : Nat)
  /-- A character that fits no token, after `before` characters that do. -/
  | fault (before : Nat) (cause : Cause)
deriving DecidableEq, Repr

namespace Lexeme

/-- The blanks between tokens; a newline is a token of its own. -/
def isBlank (c : Char) : Bool :=
  c = ' ' || c = '\t' || c = '\r'

def comment (text : List Char) : List Char :=
  match text with
  | '#' :: _ => text.takeWhile (· ≠ '\n')
  | _ => []

/-- The blanks at the head of a text and the comment after them. -/
def gap (text : List Char) : List Char :=
  text.takeWhile isBlank ++ comment (text.dropWhile isBlank)

/-- The characters that may not stand in a string literal, its closing quote among them. -/
def stringStops : List Char :=
  ['"', '\r', '\n', '\t', '\\', '%']

def isStringChar (c : Char) : Bool :=
  !stringStops.contains c

/-- The advice on a character that ends a string literal too early; none is the end of the
text. -/
def stringAdvice (c : Option Char) : Option String :=
  if c = none || c = some '\n' then some "string literals must be closed on the same line"
  else if c = some '\\' || c = some '%' then
    some "backslashes and percent signs are not allowed in strings"
  else none

/-- The string literal whose opening quote stands before `text`. -/
def readString (text : List Char) : Lexeme :=
  let inside := text.takeWhile isStringChar
  match text.dropWhile isStringChar with
  | '"' :: _ => found .string (String.ofList inside) (inside.length + 2)
  | [] => fault (inside.length + 1) (.illegalCharacter "\\0" "string literal" (stringAdvice none))
  | c :: _ =>
    fault (inside.length + 1)
      (.illegalCharacter (String.singleton c) "string literal" (stringAdvice (some c)))

def readNumber (text : List Char) : Lexeme :=
  let whole := text.takeWhile Char.isDigit
  match text.dropWhile Char.isDigit with
  | '.' :: rest =>
    let fraction := rest.takeWhile Char.isDigit
    if fraction.isEmpty then
      fault whole.length
        (.illegalCharacter "." "number literal"
          (some "a decimal point must be followed by at least one digit"))
    else
      found .number (String.ofList (whole ++ '.' :: fraction))
        (whole.length + 1 + fraction.length)
  | _ => found .number (String.ofList whole) whole.length

def readWord (text : List Char) : Lexeme :=
  let word := text.takeWhile Char.isAlphanum
  found (.ofWord (String.ofList word)) (String.ofList word) word.length

def ofOperator (op : Operator) : Lexeme :=
  found (.operator op) op.spelling op.spelling.length

/-- The operator that starts with `c`; an equals sign after `=`, `<`, `>` or `!` belongs
to it. -/
def readOperator (c : Char) (rest : List Char) : Lexeme :=
  let extended := rest.head? = some '='
  match c with
  | '+' => ofOperator .plus
  | '-' => ofOperator .minus
  | '*' => ofOperator .asterisk
  | '/' => ofOperator .slash
  | '=' => ofOperator (if extended then .equal else .assign)
  | '<' => ofOperator (if extended then .lessEqual else .less)
  | '>' => ofOperator (if extended then .greaterEqual else .greater)
  | '!' =>
    if extended then ofOperator .notEqual
    else fault 0 (.unexpectedCharacter "!" (some "did you mean '!='?"))
  | c => fault 0 (.unexpectedCharacter (String.singleton c) none)

end Lexeme

def readLexeme (text : List Char) : Lexeme :=
  match text with
  | [] => .found .endOfInput "" 0
  | c :: rest =>
    if c = '\n' then .found .newline "\n" 1
    else if c = '"' then Lexeme.readString rest
    else if c.isDigit then Lexeme.readNumber text
    else if c.isAlpha then Lexeme.readWord text
    else Lexeme.readOperator c rest

namespace Lexeme

theorem ofOperator_length_pos {op : Operator} {kind : Kind} {text : String} {length : Nat}
    (h : ofOperator op = found kind text length) : 0 < length := by
  cases h
  cases op <;> decide

theorem readOperator_length_pos {c : Char} {rest : List Char} {kind : Kind} {text : String}
    {length : Nat} (h : readOperator c rest = found kind text length) : 0 < length := by
  unfold readOperator at h
  simp only at h
  split at h
  case h_8 =>
    split at h
    · exact ofOperator_length_pos h
    · cases h
  case h_9 => cases h
  all_goals exact ofOperator_length_pos h

theorem readString_length_pos {rest : List Char} {kind : Kind} {text : String} {length : Nat}
    (h : readString rest = found kind text length) : 0 < length := by
  unfold readString at h
  simp only at h
  split at h <;> cases h
  omega

theorem readNumber_length_pos {c : Char} {rest : List Char} {kind : Kind} {text : String}
    {length : Nat} (digit : c.isDigit = true)
    (h : readNumber (c :: rest) = found kind text length) : 0 < length := by
  unfold readNumber at h
  simp only [List.takeWhile_cons, digit, if_true] at h
  split at h
  · split at h
    · cases h
    · cases h
      simp only [List.length_cons]
      omega
  · cases h
    simp

theorem readWord_length_pos {c : Char} {rest : List Char} {kind : Kind} {text : String}
    {length : Nat} (letter : c.isAlpha = true)
    (h : readWord (c :: rest) = found kind text length) : 0 < length := by
  unfold readWord at h
  have : c.isAlphanum = true := by simp [Char.isAlphanum, letter]
  simp only [List.takeWhile_cons, this, if_true] at h
  cases h
  simp

end Lexeme

/-- Every lexeme but the end of the input has a character, and there is one to read. -/
theorem readLexeme_length_pos {text : List Char} {kind : Kind} {spelled : String} {length : Nat}
    (h : readLexeme text = .found kind spelled length) (more : kind ≠ .endOfInput) :
    0 < length ∧ text ≠ [] := by
  unfold readLexeme at h
  split at h
  · cases h
    contradiction
  · refine ⟨?_, by simp⟩
    repeat' split at h
    · cases h
      decide
    · exact Lexeme.readString_length_pos h
    · next digit => exact Lexeme.readNumber_length_pos digit h
    · next letter => exact Lexeme.readWord_length_pos letter h
    · exact Lexeme.readOperator_length_pos h

end TeenyLang
