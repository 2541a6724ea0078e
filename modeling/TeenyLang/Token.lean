import TeenyLang.Location
import TeenyLang.Text.Quoted

set_option autoImplicit false

/-!
# Tokens

The kinds of tokens, the reserved words and a token with its place. A reserved word is
recognised by its exact spelling; any other word is an identifier.
-/
namespace TeenyLang

open Text (quoted)

inductive Keyword where
  | LABEL | GOTO | PRINT | INPUT | LET | IF | THEN | ENDIF | WHILE | REPEAT | ENDWHILE
deriving DecidableEq, Repr

inductive Operator where
  | assign | plus | minus | asterisk | slash
  | equal | notEqual | less | lessEqual | greater | greaterEqual
deriving DecidableEq, Repr

/-- What a token is. `unknown` is the kind of a token not yet read. -/
inductive Kind where
  | unknown
  | endOfInput
  | newline
  | number
  | identifier
  | string
  | keyword (word : Keyword)
  | operator (op : Operator)
deriving DecidableEq, Repr

namespace Keyword

def all : List Keyword :=
  [LABEL, GOTO, PRINT, INPUT, LET, IF, THEN, ENDIF, WHILE, REPEAT, ENDWHILE]

def spelling : Keyword → String
  | LABEL => "LABEL"
  | GOTO => "GOTO"
  | PRINT => "PRINT"
  | INPUT => "INPUT"
  | LET => "LET"
  | IF => "IF"
  | THEN => "THEN"
  | ENDIF => "ENDIF"
  | WHILE => "WHILE"
  | REPEAT => "REPEAT"
  | ENDWHILE => "ENDWHILE"

def ofSpelling? (text : String) : Option Keyword :=
  all.find? fun word => word.spelling == text

def rank : Keyword → Nat
  | LABEL => 1
  | GOTO => 2
  | PRINT => 3
  | INPUT => 4
  | LET => 5
  | IF => 6
  | THEN => 7
  | ENDIF => 8
  | WHILE => 9
  | REPEAT => 10
  | ENDWHILE => 11

end Keyword

namespace Operator

def all : List Operator :=
  [assign, plus, minus, asterisk, slash, equal, notEqual, less, lessEqual, greater,
    greaterEqual]

def spelling : Operator → String
  | assign => "="
  | plus => "+"
  | minus => "-"
  | asterisk => "*"
  | slash => "/"
  | equal => "=="
  | notEqual => "!="
  | less => "<"
  | lessEqual => "<="
  | greater => ">"
  | greaterEqual => ">="

def name : Operator → String
  | assign => "ASSIGN"
  | plus => "PLUS"
  | minus => "MINUS"
  | asterisk => "ASTERISK"
  | slash => "SLASH"
  | equal => "EQUAL"
  | notEqual => "NOT_EQUAL"
  | less => "LESS"
  | lessEqual => "LESS_EQUAL"
  | greater => "GREATER"
  | greaterEqual => "GREATER_EQUAL"

def rank : Operator → Nat
  | assign => 1
  | plus => 2
  | minus => 3
  | asterisk => 4
  | slash => 5
  | equal => 6
  | notEqual => 7
  | less => 8
  | lessEqual => 9
  | greater => 10
  | greaterEqual => 11

def isComparison : Operator → Bool
  | equal | notEqual | less | lessEqual | greater | greaterEqual => true
  | assign | plus | minus | asterisk | slash => false

end Operator

namespace Kind

def all : List Kind :=
  [unknown, endOfInput, newline, number, identifier, string]
    ++ Keyword.all.map keyword ++ Operator.all.map operator

def name : Kind → String
  | unknown => "UNKNOWN"
  | endOfInput => "EOF"
  | newline => "NEWLINE"
  | number => "NUMBER"
  | identifier => "IDENTIFIER"
  | string => "STRING"
  | keyword word => word.spelling
  | operator op => op.name

def ofName? (name : String) : Option Kind :=
  all.find? fun kind => kind.name == name

/-- The number of a kind. Keywords lie between 100 and 200, operators between 200 and 300. -/
def code : Kind → Int
  | unknown => -2
  | endOfInput => -1
  | newline => 0
  | number => 1
  | identifier => 2
  | string => 3
  | keyword word => 100 + word.rank
  | operator op => 200 + op.rank

def isKeyword : Kind → Bool
  | keyword _ => true
  | _ => false

def isOperator : Kind → Bool
  | operator _ => true
  | _ => false

def isComparison : Kind → Bool
  | operator op => op.isComparison
  | _ => false

def description : Kind → String
  | unknown => "unknown"
  | endOfInput => "end of input"
  | newline => "newline"
  | number => "number"
  | identifier => "identifier"
  | string => "string"
  | keyword word => word.spelling
  | operator .assign => "'='"
  | operator op => op.name.toLower

def ofWord (text : String) : Kind :=
  match Keyword.ofSpelling? text with
  | some word => keyword word
  | none => identifier

end Kind

/-- A token: its kind, its text (of a string literal without the quotes) and its place. -/
structure Token where
  kind : Kind
  text : String
  location : Location
deriving DecidableEq, Repr

namespace Token

def description (t : Token) : String :=
  match t.kind with
  | .endOfInput | .newline => t.kind.description
  | .string => "\"" ++ t.text ++ "\""
  | _ => t.text

def dump (t : Token) : String :=
  s!"Token({t.kind.name}, {quoted t.text}, {t.location.line}:{t.location.column})"

end Token

end TeenyLang
