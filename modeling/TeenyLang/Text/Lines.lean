set_option autoImplicit false

/-!
# Lines of a text

Two notions of a line are in use. `splitLines` breaks a text at every character that ends
a line in any convention and is used to show source lines. `unifyNewlines` is what reading
a text file does: the two Windows and old Macintosh line ends become a newline and the
other line breaks stay.
-/
namespace TeenyLang.Text

def isLineBreak (c : Char) : Bool :=
  ['\n', '\r', '\x0b', '\x0c', '\x1c', '\x1d', '\x1e', '\x85', '\u2028', '\u2029'].contains c

/-- The lines of a text whose current line so far is `line`, read backwards. -/
def splitLinesFrom (line : List Char) : List Char → List (List Char)
  | [] => if line.isEmpty then [] else [line.reverse]
  | '\r' :: '\n' :: rest => line.reverse :: splitLinesFrom [] rest
  | c :: rest =>
    if isLineBreak c then line.reverse :: splitLinesFrom [] rest
    else splitLinesFrom (c :: line) rest

/-- The lines of a text without their breaks. A break at the very end opens no new line,
and a carriage return with the newline after it is one break. -/
def splitLines (text : String) : List String :=
  (splitLinesFrom [] text.toList).map String.ofList

/-- Every carriage return, with the newline after it if there is one, becomes a newline. -/
def unifyNewlines : List Char → List Char
  | [] => []
  | '\r' :: '\n' :: rest => '\n' :: unifyNewlines rest
  | c :: rest => (if c = '\r' then '\n' else c) :: unifyNewlines rest

end TeenyLang.Text
