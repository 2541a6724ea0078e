import TeenyLang.Location

set_option autoImplicit false

/-!
# Cursors

A position in a text, kept as the characters from there on together with the line, the
column and the characters from the start of the line on. Only a newline starts a line.
-/
namespace TeenyLang

structure Cursor where
  /-- The current character and all after it. -/
  rest : List Char
  line : Nat
  column : Nat
  /-- The characters from the start of the current line on. -/
  lineStart : List Char
deriving DecidableEq, Repr

namespace Cursor

def start (text : List Char) : Cursor :=
  ⟨text, 1, 1, text⟩

/-- The cursor after the current character; at the end of the text it stays. -/
def advance (c : Cursor) : Cursor :=
  match c.rest with
  | [] => c
  | '\n' :: rest => ⟨rest, c.line + 1, 1, rest⟩
  | _ :: rest => ⟨rest, c.line, c.column + 1, c.lineStart⟩

def advanceBy : Nat → Cursor → Cursor
  | 0, c => c
  | n + 1, c => advanceBy n c.advance

def currentLine (c : Cursor) : String :=
  String.ofList (c.lineStart.takeWhile (· ≠ '\n'))

/-- The character after the current one. -/
def peek? (c : Cursor) : Option Char :=
  c.rest.tail.head?

def location (c : Cursor) (file : String) : Location :=
  ⟨file, c.line, c.column⟩

@[simp] theorem advance_rest (c : Cursor) : c.advance.rest = c.rest.tail := by
  unfold advance
  split <;> simp_all

@[simp] theorem advanceBy_rest (n : Nat) (c : Cursor) :
    (advanceBy n c).rest = c.rest.drop n := by
  induction n generalizing c with
  | zero => simp [advanceBy]
  | succ n ih => simp [advanceBy, ih]

end Cursor

end TeenyLang
