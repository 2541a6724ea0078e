import TeenyLang.Token.Cursor
import TeenyLang.Token.Lexeme
import TeenyLang.Token.Supply

set_option autoImplicit false

/-!
# Scanners

A scanner reads a source text one token at a time. The text is given a newline at its end.
A scanner that meets a character that fits no token reports it, stands on that character
and can be asked again. After the last newline it gives the end of the input at every call.
-/
namespace TeenyLang

structure Scanner where
  /-- The name of the source. -/
  file : String
  cursor : Cursor
deriving DecidableEq, Repr

namespace Scanner

def start (source file : String) : Scanner :=
  ⟨file, .start (source.toList ++ ['\n'])⟩

def next : EStateM Diagnostic Scanner Token := fun s =>
  let cursor := s.cursor.advanceBy (Lexeme.gap s.cursor.rest).length
  match readLexeme cursor.rest with
  | .found kind text length =>
    .ok ⟨kind, text, cursor.location s.file⟩ { s with cursor := cursor.advanceBy length }
  | .fault before cause =>
    let place := cursor.advanceBy before
    .error ⟨cause, some (place.location s.file), some place.currentLine⟩
      { s with cursor := place }

theorem next_le {s s' : Scanner} {t : Token} (h : next s = .ok t s') :
    s'.cursor.rest.length ≤ s.cursor.rest.length := by
  unfold next at h
  simp only at h
  split at h
  · cases h
    simp only [Cursor.advanceBy_rest, List.length_drop]
    omega
  · cases h

theorem next_lt {s s' : Scanner} {t : Token} (h : next s = .ok t s')
    (more : t.kind ≠ .endOfInput) : s'.cursor.rest.length < s.cursor.rest.length := by
  unfold next at h
  simp only at h
  split at h
  · next kind text length lexeme =>
    cases h
    obtain ⟨positive, unread⟩ := readLexeme_length_pos lexeme more
    have := List.length_pos_iff.mpr unread
    simp only [Cursor.advanceBy_rest, List.length_drop] at this ⊢
    omega
  · cases h

instance : TokenSupply Scanner where
  pull := next
  remaining s := s.cursor.rest.length
  pull_le := next_le
  pull_lt := next_lt

/-- What a scanner gives when it is asked until the end: the tokens, the diagnostic that
stopped it if there was one, and the scanner after that. -/
structure Outcome where
  tokens : List Token
  failure : Option Diagnostic
  scanner : Scanner
deriving DecidableEq, Repr

/-- Reads tokens up to and including the end of the input, or up to a diagnostic. -/
def readAll (s : Scanner) : Outcome :=
  match _read : next s with
  | .error d s' => ⟨[], some d, s'⟩
  | .ok t s' =>
    if t.kind = .endOfInput then ⟨[t], none, s'⟩
    else
      let later := readAll s'
      { later with tokens := t :: later.tokens }
termination_by s.cursor.rest.length
decreasing_by exact next_lt _read ‹_›

end Scanner

end TeenyLang
