set_option autoImplicit false

/-!
# Locations

A place in a source text. Lines and columns of a text count from 1, columns in characters;
the type admits other integers, for tokens that stand in no text.
-/
namespace TeenyLang

structure Location where
  file : String
  line : Int
  column : Int
deriving DecidableEq, Repr

def Location.text (place : Location) : String :=
  s!"{place.file}:{place.line}:{place.column}"

end TeenyLang
