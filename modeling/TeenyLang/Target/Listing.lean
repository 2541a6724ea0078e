set_option autoImplicit false

/-!
# Listings

The C text under way, in two parts that only grow: the opening, with the includes and the
declarations, and the body, with the statements. A declaration can so be written at any time
and still stands before every statement.
-/
namespace TeenyLang.Target

structure Listing where
  opening : String := ""
  body : String := ""
deriving DecidableEq, Repr

namespace Listing

def declare (l : Listing) (text : String) : Listing :=
  { l with opening := l.opening ++ text ++ "\n" }

def code (l : Listing) (text : String) : Listing :=
  { l with body := l.body ++ text }

def codeLine (l : Listing) (text : String) : Listing :=
  { l with body := l.body ++ text ++ "\n" }

def text (l : Listing) : String :=
  l.opening ++ l.body

end Listing

end TeenyLang.Target
