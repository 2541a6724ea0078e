import TeenyLang.Location
import TeenyLang.Text.Quoted

set_option autoImplicit false

/-!
# Diagnostics

What the compiler says about a program that it rejects. A `Cause` is what went wrong, with
the parts that its wording needs; a `Diagnostic` adds where, and the source line there. All
wording is in `Cause.text`, `Cause.hint` and `Diagnostic.message`.
-/
namespace TeenyLang

open Text (quoted)

inductive Stage where
  | lexical
  | syntactic
  | semantic
deriving DecidableEq, Repr

/-- Why a program is rejected. The first three carry advice of their own, if any; the advice
of the others follows from their parts. -/
inductive Cause where
  /-- A complaint in free words. -/
  | other (stage : Option Stage) (text : String) (advice : Option String)
  /-- A character that may not stand in a literal. -/
  | illegalCharacter (found literal : String) (advice : Option String)
  /-- A character that starts no token. -/
  | unexpectedCharacter (found : String) (advice : Option String)
  /-- A token other than the one required. -/
  | unexpectedToken (found : String) (expected : Option String)
  /-- A condition that compares nothing. -/
  | missingComparison (found : String)
  /-- A token that starts no statement. -/
  | invalidStatement (found : String)
  /-- A variable that is read before it is assigned. -/
  | undeclaredVariable (name : String) (similar : List String)
  /-- A label that is declared again. -/
  | duplicateLabel (label : String) (first : Option Location)
  /-- Jumps to labels that are nowhere declared, each with the place of its first jump. -/
  | undeclaredLabels (labels : List String) (places : List (Option Location))
deriving DecidableEq, Repr

namespace Cause

def stage : Cause → Option Stage
  | other stage _ _ => stage
  | illegalCharacter .. | unexpectedCharacter .. => some .lexical
  | unexpectedToken .. | missingComparison .. | invalidStatement .. => some .syntactic
  | undeclaredVariable .. | duplicateLabel .. | undeclaredLabels .. => some .semantic

def listed (names : List String) : String :=
  ", ".intercalate (names.map fun name => s!"'{name}'")

def text : Cause → String
  | other _ text _ => text
  | illegalCharacter found literal _ => s!"illegal character {quoted found} in {literal}"
  | unexpectedCharacter found _ => s!"unexpected character {quoted found}"
  | unexpectedToken found _ => s!"unexpected token {quoted found}"
  | missingComparison found => s!"expected comparison operator, got {quoted found}"
  | invalidStatement found => s!"invalid statement at {quoted found}"
  | undeclaredVariable name _ => s!"undeclared variable '{name}'"
  | duplicateLabel label _ => s!"duplicate label '{label}'"
  | undeclaredLabels labels _ =>
    let noun := if labels.length = 1 then "label" else "labels"
    s!"GOTO to undeclared {noun} {listed labels}"

/-- The advice that goes with a cause. At most three similar names are suggested. -/
def hint : Cause → Option String
  | other _ _ advice | illegalCharacter _ _ advice | unexpectedCharacter _ advice => advice
  | unexpectedToken _ none => none
  | unexpectedToken _ (some expected) =>
    if expected.isEmpty then none else some s!"expected {expected}"
  | missingComparison _ => some "use one of ==, !=, <, <=, >, >="
  | invalidStatement _ =>
    some "statements start with PRINT, IF, WHILE, LABEL, GOTO, LET or INPUT"
  | undeclaredVariable name [] =>
    some s!"assign it first with LET {name} = ... or INPUT {name}"
  | undeclaredVariable _ similar => some s!"did you mean {listed (similar.take 3)}?"
  | duplicateLabel _ none => none
  | duplicateLabel label (some first) =>
    some s!"'{label}' was first declared at {first.text}"
  | undeclaredLabels .. => none

end Cause

/-- A cause with its place and the source line at that place, as far as they are known. -/
structure Diagnostic where
  cause : Cause
  location : Option Location := none
  sourceLine : Option String := none
deriving DecidableEq, Repr

namespace Diagnostic

/-- The diagnostic for jumps to missing labels. It stands at the first place given; without
any place each label has none. -/
def missingLabels (labels : List String) (places : List (Option Location)) : Diagnostic :=
  let places := if places.isEmpty then labels.map fun _ => none else places
  { cause := .undeclaredLabels labels places, location := places.head?.join }

def headline (place : Option Location) (text : String) : String :=
  match place with
  | some place => s!"{place.text}: error: {text}"
  | none => s!"error: {text}"

/-- The source line and, for a positive column, a caret under that column. -/
def excerpt (place : Location) (line : String) : List String :=
  let shown := "    " ++ line
  if 0 < place.column then
    [shown, String.ofList (List.replicate (3 + place.column.toNat) ' ') ++ "^"]
  else
    [shown]

/-- The lines of a message. Missing labels have one line each; any other cause has its
headline, then the excerpt and the hint if there are any. -/
def messageLines (d : Diagnostic) : List String :=
  match d.cause with
  | .undeclaredLabels labels places =>
    List.zipWith (fun label place => headline place s!"GOTO to undeclared label '{label}'")
      labels places
  | cause =>
    let shown :=
      match d.location, d.sourceLine with
      | some place, some line => excerpt place line
      | _, _ => []
    let advice :=
      match cause.hint with
      | some hint => if hint.isEmpty then [] else [s!"hint: {hint}"]
      | none => []
    headline d.location cause.text :: shown ++ advice

def message (d : Diagnostic) : String :=
  "\n".intercalate d.messageLines

end Diagnostic

end TeenyLang
