import TeenyLang.Target.Listing
import TeenyLang.Target.Spelling
import TeenyLang.Text.Lines
import TeenyLang.Text.Similarity
import TeenyLang.Token.Supply

set_option autoImplicit false

/-!
# Parser state

A parser reads the tokens of a supply with two tokens of lookahead, keeps the names that the
program has declared and writes the C text as it goes. A rule is a step of a parser that ends
with a value or with a diagnostic; in either case the parser is left as far as it came.

`Parser.size` bounds the tokens still to be read. It is what every loop over tokens
decreases.
-/
namespace TeenyLang

structure Parser (σ : Type) where
  supply : σ
  current : Token
  peek : Token
  /-- How many tokens other than the end of the input have been pulled. -/
  count : Nat
  /-- Digits after the point of a printed number. -/
  precision : Int
  /-- The lines of the source, for diagnostics. -/
  lines : List String
  /-- The declared variables, the first one first. -/
  variableNames : List String
  /-- The declared labels with their places, the first one first. -/
  labels : List (String × Location)
  /-- The labels that are jumped to with the place of the first jump, the first one first. -/
  jumps : List (String × Location)
  listing : Target.Listing
  /-- The names of the rules that were entered and the variables that were declared. -/
  trace : Array String

abbrev Rule (σ α : Type) := EStateM Diagnostic (Parser σ) α

namespace Parser

variable {σ : Type}

/-- How many of the two tokens ahead are not the end of the input. -/
def pending (p : Parser σ) : Nat :=
  (if p.current.kind = .endOfInput then 0 else 1) + (if p.peek.kind = .endOfInput then 0 else 1)

/-- A bound on the tokens still to be read; three per unit of the supply, so that pulling a
token costs more than the two tokens ahead can bring. -/
def size [TokenSupply σ] (p : Parser σ) : Nat :=
  3 * TokenSupply.remaining p.supply + p.pending

def sourceLine (p : Parser σ) (line : Int) : Option String :=
  if 0 < line then p.lines[line.toNat - 1]? else none

def sortedVariables (p : Parser σ) : List String :=
  p.variableNames.mergeSort (fun x y => decide (x ≤ y))

def note (message : String) : Rule σ Unit :=
  modify fun p => { p with trace := p.trace.push message }

def emit (text : String) : Rule σ Unit :=
  modify fun p => { p with listing := p.listing.code text }

def emitLine (text : String) : Rule σ Unit :=
  modify fun p => { p with listing := p.listing.codeLine text }

def emitDeclaration (text : String) : Rule σ Unit :=
  modify fun p => { p with listing := p.listing.declare text }

def failAt {α : Type} (token : Token) (cause : Cause) : Rule σ α := do
  let p ← get
  throw ⟨cause, some token.location, p.sourceLine token.location.line⟩

/-- Moves on by one token and gives the token left behind. The lookahead has moved even when
the pull fails. -/
def advance [TokenSupply σ] : Rule σ Token := fun p =>
  match TokenSupply.pull p.supply with
  | .ok token supply =>
    .ok p.current
      { p with
        supply := supply
        current := p.peek
        peek := token
        count := if token.kind = .endOfInput then p.count else p.count + 1 }
  | .error diagnostic supply => .error diagnostic { p with supply := supply, current := p.peek }

def expect [TokenSupply σ] (kind : Kind) : Rule σ Token := do
  let p ← get
  if p.current.kind = kind then advance
  else failAt p.current (.unexpectedToken p.current.description (some kind.description))

/-- A token before the first one of any text. -/
def unread : Token :=
  ⟨.unknown, "", ⟨"<input>", 0, 0⟩⟩

def start [TokenSupply σ] (precision : Int) (lines : List String) (supply : σ) :
    Except Diagnostic (Parser σ) :=
  let fill : Rule σ Unit := do
    discard advance
    discard advance
  let fresh : Parser σ :=
    { supply := supply, current := unread, peek := unread, count := 0, precision := precision,
      lines := lines, variableNames := [], labels := [], jumps := [], listing := {}, trace := #[] }
  match fill fresh with
  | .ok _ p => .ok p
  | .error diagnostic _ => .error diagnostic

end Parser

end TeenyLang
