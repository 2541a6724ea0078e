import TeenyLang.Options
import TeenyLang.Parser.Program

set_option autoImplicit false

/-!
# Compilations

Compiling a text: the parser is started on it and reads a program. The result says what
came of it and what was read up to then.
-/
namespace TeenyLang

inductive Verdict where
  /-- Nothing was compiled. -/
  | none
  | accepted (output : String)
  | rejected (diagnostic : Diagnostic)
deriving DecidableEq, Repr

structure Compilation where
  file : String := ""
  verdict : Verdict := .none
  /-- How many tokens were read before the end or the failure. -/
  tokenCount : Nat := 0
  /-- The declared variables in the order of their characters. -/
  variableNames : List String := []
  /-- The declared labels in the order of their declarations. -/
  labels : List String := []
  /-- The characters of the source that stand for lone surrogates. -/
  lone : List Char := []
deriving DecidableEq, Repr

namespace Compilation

def isAccepted (c : Compilation) : Bool :=
  match c.verdict with
  | .accepted _ => true
  | _ => false

/-- The C text, which is empty unless the program was accepted. -/
def output (c : Compilation) : String :=
  match c.verdict with
  | .accepted output => output
  | _ => ""

def diagnostic? (c : Compilation) : Option Diagnostic :=
  match c.verdict with
  | .rejected diagnostic => some diagnostic
  | _ => Option.none

def ofParser {σ : Type} (file : String) (verdict : Verdict) (p : Parser σ) : Compilation :=
  ⟨file, verdict, p.count, p.sortedVariables, p.labels.map Prod.fst, []⟩

end Compilation

def targetText (source file : String) (precision : Int) : Except Diagnostic String := do
  let p ← Parser.ofSource source file precision
  match Parser.program p with
  | .ok _ p => return p.listing.text
  | .error diagnostic _ => throw diagnostic

def rejectedEntry (file : String) (diagnostic : Diagnostic) : LogEntry :=
  ⟨.debug, .compiler, s!"Compilation of {file} failed: {diagnostic.cause.text}"⟩

def acceptedEntry {σ : Type} (file : String) (p : Parser σ) : LogEntry :=
  let counts :=
    s!"{p.count} tokens, {p.variableNames.length} variables, {p.labels.length} labels"
  ⟨.info, .compiler, s!"Compiled {file}: {counts}"⟩

def traceEntries {σ : Type} (p : Parser σ) : List LogEntry :=
  p.trace.toList.map fun message => ⟨.debug, .parser, message⟩

def compile (options : Options) (source file : String) : Compilation × List LogEntry :=
  match Parser.ofSource source file options.precision with
  | .error diagnostic =>
    ({ file := file, verdict := .rejected diagnostic }, [rejectedEntry file diagnostic])
  | .ok p =>
    match Parser.program p with
    | .ok _ p =>
      (.ofParser file (.accepted p.listing.text) p, traceEntries p ++ [acceptedEntry file p])
    | .error diagnostic p =>
      (.ofParser file (.rejected diagnostic) p, traceEntries p ++ [rejectedEntry file diagnostic])

end TeenyLang
