import TeenyLang.Parser.Statement
import TeenyLang.Token.Scanner

set_option autoImplicit false

/-!
# Programs

    program ::= {newline} {statement}

A program becomes the body of `main`. Labels may be declared after the jumps to them, so the
jumps are checked when the whole program has been read.
-/
namespace TeenyLang.Parser

variable {σ : Type} [TokenSupply σ]

def missingJumps (p : Parser σ) : List (String × Location) :=
  p.jumps.filter fun jump => (p.labels.lookup jump.1).isNone

def checkLabels : Rule σ Unit := do
  let p ← get
  let missing := p.missingJumps
  unless missing.isEmpty do
    throw (.missingLabels (missing.map Prod.fst) (missing.map fun jump => some jump.2))

def program : Rule σ Unit := do
  note "PROGRAM"
  emitDeclaration "#include <stdio.h>"
  emitDeclaration "int main(void) \x7b"
  skipNewlines
  block .endOfInput
  checkLabels
  emitLine "return 0;"
  emitLine "\x7d"

def ofSource (source file : String) (precision : Int) : Except Diagnostic (Parser Scanner) :=
  start precision (Text.splitLines (source ++ "\n")) (Scanner.start source file)

end TeenyLang.Parser
