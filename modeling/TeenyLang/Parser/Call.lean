import TeenyLang.Parser.Program

set_option autoImplicit false

/-!
# Calls on a parser

The operations of a parser as data, so that a client may ask for them one by one, in any
order and also after one of them has failed.
-/
namespace TeenyLang.Parser

inductive Call where
  | checkCurrent (kinds : List Kind)
  | checkPeek (kinds : List Kind)
  | sourceLine (line : Int)
  | advance
  | expect (kind : Kind)
  | declare (name : String)
  | checkLabels
  | block (terminator : Kind)
  | program
  | statement
  | newlines
  | comparison
  | expression
  | term
  | unary
  | primary
deriving DecidableEq, Repr

inductive Answer where
  | nothing
  | truth (value : Bool)
  | token (value : Token)
  | line (value : Option String)
deriving DecidableEq, Repr

variable {σ : Type} [TokenSupply σ]

def Call.rule : Call → Rule σ Answer
  | checkCurrent kinds => return .truth (kinds.contains (← get).current.kind)
  | checkPeek kinds => return .truth (kinds.contains (← get).peek.kind)
  | sourceLine line => return .line ((← get).sourceLine line)
  | advance => return .token (← Parser.advance)
  | expect kind => return .token (← Parser.expect kind)
  | declare name => do Parser.declare name; return .nothing
  | checkLabels => do Parser.checkLabels; return .nothing
  | block terminator => do Parser.block terminator; return .nothing
  | program => do Parser.program; return .nothing
  | statement => do Parser.statement; return .nothing
  | newlines => do Parser.newlines; return .nothing
  | comparison => do Parser.comparison; return .nothing
  | expression => do Parser.expression; return .nothing
  | term => do Parser.term; return .nothing
  | unary => do Parser.unary; return .nothing
  | primary => do Parser.primary; return .nothing

def perform (p : Parser σ) (call : Call) : Except Diagnostic Answer × Parser σ :=
  match (call.rule : Rule σ Answer) p with
  | .ok answer p' => (.ok answer, p')
  | .error diagnostic p' => (.error diagnostic, p')

end TeenyLang.Parser
