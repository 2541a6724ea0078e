import TeenyLang.Build

set_option autoImplicit false

/-!
# Sessions

A session is a compiler in use: its options, which may be changed at any time, and the
compilations made so far, which can be written out or asked for their diagnostic later.
-/
namespace TeenyLang

structure Session where
  options : Options
  results : List Compilation := []
deriving DecidableEq, Repr

namespace Session

inductive Step where
  /-- The characters `lone` of the source stand for lone surrogates. -/
  | compileText (source file : String) (lone : List Char := [])
  | compileFile (path : String)
  /-- Keeps a compilation of nothing. -/
  | keepEmpty
  | write (index : Nat) (path : String)
  | demandSuccess (index : Nat)
  | outputPath (path : String)
  | setPrecision (value : Int)
  | setSuffix (suffix : String)
deriving DecidableEq, Repr

inductive Reply where
  | done
  | compiled (compilation : Compilation)
  | path (text : String)
  | failed (failure : Failure)
deriving DecidableEq, Repr

def keep (s : Session) (compilation : Compilation) : Session :=
  { s with results := s.results ++ [compilation] }

/-- The result with that number, from 0; there is an empty one where none was made. -/
def result (s : Session) (index : Nat) : Compilation :=
  s.results[index]?.getD {}

variable {m : Type → Type} [Monad m] [FileAccess m]

def step (s : Session) : Step → m (Session × Reply × List LogEntry)
  | .compileText source file lone => do
    let (compilation, log) := compile s.options source file
    let compilation := { compilation with lone := lone }
    return (s.keep compilation, .compiled compilation, log)
  | .compileFile path => do
    match ← Build.compileFile s.options path with
    | (.ok compilation, log) => return (s.keep compilation, .compiled compilation, log)
    | (.error failure, log) => return (s, .failed failure, log)
  | .keepEmpty => return (s.keep {}, .compiled {}, [])
  | .write index path => do
    let place := Path.ofText path
    match ← Build.writeOutput (s.result index) place with
    | (.ok (), log) => return (s, .path place.text, log)
    | (.error failure, log) => return (s, .failed failure, log)
  | .demandSuccess index =>
    match (s.result index).diagnostic? with
    | some diagnostic => return (s, .failed (.rejected diagnostic), [])
    | none => return (s, .done, [])
  | .outputPath path =>
    match Build.outputPath s.options (Path.ofText path) with
    | .ok output => return (s, .path output.text, [])
    | .error failure => return (s, .failed failure, [])
  | .setPrecision value =>
    return ({ s with options := { s.options with precision := value } }, .done, [])
  | .setSuffix suffix =>
    return ({ s with options := { s.options with suffix := suffix } }, .done, [])

def run (s : Session) : List Step → m (Session × List (Reply × List LogEntry))
  | [] => return (s, [])
  | first :: rest => do
    let (s, answer) ← s.step first
    let (s, answers) ← s.run rest
    return (s, answer :: answers)

end Session

end TeenyLang
