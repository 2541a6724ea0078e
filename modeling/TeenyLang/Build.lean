import TeenyLang.Compilation
import TeenyLang.FileTree
import TeenyLang.Text.Utf8

set_option autoImplicit false

/-!
# Building from files

Compiling the text of a file, naming the output and writing it. Source files are UTF-8, and
their line ends are made newlines before anything else is done. A file is opened for writing,
and so emptied, before its text is encoded.
-/
namespace TeenyLang

inductive Failure where
  | rejected (diagnostic : Diagnostic)
  | sourceMissing (path : String)
  | undecodable (error : Text.DecodeError)
  | unencodable (error : Text.EncodeError)
  | file (path : String) (fault : FileFault)
  | suffix (fault : Path.SuffixFault)
  | negativePrecision (value : Int)
deriving DecidableEq, Repr

def Failure.message : Failure → String
  | rejected diagnostic => diagnostic.message
  | sourceMissing path => s!"Source file not found: {path}"
  | undecodable error => error.message
  | unencodable error => error.message
  | file path fault => fault.message path
  | suffix fault => fault.message
  | negativePrecision value => s!"print_precision must be >= 0, got {value}"

namespace Build

variable {m : Type → Type} [Monad m] [FileAccess m]

def sourceText (content : ByteArray) : Except Failure String :=
  match Text.decodeUtf8 content with
  | .ok chars => .ok (String.ofList (Text.unifyNewlines chars))
  | .error error => .error (.undecodable error)

def readSource (path : Path) : m (Except Failure String) := do
  match ← FileAccess.read path.text with
  | .ok content => return sourceText content
  | .error fault => return .error (.file path.text fault)

/-- Compiles the file at `path`, which is named in diagnostics as it is given. -/
def compileFile (options : Options) (path : String) :
    m (Except Failure Compilation × List LogEntry) := do
  let place := Path.ofText path
  match ← FileAccess.status (m := m) place.text with
  | .missing => return (.error (.sourceMissing path), [])
  | _ =>
    match ← readSource place with
    | .error failure => return (.error failure, [])
    | .ok source =>
      let (compilation, log) := compile options source path
      return (.ok compilation, log)

def outputPath (options : Options) (path : Path) : Except Failure Path :=
  match path.withSuffix options.suffix with
  | .ok output => .ok output
  | .error fault => .error (.suffix fault)

def writeOutput (compilation : Compilation) (path : Path) :
    m (Except Failure Unit × List LogEntry) := do
  match compilation.verdict with
  | .rejected diagnostic => return (.error (.rejected diagnostic), [])
  | _ =>
    let output := compilation.output
    match Text.encodeStrict compilation.lone output with
    | .ok content =>
      match ← FileAccess.write path.text content with
      | .error fault => return (.error (.file path.text fault), [])
      | .ok () =>
        return (.ok (), [⟨.debug, .compiler, s!"Wrote {output.length} bytes to {path.text}"⟩])
    | .error error =>
      match ← FileAccess.write path.text .empty with
      | .error fault => return (.error (.file path.text fault), [])
      | .ok () => return (.error (.unencodable error), [])

def build (options : Options) (source output : String) : m (Except Failure String) := do
  match ← compileFile options source with
  | (.error failure, _) => return .error failure
  | (.ok compilation, _) =>
    match compilation.verdict with
    | .rejected diagnostic => return .error (.rejected diagnostic)
    | _ =>
      if output.isEmpty then
        return .ok compilation.output
      else
        match ← writeOutput compilation (Path.ofText output) with
        | (.error failure, _) => return .error failure
        | (.ok (), _) => return .ok compilation.output

end Build

end TeenyLang
