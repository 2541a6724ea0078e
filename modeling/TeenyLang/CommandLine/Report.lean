import TeenyLang.Build
import TeenyLang.Text.Terminal

set_option autoImplicit false

/-!
# Reports

What a run leaves behind for the one who called it: two streams and an exit code. A program
that is rejected gives 1, wrong or unreadable input 2, and what is not foreseen 3.

The first stream is a `Console`, which may refuse a line: its encoding may lack a character of
the line, also one that stands for a stray octet in a file name, or what it leads to may be full
or gone. A line is then refused as a whole, and what was taken before it stays. The second stream
writes escapes for the characters that its encoding lacks, and is taken to accept all it is sent.
-/
namespace TeenyLang.CommandLine

structure Report where
  exitCode : Nat := 0
  stdout : String := ""
  stderr : String := ""
deriving DecidableEq, Repr

def echoed (line : String) : String :=
  Text.plain (line ++ "\n")

/-- A first stream, given by what it has against a line after the text it has taken so far. -/
structure Console where
  objection? : (taken line : String) → Option String := fun _ _ => none

inductive Complaint where
  | rejected (diagnostic : Diagnostic)
  | badInput (text : String)
  | undecodable (text : String)
  | unforeseen (text : String)
deriving DecidableEq, Repr

namespace Complaint

def exitCode : Complaint → Nat
  | rejected _ => 1
  | badInput _ | undecodable _ => 2
  | unforeseen _ => 3

def message : Complaint → String
  | rejected diagnostic => diagnostic.message
  | badInput text => s!"Error: {text}"
  | undecodable text => s!"Error: source file is not valid UTF-8 ({text})"
  | unforeseen text => s!"Internal error: {text}"

def report (c : Complaint) : Report :=
  { exitCode := c.exitCode, stderr := echoed c.message }

def ofFailure (failure : Failure) : Complaint :=
  match failure with
  | .rejected diagnostic => rejected diagnostic
  | .sourceMissing _ | .file _ .notFound | .file _ .permissionDenied =>
    badInput failure.message
  | .undecodable error => undecodable error.message
  | .file _ _ | .unencodable _ | .suffix _ | .negativePrecision _ =>
    unforeseen failure.message

end Complaint

namespace Report

/-- Sends lines to the first stream, up to the first one that is refused. What the stream has
against that one comes with the report. -/
def tell (r : Report) (console : Console) : List String → Report × Option String
  | [] => (r, none)
  | line :: rest =>
    match console.objection? r.stdout (echoed line) with
    | some objection => (r, some objection)
    | none => tell { r with stdout := r.stdout ++ echoed line } console rest

/-- Adds log entries to the second stream: all of them, with their sources, if the run is
verbose, and otherwise the bare warnings. -/
def log (r : Report) (verbose : Bool) (entries : List LogEntry) : Report :=
  let lines :=
    if verbose then entries.map LogEntry.line
    else (entries.filter fun entry => entry.level == .warning).map LogEntry.message
  { r with stderr := r.stderr ++ String.join (lines.map (· ++ "\n")) }

def fail (r : Report) (complaint : Complaint) : Report :=
  { r with exitCode := complaint.exitCode, stderr := r.stderr ++ echoed complaint.message }

end Report

end TeenyLang.CommandLine
