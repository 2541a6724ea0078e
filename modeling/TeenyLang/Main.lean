import TeenyLang.CommandLine.Run

set_option autoImplicit false

/-!
# The command-line program

Runs the command line on the files of the system. All decisions are made in
`TeenyLang.CommandLine.run`; here files are looked at, read and written.
-/
namespace TeenyLang

/-- A failed file operation as a fault. The system's number 20 says that a name on the way
is no directory, and 36 that a name is too long. -/
def faultOf : IO.Error → FileFault
  | .noFileOrDirectory .. => .notFound
  | .permissionDenied .. => .permissionDenied
  | .inappropriateType _ code _ => if code = 20 then .notDirectory else .isDirectory
  | .invalidArgument _ code _ => if code = 36 then .nameTooLong else .isDirectory
  | _ => .isDirectory

def guardFile {α : Type} (action : IO α) : IO (Except FileFault α) := do
  try
    return .ok (← action)
  catch error =>
    return .error (faultOf error)

instance : FileAccess IO where
  status path := do
    if path.isEmpty then return .missing
    match ← guardFile ((← IO.currentDir) / path).metadata with
    | .ok found =>
      if found.type == .dir then return .directory
      match ← guardFile (IO.FS.Handle.mk path .read) with
      | .error .permissionDenied => return .unreadable
      | _ => return .file
    | .error .nameTooLong => return .unknown
    | .error _ => return .missing
  read path := guardFile (IO.FS.readBinFile path)
  write path content := guardFile (IO.FS.writeBinFile path content)

end TeenyLang

def main (args : List String) : IO UInt32 := do
  let precision ← IO.getEnv TeenyLang.Environment.precisionVariable
  let suffix ← IO.getEnv TeenyLang.Environment.suffixVariable
  let report ← TeenyLang.CommandLine.run {} ⟨precision, suffix⟩ args
  IO.print report.stdout
  IO.eprint report.stderr
  return report.exitCode.toUInt32
