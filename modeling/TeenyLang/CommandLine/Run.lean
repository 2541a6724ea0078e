import TeenyLang.CommandLine.Report
import TeenyLang.CommandLine.Usage

set_option autoImplicit false

/-!
# Running the command line

A call is checked in this order: the words are split, help and version are answered, the
values of the options are checked in the order of their first appearance, then the input
file, then that nothing is left over. A call that passes is a `Request`, which is then
carried out.
-/
namespace TeenyLang.CommandLine

structure Request where
  input : Path
  output : Option Path
  precision : Option Int
  tokens : Bool
  verbose : Bool
deriving DecidableEq, Repr

variable {m : Type → Type} [Monad m] [FileAccess m]

def precisionOf (text : String) : Except UsageFault Int :=
  match Text.integer? text with
  | none => .error (.precisionNotInteger text)
  | some value => if value < 0 then .error (.precisionNegative value) else .ok value

def valueFault? (words : Words) (flag : Flag) : m (Option UsageFault) := do
  match flag, words.lastValue? flag with
  | .precision, some text =>
    match precisionOf text with
    | .error fault => return some fault
    | .ok _ => return none
  | .output, some word =>
    match ← FileAccess.status word with
    | .directory => return some (.outputIsDirectory word)
    | .unreadable => return some (.outputUnreadable word)
    | _ => return none
  | _, _ => return none

def firstValueFault? (words : Words) : List Flag → m (Option UsageFault)
  | [] => return none
  | flag :: rest => do
    match ← valueFault? words flag with
    | some fault => return some fault
    | none => firstValueFault? words rest

def argumentFault? (words : Words) : m (Option UsageFault) := do
  match words.arguments with
  | [] => return some .noInput
  | input :: extra =>
    match ← FileAccess.status input with
    | .missing | .unknown => return some (.inputMissing input)
    | .directory => return some (.inputIsDirectory input)
    | .unreadable => return some (.inputUnreadable input)
    | .file => return if extra.isEmpty then none else some (.extraArguments extra)

def requestOf (words : Words) : Request where
  input := Path.ofText (words.arguments.headD "")
  output := (words.lastValue? .output).map Path.ofText
  precision := (words.lastValue? .precision).bind Text.integer?
  tokens := words.has .tokens
  verbose := words.has .verbose

def usageReport (fault : UsageFault) : Report :=
  { exitCode := 2, stderr := String.join (fault.lines.map echoed) }

def information? (words : Words) : Option String :=
  (words.flags.find? fun flag => flag == .help || flag == .version).map fun flag =>
    if flag == .help then helpText else versionText

/-- Lists the tokens of the input, up to the end or the first fault. -/
def dumpTokens (console : Console) (input : Path) (report : Report) : m Report := do
  match ← Build.readSource input with
  | .error failure => return report.fail (.ofFailure failure)
  | .ok source =>
    let outcome := (Scanner.start source input.text).readAll
    match report.tell console (outcome.tokens.map Token.dump), outcome.failure with
    | (report, some objection), _ => return report.fail (.unforeseen objection)
    | (report, none), some diagnostic => return report.fail (.rejected diagnostic)
    | (report, none), none => return report

def namesOrNone (names : List String) : String :=
  if names.isEmpty then "(none)" else ", ".intercalate names

def summary (compilation : Compilation) (output : Path) : List String :=
  [s!"Tokenized: {compilation.tokenCount} tokens",
    s!"Variables: {namesOrNone compilation.variableNames}",
    s!"Labels: {namesOrNone compilation.labels}",
    s!"Wrote {compilation.output.length} bytes to {output.text}"]

def conclusion (request : Request) (compilation : Compilation) (output : Path) : List String :=
  let details := if request.verbose then summary compilation output else []
  details ++ [s!"Compiled {request.input.text} -> {output.text}"]

def compileTo (console : Console) (options : Options) (request : Request) (output : Path)
    (report : Report) : m Report := do
  let (compiled, log) ← Build.compileFile options request.input.text
  let report := report.log request.verbose log
  match compiled with
  | .error failure => return report.fail (.ofFailure failure)
  | .ok compilation =>
    let (written, log) ← Build.writeOutput compilation output
    let report := report.log request.verbose log
    match written with
    | .error failure => return report.fail (.ofFailure failure)
    | .ok () =>
      match report.tell console (conclusion request compilation output) with
      | (report, some objection) => return report.fail (.unforeseen objection)
      | (report, none) => return report

def outputOf (options : Options) (request : Request) : Except Failure Path :=
  match request.output with
  | some output => .ok output
  | none => Build.outputPath options request.input

def optionsOf (preset : Options) (request : Request) : Options :=
  match request.precision with
  | some precision => { preset with precision := precision }
  | none => preset

def announcement (request : Request) : List String :=
  if request.verbose then [s!"Compiling {request.input.text}..."] else []

def carryOut (console : Console) (env : Environment) (request : Request) : m Report := do
  let (preset, warnings) := Options.ofEnvironment env
  let options := optionsOf preset request
  let report := ({} : Report).log request.verbose warnings
  if request.tokens then
    dumpTokens console request.input report
  else
    match outputOf options request with
    | .error failure => return report.fail (.ofFailure failure)
    | .ok output =>
      match report.tell console (announcement request) with
      | (report, some objection) => return report.fail (.unforeseen objection)
      | (report, none) => compileTo console options request output report

/-- The report on help or version. That the text is refused is not caught. -/
def informationReport (console : Console) (text : String) : Report :=
  match ({} : Report).tell console [text] with
  | (report, some _) => { report with exitCode := 1 }
  | (report, none) => report

def runWords (console : Console) (env : Environment) (words : Words) : m Report := do
  match information? words with
  | some text => return informationReport console text
  | none =>
    match ← firstValueFault? words words.flags with
    | some fault => return usageReport fault
    | none =>
      match ← argumentFault? words with
      | some fault => return usageReport fault
      | none => carryOut console env (requestOf words)

def run (console : Console) (env : Environment) (arguments : List String) : m Report :=
  match splitWords arguments with
  | .error fault => return usageReport (.badWord fault)
  | .ok words => runWords console env words

end TeenyLang.CommandLine
