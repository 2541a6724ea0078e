import TeenyLang.CommandLine.Words
import TeenyLang.Text.Quoted

set_option autoImplicit false

/-!
# Usage

The fixed texts of the command line, and its complaints about how it is called.
-/
namespace TeenyLang.CommandLine

open Text (quoted)

def usageLine : String := "Usage: teenyc [OPTIONS] INPUT_FILE"

def versionText : String := "teenyc, version 1.0.0"

def helpText : String :=
  "\n".intercalate
    [usageLine,
      "",
      "  Compile a Teeny program to C.",
      "",
      "  INPUT_FILE is the Teeny source file to compile.",
      "",
      "  Examples:",
      "      teenyc count.teeny              # Outputs count.c",
      "      teenyc count.teeny -o out.c     # Specify output file",
      "      teenyc --tokens count.teeny     # Dump tokens",
      "",
      "  Language summary:",
      "      LET x = expr          PRINT expr | PRINT \"text\"",
      "      INPUT x               IF cond THEN ... ENDIF",
      "      LABEL name            WHILE cond REPEAT ... ENDWHILE",
      "      GOTO name             # comment",
      "",
      "Options:",
      "  -o, --output FILE              Output C file (default: input file with .c",
      "                                 suffix)",
      "  -p, --precision INTEGER RANGE  Digits after the decimal point when printing",
      "                                 numbers (default: 2)  [x>=0]",
      "  --tokens                       Print the token stream and exit (for debugging)",
      "  -v, --verbose                  Verbose output, including the parser trace",
      "  --version                      Show the version and exit.",
      "  --help                         Show this message and exit."]

inductive UsageFault where
  | badWord (fault : WordFault)
  | precisionNotInteger (text : String)
  | precisionNegative (value : Int)
  | outputIsDirectory (word : String)
  | outputUnreadable (word : String)
  | noInput
  | inputMissing (word : String)
  | inputIsDirectory (word : String)
  | inputUnreadable (word : String)
  | extraArguments (words : List String)
deriving DecidableEq, Repr

namespace UsageFault

def possibilityText (possibilities : List String) : String :=
  match possibilities with
  | [] => ""
  | [name] => s!" Did you mean {name}?"
  | names =>
    let sorted := names.mergeSort (fun x y => decide (x ≤ y))
    " (Possible options: " ++ ", ".intercalate sorted ++ ")"

def inputFault (text : String) : String :=
  "Invalid value for 'INPUT_FILE': " ++ text

def outputFault (text : String) : String :=
  "Invalid value for '-o' / '--output': " ++ text

def precisionFault (text : String) : String :=
  "Invalid value for '-p' / '--precision': " ++ text

def message : UsageFault → String
  | badWord (.noSuchOption name possibilities) =>
    s!"No such option: {name}{possibilityText possibilities}"
  | badWord (.needsValue name) => s!"Option '{name}' requires an argument."
  | badWord (.takesNoValue name) => s!"Option '{name}' does not take a value."
  | precisionNotInteger text => precisionFault s!"{quoted text} is not a valid integer range."
  | precisionNegative value => precisionFault s!"{value} is not in the range x>=0."
  | outputIsDirectory word => outputFault s!"File {quoted word} is a directory."
  | outputUnreadable word => outputFault s!"File {quoted word} is not readable."
  | noInput => "Missing argument 'INPUT_FILE'."
  | inputMissing word => inputFault s!"File {quoted word} does not exist."
  | inputIsDirectory word => inputFault s!"File {quoted word} is a directory."
  | inputUnreadable word => inputFault s!"File {quoted word} is not readable."
  | extraArguments words =>
    let noun := if words.length = 1 then "argument" else "arguments"
    s!"Got unexpected extra {noun} (" ++ " ".intercalate words ++ ")"

/-- Whether the usage line is shown above the complaint. A wrong number of values for an
option is told without it. -/
def showsUsage : UsageFault → Bool
  | badWord (.needsValue _) | badWord (.takesNoValue _) => false
  | _ => true

def lines (fault : UsageFault) : List String :=
  let complaint := s!"Error: {fault.message}"
  if fault.showsUsage then [usageLine, "Try 'teenyc --help' for help.", "", complaint]
  else [complaint]

end UsageFault

end TeenyLang.CommandLine
