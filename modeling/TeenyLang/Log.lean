set_option autoImplicit false

/-!
# Log entries

What the compiler records about its own work. Entries are data; where and in which form
they are shown is decided by whoever runs the compiler.
-/
namespace TeenyLang

inductive LogLevel where
  | debug
  | info
  | warning
deriving DecidableEq, Repr

/-- Who makes an entry: the parser, for its rules, or the compiler around it. -/
inductive LogSource where
  | parser
  | compiler
deriving DecidableEq, Repr

structure LogEntry where
  level : LogLevel
  source : LogSource
  message : String
deriving DecidableEq, Repr

def LogLevel.name : LogLevel → String
  | debug => "DEBUG"
  | info => "INFO"
  | warning => "WARNING"

def LogSource.name : LogSource → String
  | parser => "teeny.compiler.parser"
  | compiler => "teeny.compiler.compiler"

def LogEntry.line (entry : LogEntry) : String :=
  s!"{entry.source.name}: {entry.message}"

def LogEntry.fullLine (entry : LogEntry) : String :=
  s!"{entry.level.name} {entry.line}"

end TeenyLang
