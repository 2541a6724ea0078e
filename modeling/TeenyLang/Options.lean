import TeenyLang.Log
import TeenyLang.Text.Integer
import TeenyLang.Text.Quoted

set_option autoImplicit false

/-!
# Compiler options

Two settings, with defaults that the environment may replace. A value in the environment
that does not fit is ignored: with a warning if it is no integer or no suffix, without one
if it is a negative integer.
-/
namespace TeenyLang

structure Options where
  /-- Digits after the point of a printed number. -/
  precision : Int := 2
  /-- What the name of an output file ends in. -/
  suffix : String := ".c"
deriving DecidableEq, Repr

/-- The two environment variables that are looked at; an empty value counts as none. -/
structure Environment where
  precision : Option String := none
  suffix : Option String := none
deriving DecidableEq, Repr

namespace Environment

def precisionVariable : String := "TEENY_PRINT_PRECISION"

def suffixVariable : String := "TEENY_OUTPUT_SUFFIX"

def ofLookup (lookup : String → Option String) : Environment :=
  ⟨lookup precisionVariable, lookup suffixVariable⟩

end Environment

namespace Options

/-- The options with the given settings; a negative precision is given back as refused. -/
def make (precision : Int) (suffix : String) : Except Int Options :=
  if precision < 0 then .error precision else .ok ⟨precision, suffix⟩

def ignoring (name value : String) : LogEntry :=
  ⟨.warning, .compiler, s!"Ignoring invalid {name}={Text.quoted value}"⟩

def precisionFrom (value : Option String) : Int × List LogEntry :=
  let preset : Options := {}
  match value with
  | none => (preset.precision, [])
  | some text =>
    if text.isEmpty then (preset.precision, [])
    else
      match Text.integer? text with
      | none => (preset.precision, [ignoring Environment.precisionVariable text])
      | some n => (if n < 0 then preset.precision else n, [])

def suffixFrom (value : Option String) : String × List LogEntry :=
  let preset : Options := {}
  match value with
  | none => (preset.suffix, [])
  | some text =>
    if text.isEmpty then (preset.suffix, [])
    else if text.toList.head? = some '.' then (text, [])
    else (preset.suffix, [ignoring Environment.suffixVariable text])

def ofEnvironment (env : Environment) : Options × List LogEntry :=
  let (precision, precisionLog) := precisionFrom env.precision
  let (suffix, suffixLog) := suffixFrom env.suffix
  (⟨precision, suffix⟩, precisionLog ++ suffixLog)

end Options

end TeenyLang
